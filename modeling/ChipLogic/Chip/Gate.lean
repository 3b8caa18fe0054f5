/-!
# Built-in gates

The five gates that need no parts. A gate has one-bit inputs and the one-bit output `out`; it looks
at the lowest bit of each input. Gates are known by their exact names.
-/

namespace ChipLogic

/-- A gate that is computed at once. -/
inductive Gate where
  | nand
  | and
  | not
  | or
  | xor
  deriving DecidableEq, Repr, Inhabited

namespace Gate

/-- All gates. -/
def all : List Gate := [.nand, .and, .not, .or, .xor]

def name : Gate → String
  | .nand => "Nand"
  | .and => "And"
  | .not => "Not"
  | .or => "Or"
  | .xor => "Xor"

/-- The gate with exactly this name. -/
def ofName? (name : String) : Option Gate :=
  all.find? fun g => g.name == name

/-- The names of the inputs, in order; the output comes after them. -/
def inputNames : Gate → List String
  | .not => ["in"]
  | _ => ["a", "b"]

/-- The number of inputs, which is also the position of the output. -/
def arity (g : Gate) : Nat := g.inputNames.length

/-- The gate as a function of bits. -/
def table : Gate → Bool → Bool → Bool
  | .nand, a, b => !(a && b)
  | .and, a, b => a && b
  | .not, a, _ => !a
  | .or, a, b => a || b
  | .xor, a, b => a != b

/-- The output for input cells in order; a missing input is zero. -/
def apply (g : Gate) (inputs : List UInt64) : UInt64 :=
  let bit (i : Nat) : Bool := (inputs[i]?.getD 0) &&& 1 == 1
  if g.table (bit 0) (bit 1) then 1 else 0

end Gate

end ChipLogic
