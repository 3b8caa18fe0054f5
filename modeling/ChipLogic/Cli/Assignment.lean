import ChipLogic.Text.Blank
import ChipLogic.Text.Numeral

/-!
# Values on the command line

A value is a number below 2⁶⁴ in decimal, or in binary or hexadecimal after `0b` or `0x`; a plus may
stand before the digits and underscores anywhere (`parseValue`). An assignment is a name, `=` and a
value, with blanks around either (`parseAssignment`).
-/

namespace ChipLogic

/-- Why a text is no value or no assignment. -/
inductive InputError where
  | badValue (text : String)
  | noEquals (text : String)
  | noName (text : String)
  deriving DecidableEq, Repr

def InputError.message : InputError → String
  | .badValue text => s!"invalid value `{text}`"
  | .noEquals text => s!"expected `name=value`, found `{text}`"
  | .noName text => s!"missing pin name in `{text}`"

/-- The base of a number and what follows the mark of the base. -/
def splitBase : List Char → Nat × List Char
  | '0' :: 'b' :: digits => (2, digits)
  | '0' :: 'x' :: digits => (16, digits)
  | digits => (10, digits)

/-- The digits after a plus, if there is one. -/
def dropPlus : List Char → List Char
  | '+' :: digits => digits
  | digits => digits

/-- The number that a text stands for, of any size. -/
def readValue? (text : List Char) : Option Nat :=
  let (base, digits) := splitBase (text.filter (· != '_'))
  Numeral.read? base (dropPlus digits)

/-- Reads a value of 64 bits. -/
def parseValue (text : String) : Except InputError UInt64 :=
  match readValue? text.toList with
  | some n => if n < UInt64.size then .ok (UInt64.ofNat n) else .error (.badValue text)
  | none => .error (.badValue text)

/-- A text cut at its first `=`. -/
def cutAtEquals : List Char → Option (List Char × List Char)
  | [] => none
  | c :: cs =>
    if c = '=' then some ([], cs)
    else (cutAtEquals cs).map fun (before, after) => (c :: before, after)

/-- Reads the assignment of a value to a name. -/
def parseAssignment (text : String) : Except InputError (String × UInt64) :=
  match cutAtEquals text.toList with
  | none => .error (.noEquals text)
  | some (before, after) =>
    let name := trimBlank before
    if name.isEmpty then .error (.noName text)
    else (parseValue (String.ofList (trimBlank after))).map fun value =>
      (String.ofList name, value)

end ChipLogic
