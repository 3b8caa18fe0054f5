import ChipLogic.Netlist.Basic
import ChipLogic.Slots

/-!
# Failures of a simulation

What can go wrong when values are read, written and settled. A failure names chips and parts by
position; `SimError.message` shows the positions, and `SimError.described` the names of the netlist
where a reader needs them.

A netlist in which a chip contains itself has no finite tree of states. Its evaluation fails: with
`SimError.endless` unless something else fails first.
-/

namespace ChipLogic

/-- A cause of failure. -/
inductive SimError where
  | chipNotFound (chip : Nat)
  | invalidPin (chip pin : Nat)
  | invalidPart (chip part : Nat)
  | unknownPin (name : String)
  | valueTooWide (name : String) (value : UInt64) (width : Nat)
  | noConvergence (chip passes : Nat)
  | tooManyInputs (bits limit : Nat)
  /-- The chip is nested deeper than any chip of a netlist without circles. -/
  | endless (chip : Nat)
  deriving DecidableEq, Repr

namespace SimError

def message : SimError → String
  | .chipNotFound chip => s!"chip {handle chip} not found in netlist"
  | .invalidPin chip pin => s!"pin {handle pin} does not exist on chip {handle chip}"
  | .invalidPart chip part => s!"part {handle part} does not exist on chip {handle chip}"
  | .unknownPin name => s!"unknown pin `{name}`"
  | .valueTooWide name value width =>
    s!"value {value.toNat} does not fit in {width}-bit pin `{name}`"
  | .noConvergence chip passes => s!"chip {handle chip} did not settle within {passes} passes"
  | .tooManyInputs bits limit =>
    s!"{bits} input bits exceed the truth-table limit of {limit}"
  | .endless chip => s!"chip {handle chip} contains itself without end"

/-- The message with the chip that does not settle shown by name. -/
def described (e : SimError) (net : Netlist) : String :=
  match e with
  | .noConvergence chip passes =>
    let name := ((net.chip? chip).map (·.name)).getD "?"
    s!"chip `{name}` did not settle within {passes} passes"
  | .chipNotFound chip => s!"chip {handle chip} is not in the netlist"
  | e => e.message

end SimError

end ChipLogic
