import ChipLogic.Sim.Settle

/-!
# Runs

A run sets pins of the top chip by name, settles it, and reads the outputs.
-/

namespace ChipLogic

namespace State

/-- Sets pins by name to values that they have room for. -/
def setAllNamed (net : Netlist) : List (String × UInt64) → State → Except SimError State
  | [], s => .ok s
  | (name, value) :: rest, s =>
    match s.setNamed net name value with
    | (.error e, _) => .error e
    | (.ok _, s) => setAllNamed net rest s

end State

/-- The outputs of the top chip for some inputs; the others are zero. -/
def Netlist.simulate (net : Netlist) (inputs : List (String × UInt64)) (limits : Limits) :
    Except SimError (List (Pin × UInt64)) := do
  let s ← State.fresh? net net.top
  let s ← s.setAllNamed net inputs
  match s.evaluate net limits with
  | (.error e, _) => .error e
  | (.ok _, s) => return s.outputs net

end ChipLogic
