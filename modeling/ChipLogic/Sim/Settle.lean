import ChipLogic.Sim.State

/-!
# Settling

A gate computes its output from its inputs. A chip with parts is settled in **passes**. A pass goes
through the parts in order: it copies the wires into the part, evaluates the part, and copies the
wires out of it. Passes follow one another until one changes nothing. Feedback may keep values
changing for ever, so the number of passes is limited.

Everything here is an **action**: it turns one state into another and tells whether it changed a
value. Actions in a row change something when one of them does, and the first failure ends the row.

**Depth.** Evaluation follows the nesting of chips. In a netlist without circles that nesting is
never deeper than there are chips, so `Netlist.depthBound` levels are enough. A chip that contains
itself can still come to an end, when values that go down the levels make an inner chip fail.
-/

namespace ChipLogic

/-- Limits of a simulation. -/
structure Limits where
  /-- The most passes that a chip may take to settle. -/
  maxPasses : Nat := 1024
  /-- The most input bits of a chip whose table is made. -/
  maxTableInputs : Nat := 16
  deriving DecidableEq, Repr

/-- A change of a state that tells whether a value changed. -/
abbrev Action := State → Outcome Bool

namespace Action

/-- The action that does nothing. -/
def none : Action := fun s => (.ok false, s)

/-- One action after the other. -/
def andThen (a b : Action) : Action := fun s =>
  match a s with
  | (.error e, s) => (.error e, s)
  | (.ok changed, s) =>
    match b s with
    | (.error e, s) => (.error e, s)
    | (.ok again, s) => (.ok (changed || again), s)

/-- Actions in a row. -/
def all : List Action → Action
  | [] => none
  | a :: as => a.andThen (all as)

/-- Repeats an action until it changes nothing, at most `limit` times; that many changes in a row
are a failure. -/
def untilSteady (failure : SimError) (a : Action) : (limit : Nat) → Action
  | 0 => fun s => (.error failure, s)
  | limit + 1 => fun s =>
    match a s with
    | (.error e, s) => (.error e, s)
    | (.ok false, s) => (.ok false, s)
    | (.ok true, s) =>
      match untilSteady failure a limit s with
      | (.error e, s) => (.error e, s)
      | (.ok _, s) => (.ok true, s)

end Action

/-- The levels that chips are followed: more than there are in a netlist without circles, and a
million or so on a circle. -/
def Netlist.depthBound (net : Netlist) : Nat :=
  net.size + 0x100000

namespace State

/-- Computes the output of a gate, which is the pin after its inputs. -/
def computeGate (net : Netlist) (g : Gate) : Action := fun s =>
  let (changed, s) := s.set net g.arity (g.apply ((List.range g.arity).map s.get))
  (.ok changed, s)

/-- What a pass does at a part: wires in, the part itself, wires out. -/
def visitPart (net : Netlist) (evaluateChild : Action) (part : Instance) (index : Nat) : Action :=
  let wiresIn := Action.all (part.drives.map (assign net index))
  let wiresOut := Action.all (part.senses.map (assign net index))
  wiresIn.andThen (Action.andThen (inPart net index evaluateChild) wiresOut)

/-- A pass through the parts of a chip. -/
def pass (net : Netlist) (evaluateChild : Action) (c : Chip) : Action :=
  Action.all (c.partSlots.toList.map fun slot =>
    visitPart net evaluateChild slot.item slot.index)

/-- Settles a state, looking no deeper than the given number of levels. -/
def settleWithin (net : Netlist) (limits : Limits) : (depth : Nat) → Action
  | 0 => fun s => (.error (.endless s.chip), s)
  | depth + 1 => fun s =>
    let c := s.chipIn net
    match c.kind with
    | .gate g => computeGate net g s
    | .composite =>
      Action.untilSteady (.noConvergence s.chip limits.maxPasses)
        (pass net (settleWithin net limits depth) c) limits.maxPasses s

/-- Settles a state: on success, every wire has the same value at both ends and every gate has
computed its output. -/
def evaluate (net : Netlist) (limits : Limits) : Action :=
  settleWithin net limits net.depthBound

end State

end ChipLogic
