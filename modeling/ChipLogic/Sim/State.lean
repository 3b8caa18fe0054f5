import ChipLogic.Sim.Error
import ChipLogic.Sim.Window

/-!
# States of a simulation

A **state** is a tree that follows the parts of a chip: a cell for every pin, and for every part the
state of its chip, or nothing as long as nobody asked for it. An absent state stands for one in
which everything is zero (`State.fresh?`), and asking makes it (`State.inPart`).

A state knows its chip only by position, so every operation that looks at pins or parts takes the
netlist along. A netlist written by hand can lead nowhere; then the operation fails and names the
position, but children made on the way stay.
-/

namespace ChipLogic

/-- Values of a chip and of the chips inside it. -/
structure State where
  chip : Nat
  cells : Array UInt64
  children : Array (Option State)
  deriving Inhabited

/-- The result of an operation that can fail, with the state afterwards in either case. -/
abbrev Outcome (α : Type) := Except SimError α × State

namespace State

/-- The state of a chip in which all is zero. -/
def fresh? (net : Netlist) (chip : Nat) : Except SimError State :=
  match net.chip? chip with
  | some c => .ok ⟨chip, Array.replicate c.pins.size 0, Array.replicate c.parts.size none⟩
  | none => .error (.chipNotFound chip)

/-- The chip of the state. -/
def chipIn (s : State) (net : Netlist) : Chip :=
  (net.chip? s.chip).getD default

/-- The pin at a position. -/
def pin? (s : State) (net : Netlist) (pin : Nat) : Except SimError Pin :=
  match (s.chipIn net).pins[pin]? with
  | some p => .ok p
  | none => .error (.invalidPin s.chip pin)

/-! ## Pins by position -/

/-- The value of a pin; a pin that is not there reads as zero. -/
def get (s : State) (pin : Nat) : UInt64 :=
  s.cells[pin]?.getD 0

/-- Puts a value into a cell and tells whether that changed it. -/
def write (s : State) (pin : Nat) (value : UInt64) : Bool × State :=
  match s.cells[pin]? with
  | none => (false, s)
  | some old =>
    if old = value then (false, s)
    else (true, { s with cells := s.cells.setIfInBounds pin value })

/-- Sets a pin to the bits of a value that it has room for. A pin that is not there stays so. -/
def set (s : State) (net : Netlist) (pin : Nat) (value : UInt64) : Bool × State :=
  match s.pin? net pin with
  | .ok p => s.write pin (value &&& lowMask p.width)
  | .error _ => (false, s)

/-- The value of some bits of a pin. -/
def getRange (s : State) (pin : Nat) (range : BitRange) : UInt64 :=
  range.extract (s.get pin)

/-- Sets some bits of a pin. -/
def setRange (s : State) (net : Netlist) (pin : Nat) (value : UInt64) (range : BitRange) :
    Bool × State :=
  match s.pin? net pin with
  | .ok p => s.write pin (range.insert (s.get pin) value &&& lowMask p.width)
  | .error _ => (false, s)

/-- The value of a pin that must be there. -/
def tryGet (s : State) (net : Netlist) (pin : Nat) : Except SimError UInt64 :=
  (s.pin? net pin).map fun _ => s.get pin

/-- Sets a pin that must be there. -/
def trySet (s : State) (net : Netlist) (pin : Nat) (value : UInt64) : Outcome Bool :=
  match s.pin? net pin with
  | .ok _ =>
    let (changed, s) := s.set net pin value
    (.ok changed, s)
  | .error e => (.error e, s)

/-! ## Pins by name -/

/-- The position of the pin with a name, in any spelling. -/
def pinNamed (s : State) (net : Netlist) (name : String) : Except SimError Nat :=
  match (s.chipIn net).findPin? (foldCase name) with
  | some pin => .ok pin
  | none => .error (.unknownPin name)

/-- The value of a pin given by name. -/
def getNamed (s : State) (net : Netlist) (name : String) : Except SimError UInt64 :=
  (s.pinNamed net name).map s.get

/-- Sets a pin given by name to a value that it has room for. -/
def setNamed (s : State) (net : Netlist) (name : String) (value : UInt64) : Outcome Bool :=
  match s.pinNamed net name with
  | .error e => (.error e, s)
  | .ok pin =>
    let width := (((s.chipIn net).pins[pin]?).map (·.width)).getD 0
    if value &&& ~~~(lowMask width) ≠ 0 then (.error (.valueTooWide name value width), s)
    else
      let (changed, s) := s.set net pin value
      (.ok changed, s)

/-! ## Parts -/

/-- The state of a part that was asked for before. -/
def child? (s : State) (part : Nat) : Option State :=
  s.children[part]?.join

/-- The state of a part, all zero if nobody asked for it before. -/
def childOrFresh (s : State) (net : Netlist) (part : Nat) : Except SimError State :=
  match (s.chipIn net).parts[part]?, s.children[part]? with
  | some p, some child =>
    match child with
    | some c => .ok c
    | none => fresh? net p.chip
  | _, _ => .error (.invalidPart s.chip part)

/-- Puts the state of a part into its place. -/
def putChild (s : State) (part : Nat) (child : State) : State :=
  { s with children := s.children.setIfInBounds part (some child) }

/-- Operates on the state of a part, which is made now if it is absent. -/
def inPart {α : Type} (net : Netlist) (part : Nat) (f : State → Outcome α) (s : State) :
    Outcome α :=
  match s.childOrFresh net part with
  | .error e => (.error e, s)
  | .ok child =>
    let (result, child) := f child
    (result, s.putChild part child)

/-- Operates on the state at the end of a path of parts. -/
def within {α : Type} (net : Netlist) : List Nat → (State → Outcome α) → State → Outcome α
  | [], f => f
  | part :: path, f => inPart net part (within net path f)

/-! ## Wires -/

/-- The range of a pin that a wire end means: all of the pin if it names none. -/
def window (s : State) (net : Netlist) (pin : Nat) (range : Option BitRange) :
    Except SimError BitRange :=
  (s.pin? net pin).map fun p => range.getD p.fullRange

/-- Takes a value into a window of a pin and tells whether that changed it. -/
def accept (s : State) (pin : Nat) (window : BitRange) (value : UInt64) : Bool × State :=
  s.write pin (window.insert (s.get pin) value)

/-- Copies the value of a wire from its source to its target and tells whether they differed. -/
def assign (net : Netlist) (part : Nat) (wire : Wire) (s : State) : Outcome Bool :=
  match s.window net wire.outer wire.outerRange with
  | .error e => (.error e, s)
  | .ok outerWindow =>
    let outerValue := s.getRange wire.outer outerWindow
    match s.childOrFresh net part with
    | .error e => (.error e, s)
    | .ok child =>
      match child.window net wire.inner wire.innerRange with
      | .error e => (.error e, s.putChild part child)
      | .ok innerWindow =>
        let innerValue := child.getRange wire.inner innerWindow
        if outerValue = innerValue then (.ok false, s.putChild part child)
        else match wire.direction with
          | .drive =>
            let (changed, child) := child.accept wire.inner innerWindow outerValue
            (.ok changed, s.putChild part child)
          | .sense =>
            let (changed, s) := s.accept wire.outer outerWindow innerValue
            (.ok changed, s.putChild part child)

/-! ## Starting over -/

/-- Makes all cells zero and forgets the states of the parts. -/
def reset (s : State) : State :=
  { s with cells := s.cells.map fun _ => 0, children := s.children.map fun _ => none }

/-- The values of the outputs. -/
def outputs (s : State) (net : Netlist) : List (Pin × UInt64) :=
  (s.chipIn net).outputs.map fun (i, p) => (p, s.get i)

end State

end ChipLogic
