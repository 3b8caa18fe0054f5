import ChipLogic.Chip.Definition

/-!
# Netlists

A netlist is the finished form of a chip and of all chips inside it: every part points to its chip
by position, and its connections are wires. Nothing in a netlist is looked up in a session again.

A netlist can be written down by hand, so nothing is promised of the positions in it; who follows
one asks whether something is there. Pins and parts carry a number (`Numbered`), which by hand is
the position; what a number is in a netlist that was frozen is for freezing to keep.
-/

namespace ChipLogic

/-- How a chip gets its outputs. -/
inductive ChipKind where
  | gate (g : Gate)
  /-- By its parts. -/
  | composite
  deriving DecidableEq, Repr, Inhabited

def ChipKind.gate? : ChipKind → Option Gate
  | .gate g => some g
  | .composite => none

/-- A chip used inside another one. -/
structure Instance where
  chip : Nat
  /-- The chip's name as it was written for this part. -/
  name : String
  wires : List Wire
  span : Span
  deriving DecidableEq, Repr, Inhabited

namespace Instance

/-- The wires into the part. -/
def drives (i : Instance) : List Wire := i.wires.filter (·.direction == .drive)

/-- The wires out of the part. -/
def senses (i : Instance) : List Wire := i.wires.filter (·.direction == .sense)

end Instance

/-- A chip of a netlist. -/
structure Chip where
  name : String
  kind : ChipKind
  pinSlots : Array (Numbered Pin)
  partSlots : Array (Numbered Instance)
  deriving DecidableEq, Repr, Inhabited

namespace Chip

/-- The pins in order. -/
def pins (c : Chip) : Array Pin := Numbered.items c.pinSlots

/-- The parts in order. -/
def parts (c : Chip) : Array Instance := Numbered.items c.partSlots

/-- The position of the pin with a key; of several, the last. -/
def findPin? (c : Chip) (key : String) : Option Nat :=
  ChipLogic.findPin? c.pins key

/-- The pins of a kind with the numbers that they carry. -/
def pinsOf (c : Chip) (kind : PinKind) : List (Nat × Pin) :=
  (c.pinSlots.toList.filter (·.item.kind == kind)).map fun slot => (slot.index, slot.item)

def inputs (c : Chip) : List (Nat × Pin) := c.pinsOf .input

def outputs (c : Chip) : List (Nat × Pin) := c.pinsOf .output

/-- The number of bits of all inputs. -/
def inputBits (c : Chip) : Nat :=
  (c.inputs.map fun p => p.2.width).foldr (· + ·) 0

end Chip

/-- Chips by position, and which of them is the one the netlist is for. -/
structure Netlist where
  chips : Array Chip
  top : Nat
  deriving DecidableEq, Repr, Inhabited

namespace Netlist

def chip? (n : Netlist) (id : Nat) : Option Chip := n.chips[id]?

def size (n : Netlist) : Nat := n.chips.size

def topChip? (n : Netlist) : Option Chip := n.chip? n.top

end Netlist

end ChipLogic
