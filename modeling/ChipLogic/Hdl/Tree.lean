import ChipLogic.Source.Span

/-!
# Syntax trees

What a chip description says, with the span of every node: chips with their input and output pins
and their parts, and for each part the bindings of the part's pins to pins and nets of the chip.
A stretch that could not be read is kept as a skipped item.
-/

namespace ChipLogic.Hdl

/-- A declared pin; no width means one bit. -/
structure PinNode where
  name : String
  width : Option Nat
  span : Span
  deriving DecidableEq, Repr

/-- The declared width. -/
def PinNode.bits (p : PinNode) : Nat :=
  p.width.getD 1

/-- A range of bits in brackets; one number stands for a range of one bit. -/
structure RangeNode where
  first : Nat
  last : Nat
  span : Span
  deriving DecidableEq, Repr

/-- A name with or without a range of bits. -/
structure RefNode where
  name : String
  range : Option RangeNode
  span : Span
  deriving DecidableEq, Repr

/-- A binding: the left side is a pin of the part, the right side a pin or net of the chip around
it. -/
structure BindingNode where
  inner : RefNode
  outer : RefNode
  span : Span
  deriving DecidableEq, Repr

/-- A part: the name of a chip and the bindings of its pins. -/
structure PartNode where
  chip : String
  bindings : List BindingNode
  span : Span
  deriving DecidableEq, Repr

/-- A chip. -/
structure ChipNode where
  name : String
  nameSpan : Span
  inputs : List PinNode
  outputs : List PinNode
  parts : List PartNode
  span : Span
  deriving DecidableEq, Repr

/-- A chip, or a stretch passed over after a fault. -/
inductive Item where
  | chip (node : ChipNode)
  | skipped (span : Span)
  deriving DecidableEq, Repr

def Item.chip? : Item → Option ChipNode
  | .chip node => some node
  | .skipped _ => none

def Item.span : Item → Span
  | .chip node => node.span
  | .skipped span => span

/-- The items of a text. -/
structure Document where
  items : List Item
  span : Span
  deriving DecidableEq, Repr

/-- The chips that could be read. -/
def Document.chips (d : Document) : List ChipNode :=
  d.items.filterMap Item.chip?

end ChipLogic.Hdl
