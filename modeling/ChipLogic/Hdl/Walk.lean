import ChipLogic.Hdl.Tree

/-!
# Walking a document

The chips of a document as a flat list of events in the order of reading: the start of a chip, its
input pins, its output pins, each part followed by its bindings, and the end of the chip.
-/

namespace ChipLogic.Hdl

/-- A step of the walk. -/
inductive Event where
  | chip (node : ChipNode)
  | input (pin : PinNode)
  | output (pin : PinNode)
  | part (node : PartNode)
  | binding (part : PartNode) (node : BindingNode)
  | endChip (node : ChipNode)

/-- The steps through a part. -/
def PartNode.events (p : PartNode) : List Event :=
  .part p :: p.bindings.map (.binding p)

/-- The steps through a chip. -/
def ChipNode.events (c : ChipNode) : List Event :=
  .chip c :: (c.inputs.map .input ++ c.outputs.map .output ++ c.parts.flatMap PartNode.events
    ++ [.endChip c])

/-- The steps through all chips of a document. -/
def Document.events (d : Document) : List Event :=
  d.chips.flatMap ChipNode.events

/-- An event in a line: what it is about, by name. -/
def Event.text : Event → String
  | .chip c => s!"chip {c.name}"
  | .input p => s!"pin in {p.name} {p.bits}"
  | .output p => s!"pin out {p.name} {p.bits}"
  | .part p => s!"part {p.chip}"
  | .binding p b => s!"bind {p.chip} {b.inner.name}={b.outer.name}"
  | .endChip c => s!"end {c.name}"

end ChipLogic.Hdl
