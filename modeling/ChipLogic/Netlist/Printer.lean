import ChipLogic.Chip.Printer
import ChipLogic.Netlist.Basic

/-!
# Writing chips of a netlist

The canonical text of a chip of a netlist. The connections are read back from the wires, so pins
have the spelling of their declaration and not the one of the connection.
-/

namespace ChipLogic

/-- The two ends of a wire as a connection of references. -/
def Wire.render? (w : Wire) (inner outer : Chip) : Option String := do
  let innerPin ← inner.pins[w.inner]?
  let outerPin ← outer.pins[w.outer]?
  return connectionText ⟨innerPin.name, w.innerRange, innerPin.span⟩
    ⟨outerPin.name, w.outerRange, outerPin.span⟩

namespace Netlist

/-- The line of a part. -/
def partLine? (n : Netlist) (outer : Chip) (part : Instance) : Option String := do
  let inner ← n.chip? part.chip
  let connections ← part.wires.mapM fun w => w.render? inner outer
  return partLine part.name connections

/-- The text of a chip; nothing if a position in it leads nowhere. -/
def render? (n : Netlist) (id : Nat) : Option String := do
  let chip ← n.chip? id
  let lines ← chip.parts.toList.mapM fun part => n.partLine? chip part
  return chipText chip.name chip.kind.gate?.isSome chip.pins.toList lines

end Netlist

end ChipLogic
