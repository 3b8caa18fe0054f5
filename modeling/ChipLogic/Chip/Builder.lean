import ChipLogic.Chip.Problem
import ChipLogic.Hdl.Tree

/-!
# From syntax to definitions

Every chip of a document becomes a definition: its inputs, then its outputs, then its parts with
the connections as written. A pin that the definition does not take is left out and reported;
nothing else can go wrong here.
-/

namespace ChipLogic

namespace Hdl

def RefNode.reference (r : RefNode) : Reference :=
  ⟨r.name, r.range.map fun range => ⟨range.first, range.last⟩, r.span⟩

def BindingNode.connection (b : BindingNode) : Connection :=
  ⟨b.inner.reference, b.outer.reference, b.span⟩

def PartNode.part (p : PartNode) : Part :=
  { chip := p.chip, connections := p.bindings.map BindingNode.connection, span := p.span }

def PinNode.pin (p : PinNode) (kind : PinKind) : Pin :=
  ⟨p.name, p.bits, kind, p.span⟩

/-- The declared pins, inputs first. -/
def ChipNode.pins (c : ChipNode) : List Pin :=
  c.inputs.map (·.pin .input) ++ c.outputs.map (·.pin .output)

end Hdl

/-- Definitions and what was wrong with their pins. -/
structure Built where
  definitions : List Definition
  faults : List Diagnostic

namespace Definition

/-- Adds the pins that the definition takes and reports the others. -/
def declare (d : Definition) : List Pin → Definition × List Diagnostic
  | [] => (d, [])
  | p :: ps =>
    match d.addPin p with
    | .ok d => d.declare ps
    | .error refusal =>
      let (d', faults) := d.declare ps
      (d', (Problem.pinRefused d.name p.name refusal).report p.span :: faults)

/-- The definition of a chip. -/
def ofNode (c : Hdl.ChipNode) : Definition × List Diagnostic :=
  let parts := (c.parts.map Hdl.PartNode.part).toArray
  ({ name := c.name, span := c.nameSpan, partSlots := numbered parts } : Definition).declare c.pins

/-- The definitions of all chips of a document. -/
def ofDocument (d : Hdl.Document) : Built :=
  let built := d.chips.map ofNode
  ⟨built.map (·.1), built.flatMap (·.2)⟩

end Definition

end ChipLogic
