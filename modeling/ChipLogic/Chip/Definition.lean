import ChipLogic.Chip.Gate
import ChipLogic.Chip.PinTable

/-!
# Chip definitions

A definition says what a chip is made of: its pins and its parts, each part with the connections
**as they were written**. Linking adds to a part the chip that its name stands for and the wires
that its connections became (`Part.link`), and to a chip the internal nets that its parts use.

Pins and parts are addressed by position, and each carries its position along (`Numbered`). Pins are
only added (`Definition.addPin`), and only under new keys and with widths from 1 to `maxWidth`; they
are found by key in a table of their own (`PinTable`).
-/

namespace ChipLogic

/-- A pin named in a connection, with or without a range of bits. -/
structure Reference where
  name : String
  range : Option BitRange
  span : Span
  deriving DecidableEq, Repr, Inhabited

namespace Reference

def key (r : Reference) : String := foldCase r.name

/-- The number of bits meant when the reference is to a pin of the given width. -/
def widthOn (r : Reference) (pinWidth : Nat) : Nat :=
  match r.range with
  | some range => range.width
  | none => pinWidth

/-- The reference as it is written. -/
def text (r : Reference) : String :=
  match r.range with
  | some range => r.name ++ range.text
  | none => r.name

end Reference

/-- A pin of a part connected to a pin of the chip around it. -/
structure Connection where
  /-- The pin of the part. -/
  inner : Reference
  /-- The pin or net of the chip around the part. -/
  outer : Reference
  span : Span
  deriving DecidableEq, Repr, Inhabited

/-- Which way a wire carries its value. -/
inductive Direction where
  /-- From the chip around the part into the part. -/
  | drive
  /-- From the part into the chip around it. -/
  | sense
  deriving DecidableEq, Repr, Inhabited

/-- A connection in terms of pin positions. No range means the whole pin. -/
structure Wire where
  direction : Direction
  inner : Nat
  innerRange : Option BitRange
  outer : Nat
  outerRange : Option BitRange
  deriving DecidableEq, Repr, Inhabited

/-- What linking finds out about a part. -/
structure Link where
  chip : Nat
  wires : List Wire
  deriving DecidableEq, Repr, Inhabited

/-- A chip used inside another chip. -/
structure Part where
  chip : String
  connections : List Connection
  span : Span
  link : Option Link := none
  deriving DecidableEq, Repr, Inhabited

namespace Part

def key (p : Part) : String := foldCase p.chip

/-- The wires, none before linking. -/
def wires (p : Part) : List Wire :=
  match p.link with
  | some link => link.wires
  | none => []

/-- The chip that the part's name stands for, once it is known. -/
def resolved (p : Part) : Option Nat := p.link.map (·.chip)

end Part

/-- Why a pin cannot be added. -/
inductive PinRefusal where
  /-- The name is taken by a pin that stands at `previous`. -/
  | duplicate (previous : Span)
  | zeroWidth
  | tooWide (width : Nat)
  deriving DecidableEq, Repr

/-- A chip definition. -/
structure Definition where
  name : String
  span : Span
  pinTable : PinTable := .empty
  partSlots : Array (Numbered Part) := #[]
  gate : Option Gate := none
  deriving DecidableEq, Repr, Inhabited

namespace Definition

def key (d : Definition) : String := foldCase d.name

/-- The pins in order. -/
def pins (d : Definition) : Array Pin := d.pinTable.pins

/-- The parts in order. -/
def parts (d : Definition) : Array Part := Numbered.items d.partSlots

/-- The position that the table of keys has for a key. -/
def findPin? (d : Definition) (key : String) : Option Nat :=
  d.pinTable.byKey.find? key

/-- The pin with a key and the position that it carries. -/
def pinNamed? (d : Definition) (key : String) : Option (Nat × Pin) :=
  (d.findPin? key).bind fun i => (d.pinTable.slots[i]?).map fun slot => (slot.index, slot.item)

def pinsOf (d : Definition) (kind : PinKind) : List Pin :=
  d.pins.toList.filter (·.kind == kind)

/-- Why the definition does not take a pin, if it does not. -/
def refusal? (d : Definition) (p : Pin) : Option PinRefusal :=
  match d.pinNamed? p.key with
  | some (_, previous) => some (.duplicate previous.span)
  | none =>
    if p.width = 0 then some .zeroWidth
    else if maxWidth < p.width then some (.tooWide p.width)
    else none

/-- The definition with one more pin, whatever is there already. -/
def push (d : Definition) (p : Pin) : Definition :=
  { d with pinTable := d.pinTable.push p }

/-- Adds a pin after the others. Its position is the count of pins before it. -/
def addPin (d : Definition) (p : Pin) : Except PinRefusal Definition :=
  match d.refusal? p with
  | some r => .error r
  | none => .ok (d.push p)

/-- Records what was found out about the part at a position. -/
def setLink (d : Definition) (index : Nat) (link : Link) : Definition :=
  { d with
    partSlots := d.partSlots.modify index (Numbered.map fun p => { p with link := some link }) }

/-! ### Definitions written down -/

@[simp]
theorem pins_mk (name : String) (span : Span) (pins : Array Pin) (slots : Array (Numbered Part))
    (gate : Option Gate) : (mk name span (.ofPins pins) slots gate).pins = pins :=
  PinTable.pins_ofPins pins

@[simp]
theorem parts_mk (name : String) (span : Span) (table : PinTable) (parts : Array Part)
    (gate : Option Gate) : (mk name span table (numbered parts) gate).parts = parts :=
  items_numbered parts

/-! ### What changes leave alone -/

section

variable (d : Definition) (p : Pin) (index : Nat) (link : Link)

@[simp]
theorem pins_push : (d.push p).pins = d.pins.push p := PinTable.pins_push d.pinTable p

@[simp]
theorem key_push : (d.push p).key = d.key := rfl

@[simp]
theorem parts_setLink : (d.setLink index link).parts =
    d.parts.modify index fun p => { p with link := some link } :=
  Numbered.items_modify _ d.partSlots index

@[simp]
theorem key_setLink : (d.setLink index link).key = d.key := rfl

end

end Definition

/-- The pins of a gate: its inputs and its output, one bit each. -/
def Gate.pins (g : Gate) : List Pin :=
  let pin (kind : PinKind) (name : String) : Pin := ⟨name, 1, kind, .nowhere⟩
  g.inputNames.map (pin .input) ++ [pin .output "out"]

/-- The definition of a gate. -/
def Gate.definition (g : Gate) : Definition :=
  { name := g.name, span := .nowhere, pinTable := .ofPins g.pins.toArray, gate := some g }

@[simp]
theorem Gate.pins_definition (g : Gate) : g.definition.pins = g.pins.toArray :=
  PinTable.pins_ofPins _

@[simp]
theorem Gate.parts_definition (g : Gate) : g.definition.parts = #[] := rfl

end ChipLogic
