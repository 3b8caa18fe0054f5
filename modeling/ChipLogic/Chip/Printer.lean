import ChipLogic.Chip.Definition

/-!
# Writing chips

The canonical text of a chip: its inputs and outputs on a line each, if it has any, and a line for
every part with the connections in order. Internal nets are not declared. A gate is marked as
built-in.
-/

namespace ChipLogic

/-- A section of pins of one kind; nothing if there are none. -/
def pinSection (keyword : String) : List Pin → String
  | [] => ""
  | pins =>
    let declarations := ", ".intercalate (pins.map Pin.declaration)
    s!"    {keyword} {declarations};\n"

/-- A connection of two references as written. -/
def connectionText (inner outer : Reference) : String :=
  inner.text ++ "=" ++ outer.text

/-- A line for a part. -/
def partLine (chip : String) (connections : List String) : String :=
  let list := ", ".intercalate connections
  s!"    {chip}({list});\n"

/-- The text of a chip with the given pins and lines of parts. -/
def chipText (name : String) (isGate : Bool) (pins : List Pin) (partLines : List String) : String :=
  (if isGate then "// built-in\n" else "") ++
  s!"CHIP {name} \x7b\n" ++
  pinSection "IN" (pins.filter (·.kind == .input)) ++
  pinSection "OUT" (pins.filter (·.kind == .output)) ++
  "    PARTS:\n" ++
  String.join partLines ++
  "\x7d\n"

/-- The text of a definition, its connections as they were written. -/
def Definition.render (d : Definition) : String :=
  chipText d.name d.gate.isSome d.pins.toList
    (d.parts.toList.map fun p =>
      partLine p.chip (p.connections.map fun c => connectionText c.inner c.outer))

end ChipLogic
