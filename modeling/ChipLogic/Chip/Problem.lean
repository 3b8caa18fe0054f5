import ChipLogic.Chip.Definition
import ChipLogic.Diagnostic.Basic
import ChipLogic.Files.Disk

/-!
# Problems of chips

What can be wrong with chips whose texts are sound: names that lead nowhere, pins that cannot be
declared, connections that do not fit. Errors have codes from E200 on; W200 and W201 warn of nets
that nothing drives and of inputs that nothing feeds, and N200 tells that a library file stands in
for a gate.
-/

namespace ChipLogic

/-- A cause of a diagnostic, with the names and sizes that its message speaks of. -/
inductive Problem where
  | chipNotFound (name : String)
  | fileMismatch (name file : String)
  /-- The name is taken by a chip that stands at `previous`. -/
  | duplicateChip (name : String) (previous : Span)
  | pinRefused (chip pin : String) (refusal : PinRefusal)
  | unknownPin (pin chip : String)
  | widthMismatch (inner : String) (innerWidth : Nat) (outer : String) (outerWidth : Nat)
  | circular (name : String)
  | internalPin (pin chip : String)
  | badRange (pin : String) (range : BitRange) (width : Nat)
  | drivesInput (inner outer : String)
  | unreadable (file : String) (reason : ReadError)
  | alreadyLinked (chip pin : String)
  | undriven (pin : String) (kind : PinKind) (chip : String)
  | unconnected (pin chip : String)
  | shadowsGate (name : String)
  deriving DecidableEq, Repr

namespace Problem

def severity : Problem → Severity
  | .undriven .. | .unconnected .. => .warning
  | .shadowsGate .. => .note
  | _ => .error

def code : Problem → Code
  | .chipNotFound .. => ⟨.error, 200⟩
  | .fileMismatch .. => ⟨.error, 201⟩
  | .duplicateChip .. => ⟨.error, 202⟩
  | .pinRefused _ _ (.duplicate _) => ⟨.error, 203⟩
  | .unknownPin .. => ⟨.error, 204⟩
  | .widthMismatch .. => ⟨.error, 205⟩
  | .pinRefused .. => ⟨.error, 206⟩
  | .circular .. => ⟨.error, 207⟩
  | .internalPin .. => ⟨.error, 208⟩
  | .badRange .. => ⟨.error, 209⟩
  | .drivesInput .. => ⟨.error, 210⟩
  | .unreadable .. => ⟨.error, 211⟩
  | .alreadyLinked .. => ⟨.error, 212⟩
  | .undriven .. => ⟨.warning, 200⟩
  | .unconnected .. => ⟨.warning, 201⟩
  | .shadowsGate .. => ⟨.note, 200⟩

def message : Problem → String
  | .chipNotFound name => s!"Chip `{name}` not found"
  | .fileMismatch name file => s!"file `{file}` does not declare chip `{name}`"
  | .duplicateChip name _ => s!"duplicate chip `{name}`"
  | .pinRefused chip pin (.duplicate _) => s!"duplicate pin `{pin}` on chip `{chip}`"
  | .pinRefused chip pin .zeroWidth => s!"pin `{pin}` on chip `{chip}` has zero width"
  | .pinRefused chip pin (.tooWide width) => s!"pin `{pin}` on chip `{chip}` is {width} bits wide"
  | .unknownPin pin chip => s!"chip `{chip}` has no pin `{pin}`"
  | .widthMismatch inner innerWidth outer outerWidth =>
    s!"width mismatch: `{inner}` is {innerWidth} bits but `{outer}` is {outerWidth} bits"
  | .circular name => s!"circular instantiation of chip `{name}`"
  | .internalPin pin chip => s!"`{pin}` is an internal net of chip `{chip}`, not a pin"
  | .badRange pin range width =>
    if range.isOrdered then s!"bit range `{pin}{range.text}` is outside the {width}-bit pin"
    else s!"bit range `{pin}{range.text}` is reversed"
  | .drivesInput inner outer => s!"output `{inner}` cannot drive input `{outer}`"
  | .unreadable file reason => s!"cannot read `{file}`: {reason.message}"
  | .alreadyLinked chip pin => s!"cannot add pin `{pin}` to chip `{chip}`: it is already linked"
  | .undriven pin kind chip => s!"{kind.text} `{pin}` of chip `{chip}` is never driven"
  | .unconnected pin chip => s!"input `{pin}` of `{chip}` is unconnected"
  | .shadowsGate name => s!"`{name}` from the library replaces the built-in gate"

/-- The place of an earlier thing of the same name, if it stands anywhere. -/
def earlier (span : Span) (message : String) : List Label :=
  if span.isPlaced then [⟨.secondary, span, message⟩] else []

def labels : Problem → List Label
  | .duplicateChip _ previous => earlier previous "previously defined here"
  | .pinRefused _ _ (.duplicate previous) => earlier previous "previously declared here"
  | _ => []

def notes : Problem → List String
  | .duplicateChip name previous =>
    if previous.isPlaced then [] else [s!"`{name}` is a built-in gate"]
  | .pinRefused _ _ (.duplicate _) => ["pin names are case-insensitive"]
  | .pinRefused _ _ (.tooWide _) => [s!"pins are at most {maxWidth} bits wide"]
  | .circular _ => ["the chip directly or indirectly instantiates itself"]
  | .alreadyLinked .. => ["a chip cannot change once linking has started"]
  | _ => []

def help : Problem → List String
  | .chipNotFound name => [s!"add `{name}.hdl` to the library folder"]
  | .drivesInput .. => ["connect the output to an OUT pin or a new internal net"]
  | _ => []

/-- A problem as a diagnostic. -/
def report (p : Problem) (span : Span) : Diagnostic :=
  { severity := p.severity, code := p.code, message := p.message, span,
    labels := p.labels, notes := p.notes, help := p.help }

end Problem

end ChipLogic
