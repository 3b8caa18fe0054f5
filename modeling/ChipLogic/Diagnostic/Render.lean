import ChipLogic.Diagnostic.Basic
import ChipLogic.Source.File

/-!
# Showing diagnostics

A diagnostic is shown as a headline, the place with its source line and a marker under it, the
secondary labels with theirs, and the notes and help lines:

```text
error[E204]: chip `And` has no pin `c`
  --> Mux.hdl:6:9
  |
6 |     And(c=sel, b=a, out=x);
  |         ^
```

The message of the first primary label stands beside the main marker. Places outside the session's
files are left out.
-/

namespace ChipLogic

/-- The same character a number of times. -/
def repeated (count : Nat) (c : Char) : String :=
  String.ofList (List.replicate count c)

/-- The terminal colour of a severity. -/
def Severity.colour : Severity → String
  | .error => "31"
  | .warning => "33"
  | .note => "36"

namespace Diagnostic

/-- Severity and code, in bold colour if wanted. -/
def tag (d : Diagnostic) (colour : Bool) : String :=
  let plain := s!"{d.severity.text}[{d.code.text}]"
  if colour then s!"\x1b[1;{d.severity.colour}m{plain}\x1b[0m" else plain

/-- The source line of a span with a marker under the span and a remark beside the marker. -/
def excerpt (file : SourceFile) (span : Span) (marker : Char) (remark : String) : String :=
  let (line, column) := file.lineCol span.start
  let number := toString line
  let margin := repeated number.length ' '
  let indent := repeated (column - 1) ' '
  let underline := repeated (max span.length 1) marker
  let remark := if remark.isEmpty then "" else " " ++ remark
  s!"{margin} |\n" ++
  s!"{number} | {file.lineText span.start}\n" ++
  s!"{margin} | {indent}{underline}{remark}\n"

/-- A place: an arrow, where it is, and the excerpt. -/
def place (book : SourceBook) (arrow : String) (span : Span) (marker : Char) (remark : String) :
    String :=
  match book.fileOf? span, book.locate? span with
  | some file, some location =>
    s!"  {arrow} {location.text}\n" ++ excerpt file span marker remark
  | _, _ => ""

/-- The remark at the main place. -/
def primaryRemark (d : Diagnostic) : String :=
  ((d.labels.find? (·.style == .primary)).map (·.message)).getD ""

/-- The text of a diagnostic. -/
def render (d : Diagnostic) (book : SourceBook) (colour : Bool) : String :=
  let headline := s!"{d.tag colour}: {d.message}\n"
  let main := place book "-->" d.span '^' d.primaryRemark
  let others := (d.labels.filter (·.style == .secondary)).map fun l =>
    place book ":::" l.span '-' l.message
  let notes := d.notes.map fun note => s!"   = note: {note}\n"
  let help := d.help.map fun line => s!"   = help: {line}\n"
  headline ++ main ++ String.join others ++ String.join notes ++ String.join help

end Diagnostic

end ChipLogic
