import ChipLogic.Source.Span
import ChipLogic.Text.Offset

/-!
# Source files

A source file is a path and a text. **Lines and columns** count from one, columns in bytes. A line
is found in two ways: by the starts of the lines (`SourceFile.lineCol`) and by looking left and
right of an offset for the newlines around it (`SourceFile.lineText`). As for spans, a text is taken
to be shorter than `2 ^ 32` bytes; then the starts of its lines are 32 bits wide.
-/

namespace ChipLogic

/-- A text with the path it is shown under. -/
structure SourceFile where
  path : String
  text : String
  deriving DecidableEq, Repr

/-- The offsets just after each newline of a text that starts at `offset`. -/
def lineStartsAfter (offset : Nat) : List Char → List Nat
  | [] => []
  | c :: cs =>
    let next := offset + c.utf8Size
    if c = '\n' then next :: lineStartsAfter next cs else lineStartsAfter next cs

/-- The last of the starts that does not lie after an offset. -/
def lineStartBefore (offset : Nat) (starts : List Nat) : Nat :=
  ((starts.takeWhile (· ≤ offset)).getLast?).getD 0

namespace SourceFile

/-- The offsets at which the lines start. -/
def lineStarts (f : SourceFile) : List Nat :=
  0 :: lineStartsAfter 0 f.text.toList

/-- The line and the column of an offset. -/
def lineCol (f : SourceFile) (offset : Nat) : Nat × Nat :=
  ((f.lineStarts.takeWhile (· ≤ offset)).length,
    offset - lineStartBefore offset f.lineStarts + 1)

/-- The text of the line around an offset, without its newline. -/
def lineText (f : SourceFile) (offset : Nat) : String :=
  let (before, after) := cutAt offset f.text.toList
  String.ofList ((before.reverse.takeWhile (· ≠ '\n')).reverse ++ after.takeWhile (· ≠ '\n'))

/-- The text between two offsets. -/
def snippet (f : SourceFile) (start stop : Nat) : String :=
  String.ofList (slice start stop f.text.toList)

/-- The number of bytes of the text. -/
def size (f : SourceFile) : Nat :=
  f.text.utf8ByteSize

end SourceFile

/-- A span as it is shown: the line and the column of its first and of its last byte. -/
structure Location where
  path : String
  startLine : Nat
  startCol : Nat
  stopLine : Nat
  stopCol : Nat
  deriving DecidableEq, Repr

/-- `path:line:column` of the start. -/
def Location.text (l : Location) : String :=
  s!"{l.path}:{l.startLine}:{l.startCol}"

/-- The files of a session, numbered in the order of loading. -/
structure SourceBook where
  files : Array SourceFile := #[]

namespace SourceBook

/-- Adds a file; its number is the count of files before it. -/
def add (b : SourceBook) (path text : String) : SourceBook :=
  ⟨b.files.push ⟨path, text⟩⟩

def size (b : SourceBook) : Nat := b.files.size

/-- The file of a span. -/
def fileOf? (b : SourceBook) (s : Span) : Option SourceFile :=
  s.file.bind fun n => b.files[n]?

/-- The location of a span in the file that it names. -/
def locate? (b : SourceBook) (s : Span) : Option Location :=
  (b.fileOf? s).map fun f =>
    let (startLine, startCol) := f.lineCol s.start
    let (stopLine, stopCol) := f.lineCol (max (s.stop - 1) s.start)
    ⟨f.path, startLine, startCol, stopLine, stopCol⟩

/-- The text that a span covers. -/
def snippet? (b : SourceBook) (s : Span) : Option String :=
  (b.fileOf? s).map fun f => f.snippet s.start s.stop

end SourceBook

end ChipLogic
