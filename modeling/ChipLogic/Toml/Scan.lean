/-!
# Reading TOML text

A **reader** takes characters from the front of a text and gives a value and the text after it, or
fails. Readers are put together as in a grammar: one after the other, one or else another
(`<|>`), and one again and again (`many`). This module has the readers that know nothing of
values: characters, blanks, comments and line ends.

The text may hold any character but the control characters; a tab counts as a blank, and a newline
may have a carriage return before it.
-/

namespace ChipLogic.Toml

/-- A function from a text to a value and the text after it. -/
abbrev Reader (α : Type) := StateT (List Char) Option α

/-- A character with a property. -/
def satisfy (p : Char → Bool) : Reader Char
  | [] => none
  | c :: text => if p c then some (c, text) else none

def char (c : Char) : Reader Char := satisfy (· == c)

/-- A fixed word. -/
def word : List Char → Reader Unit
  | [] => pure ()
  | c :: cs => do
    let _ ← char c
    word cs

/-- The longest run of characters with a property. -/
def run (p : Char → Bool) : Reader (List Char) := fun text =>
  some (text.takeWhile p, text.dropWhile p)

/-- A value or nothing. -/
def perhaps {α : Type} (r : Reader α) : Reader (Option α) := fun text =>
  match r text with
  | some (a, rest) => some (some a, rest)
  | none => some (none, text)

/-- Values as long as there are any. A reader that takes no character is not tried again. -/
def many {α : Type} (r : Reader α) (text : List Char) : Option (List α × List Char) :=
  match r text with
  | none => some ([], text)
  | some (a, rest) =>
    if rest.length < text.length then (many r rest).map fun (as, rest) => (a :: as, rest)
    else some ([a], rest)
termination_by text.length

/-- A fixed number of values. -/
def times {α : Type} (r : Reader α) : Nat → Reader (List α)
  | 0 => pure []
  | n + 1 => do
    let a ← r
    let as ← times r n
    return a :: as

/-- The end of the text. -/
def atEnd : Reader Unit
  | [] => some ((), [])
  | _ :: _ => none

/-- Fails unless a condition holds. -/
def require (condition : Bool) : Reader Unit :=
  if condition then pure () else failure

/-- The value of an option. -/
def given {α : Type} : Option α → Reader α
  | some a => pure a
  | none => failure

/-- The characters that a reader takes. -/
def spelling {α : Type} (r : Reader α) : Reader String := fun text =>
  (r text).map fun (_, rest) => (String.ofList (text.take (text.length - rest.length)), rest)

/-! ## Blanks and lines -/

/-- Tabs and characters that are no control characters. -/
def isPlain (c : Char) : Bool :=
  c == '\t' || (32 ≤ c.toNat && c.toNat != 127)

def isGap (c : Char) : Bool := c == ' ' || c == '\t'

/-- Blanks in a line, if any. -/
def gap : Reader Unit := do
  let _ ← run isGap

def newline : Reader Unit :=
  word ['\n'] <|> word ['\r', '\n']

def comment : Reader Unit := do
  let _ ← char '#'
  let _ ← run isPlain

/-- What may stand between a value and the next line. -/
def lineEnd : Reader Unit := do
  gap
  let _ ← perhaps comment
  newline <|> atEnd

/-- Blanks, comments and newlines, if any. -/
def gaps : Reader Unit := do
  gap
  let _ ← many do
    let _ ← perhaps comment
    newline
    gap

/-- Values with commas between them; whether a comma may follow the last is the caller's matter. -/
def withCommas {α : Type} (r : Reader α) : Reader (List α) := do
  match ← perhaps r with
  | none => return []
  | some a =>
    let as ← many do
      let _ ← char ','
      r
    return a :: as

end ChipLogic.Toml
