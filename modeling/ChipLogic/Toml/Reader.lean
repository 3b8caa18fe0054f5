import ChipLogic.Toml.Date
import ChipLogic.Toml.Node
import ChipLogic.Toml.Quoted

/-!
# Reading TOML documents

A document is a list of lines: headings, settings, and lines with nothing but a comment
(`readLines`). From them its tables are built (`parse?`). Arrays and inline tables nest at most
`maxNesting` deep, and a key has at most as many names.
-/

namespace ChipLogic.Toml

/-- How deep arrays and inline tables may nest. -/
def maxNesting : Nat := 79

/-! ## Keys -/

def isBare (c : Char) : Bool :=
  c.isAlphanum || c == '_' || c == '-'

def bareName : Reader String := do
  let first ← satisfy isBare
  let more ← run isBare
  return String.ofList (first :: more)

/-- A name with blanks around it. -/
def keyName : Reader String := do
  gap
  let name ← bareName <|> singleLine '"' <|> singleLine '\''
  gap
  return name

/-- Names with dots between them. -/
def key : Reader Key := do
  let first ← keyName
  let more ← many (char '.' *> keyName)
  require (more.length < maxNesting)
  let names := first :: more
  return ⟨names.dropLast, names.getLastD first⟩

/-! ## Values -/

def boolean : Reader Bool :=
  (word ['t', 'r', 'u', 'e'] *> pure true) <|> (word ['f', 'a', 'l', 's', 'e'] *> pure false)

/-- A value without parts. -/
def scalar : Reader Node :=
  (.text <$> quotedText) <|> (.boolean <$> boolean) <|> (.date <$> date) <|> (.float <$> float) <|>
  (.integer <$> integer)

/-- Values in brackets, over any number of lines, with or without a comma after the last. -/
def array (element : Reader Node) : Reader Node := do
  let _ ← char '['
  let items ← withCommas (gaps *> element <* gaps)
  let _ ← if items.isEmpty then pure none else perhaps (char ',')
  gaps
  let _ ← char ']'
  return .array items

/-- A key and its value. -/
def setting (value : Reader Node) : Reader Setting := do
  let k ← key
  let _ ← char '='
  gap
  return ⟨k, ← value⟩

/-- Settings in braces, on one line. -/
def inline (value : Reader Node) : Reader Node := do
  let _ ← char '{'
  let settings ← withCommas (setting value <* gap)
  gap
  let _ ← char '}'
  given (inlineTable settings)

/-- A value that nests at most so deep. -/
def value : (depth : Nat) → Reader Node
  | 0 => scalar
  | depth + 1 => scalar <|> array (value depth) <|> inline (value depth)

/-! ## Lines -/

/-- A line of a document. -/
inductive Line where
  | blank
  | heading (addsRow : Bool) (key : Key)
  | setting (s : Setting)

def heading : Reader Line :=
  (do
    word ['[', '[']
    let k ← key
    word [']', ']']
    lineEnd
    return .heading true k) <|>
  (do
    word ['[']
    let k ← key
    word [']']
    lineEnd
    return .heading false k)

/-- A line after the blanks at its start. -/
def line : Reader Line :=
  (newline *> pure .blank) <|>
  (comment *> (newline <|> atEnd) *> pure .blank) <|>
  heading <|>
  (.setting <$> (setting (value maxNesting) <* lineEnd))

/-- All lines of a text. -/
def readLines : Reader (List Line) := do
  gap
  let lines ← many (line <* gap)
  atEnd
  return lines

/-- The settings before the first heading, and the headings with the settings under them. -/
def partsOf : List Line → List Setting × List Block
  | [] => ([], [])
  | l :: ls =>
    let (settings, parts) := partsOf ls
    match l with
    | .blank => (settings, parts)
    | .setting s => (s :: settings, parts)
    | .heading addsRow key => ([], ⟨addsRow, key, settings⟩ :: parts)

/-- The entries of a document, if the text is one. A byte order mark at the start is skipped. -/
def parse? (text : String) : Option Entries := do
  let chars := match text.toList with
    | '\ufeff' :: rest => rest
    | chars => chars
  let (lines, _) ← readLines chars
  let (settings, parts) := partsOf lines
  build settings parts

end ChipLogic.Toml
