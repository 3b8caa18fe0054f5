import ChipLogic.Text.Numeral
import ChipLogic.Toml.Scan

/-!
# Quoted TOML text

Text in double quotes has escapes; text in single quotes stands for itself. Either kind can run
over several lines inside triple quotes: a newline right after the opening is dropped, newlines are
kept without carriage returns, and a backslash at the end of a line takes the blanks and newlines
after it away. One or two quotes may stand inside triple quotes, also at the very end.
-/

namespace ChipLogic.Toml

/-- The character with a number written in a fixed count of hexadecimal digits. -/
def numbered (count : Nat) : Reader Char := do
  let digits ← times (satisfy fun c => (Numeral.digit? c).isSome) count
  let n ← given (Numeral.read? 16 digits)
  require (decide n.isValidChar)
  return Char.ofNat n

/-- What a backslash and the characters after it stand for. -/
def escape : Reader Char := do
  let _ ← char '\\'
  match ← satisfy fun _ => true with
  | 'b' => return '\x08'
  | 't' => return '\t'
  | 'n' => return '\n'
  | 'f' => return '\x0c'
  | 'r' => return '\r'
  | '"' => return '"'
  | '\\' => return '\\'
  | 'u' => numbered 4
  | 'U' => numbered 8
  | _ => failure

/-- A character that stands for itself between the given quotes. -/
def unescaped (quote : Char) : Reader Char :=
  satisfy fun c => isPlain c && c != quote && (c != '\\' || quote == '\'')

/-- A character between quotes of the given kind. -/
def inside (quote : Char) : Reader Char :=
  if quote = '"' then unescaped quote <|> escape else unescaped quote

/-- A text in quotes of the given kind, on one line. -/
def singleLine (quote : Char) : Reader String := do
  let _ ← char quote
  let text ← many (inside quote)
  let _ ← char quote
  return String.ofList text

/-- A backslash at the end of a line with all that it takes away. -/
def continuation : Reader Unit := do
  let _ ← char '\\'
  gap
  newline
  let _ ← many (newline <|> word [' '] <|> word ['\t'])

/-- Fails if a character or the end comes next. -/
def notNext (c : Char) : Reader Unit := fun text =>
  match text with
  | [] => none
  | d :: _ => if d = c then none else some ((), text)

/-- One or two quotes before another character. -/
def innerQuotes (quote : Char) : Reader (List Char) := do
  let quotes ← times (char quote) 2 <|> times (char quote) 1
  notNext quote
  return quotes

/-- Three quotes, before which one or two belong to the text. -/
def closingQuotes (quote : Char) : Reader (List Char) := do
  let quotes ← times (char quote) 5 <|> times (char quote) 4 <|> times (char quote) 3
  return quotes.drop 3

/-- A piece of text between triple quotes. -/
def manyLinePiece (quote : Char) : Reader (List Char) :=
  (newline *> pure ['\n']) <|>
  innerQuotes quote <|>
  (if quote = '"' then continuation *> pure [] else failure) <|>
  (do return [← inside quote])

/-- A text in triple quotes of the given kind. -/
def manyLines (quote : Char) : Reader String := do
  let _ ← times (char quote) 3
  let _ ← perhaps newline
  let pieces ← many (manyLinePiece quote)
  let last ← closingQuotes quote
  return String.ofList (pieces.flatten ++ last)

/-- A text in quotes of any kind. -/
def quotedText : Reader String :=
  manyLines '"' <|> singleLine '"' <|> manyLines '\'' <|> singleLine '\''

end ChipLogic.Toml
