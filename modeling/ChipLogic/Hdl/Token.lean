import ChipLogic.Source.Span

/-!
# Tokens

The words and marks of a chip description. Keywords are the exact words `CHIP`, `IN`, `OUT` and
`PARTS`; any other word is an identifier. A token keeps its text and its span.
-/

namespace ChipLogic.Hdl

/-- What a token is. -/
inductive Kind where
  | chip
  | input
  | output
  | parts
  | identifier
  | number
  | leftBrace
  | rightBrace
  | leftParen
  | rightParen
  | leftBracket
  | rightBracket
  | comma
  | semicolon
  | colon
  | equals
  | dotDot
  /-- A character that starts no token. -/
  | invalid
  /-- The end of the text. -/
  | endOfFile
  deriving DecidableEq, Repr, Inhabited

namespace Kind

/-- The reserved words. -/
def isKeyword : Kind → Bool
  | .chip | .input | .output | .parts => true
  | _ => false

/-- How messages speak of a token. -/
def describe : Kind → String
  | .chip => "`CHIP`"
  | .input => "`IN`"
  | .output => "`OUT`"
  | .parts => "`PARTS`"
  | .identifier => "identifier"
  | .number => "number"
  | .leftBrace => "`\x7b`"
  | .rightBrace => "`\x7d`"
  | .leftParen => "`(`"
  | .rightParen => "`)`"
  | .leftBracket => "`[`"
  | .rightBracket => "`]`"
  | .comma => "`,`"
  | .semicolon => "`;`"
  | .colon => "`:`"
  | .equals => "`=`"
  | .dotDot => "`..`"
  | .invalid => "invalid character"
  | .endOfFile => "end of file"

/-- The kind of a word. -/
def ofWord (word : List Char) : Kind :=
  if word = ['C', 'H', 'I', 'P'] then .chip
  else if word = ['I', 'N'] then .input
  else if word = ['O', 'U', 'T'] then .output
  else if word = ['P', 'A', 'R', 'T', 'S'] then .parts
  else .identifier

/-- The kind of a mark that is one character. -/
def ofMark? : Char → Option Kind
  | '{' => some .leftBrace
  | '}' => some .rightBrace
  | '(' => some .leftParen
  | ')' => some .rightParen
  | '[' => some .leftBracket
  | ']' => some .rightBracket
  | ',' => some .comma
  | ';' => some .semicolon
  | ':' => some .colon
  | '=' => some .equals
  | _ => none

end Kind

/-- A token: its kind, its text and where it stands. -/
structure Token where
  kind : Kind
  text : String
  span : Span
  deriving DecidableEq, Repr, Inhabited

end ChipLogic.Hdl
