/-!
# JSON text

The values that reports are made of and their indented text: two blanks a level, one entry a line,
an empty list or record closed at once. Text is quoted with the short escapes where there is one;
other control characters are written by number, and everything else as it is.
-/

namespace ChipLogic

/-- A report value. -/
inductive Json where
  | number (n : Nat)
  | string (text : String)
  | list (items : List Json)
  | record (entries : List (String × Json))

namespace Json

/-- A character inside quotes. -/
def quotedChar (c : Char) : List Char :=
  match c with
  | '"' => ['\\', '"']
  | '\\' => ['\\', '\\']
  | '\n' => ['\\', 'n']
  | '\r' => ['\\', 'r']
  | '\t' => ['\\', 't']
  | c =>
    if c.toNat = 8 then ['\\', 'b']
    else if c.toNat = 12 then ['\\', 'f']
    else if c.toNat < 32 then
      let digits := Nat.toDigits 16 c.toNat
      ['\\', 'u'] ++ List.replicate (4 - digits.length) '0' ++ digits
    else [c]

/-- A text in quotes. -/
def quoted (text : String) : String :=
  String.ofList ('"' :: text.toList.flatMap quotedChar ++ ['"'])

/-- The start of a line at a nesting level. -/
def newline (level : Nat) : String :=
  "\n" ++ String.ofList (List.replicate (2 * level) ' ')

/-- Texts on lines of their own, one level deeper than the brackets around them. -/
def block (level : Nat) (texts : List String) : String :=
  newline (level + 1) ++ ("," ++ newline (level + 1)).intercalate texts ++ newline level

mutual

/-- The text of a value whose own line is indented to `level`. -/
def indented (level : Nat) : Json → String
  | .number n => toString n
  | .string text => quoted text
  | .list [] => "[]"
  | .list items => "[" ++ block level (itemTexts (level + 1) items) ++ "]"
  | .record [] => "\x7b\x7d"
  | .record entries => "\x7b" ++ block level (entryTexts (level + 1) entries) ++ "\x7d"

/-- The texts of the items of a list. -/
def itemTexts (level : Nat) : List Json → List String
  | [] => []
  | item :: items => indented level item :: itemTexts level items

/-- The texts of the entries of a record. -/
def entryTexts (level : Nat) : List (String × Json) → List String
  | [] => []
  | (name, value) :: entries =>
    (quoted name ++ ": " ++ indented level value) :: entryTexts level entries

end

/-- The indented text of a value. -/
def pretty (value : Json) : String :=
  indented 0 value

end Json

end ChipLogic
