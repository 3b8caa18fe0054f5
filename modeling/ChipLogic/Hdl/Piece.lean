import ChipLogic.Hdl.Token

/-!
# Pieces

Every text splits into **pieces**: blanks, comments and tokens. The split takes the longest word or
run of digits, ends a block comment at the first closing mark and a line comment before the
newline, and loses nothing: the pieces put together are the text (`flatMap_text_split`).
-/

namespace ChipLogic.Hdl

/-- The blanks between tokens: space, tab, newline, form feed and carriage return. -/
def isSpace (c : Char) : Bool :=
  c == ' ' || c == '\t' || c == '\n' || c == '\r' || c == '\x0c'

/-- The characters that start a word. -/
def isWordStart (c : Char) : Bool :=
  c.isAlpha || c == '_'

/-- The characters that go on with a word. -/
def isWordChar (c : Char) : Bool :=
  c.isAlphanum || c == '_'

/-- A stretch of text that belongs together. -/
inductive Piece where
  | blank (c : Char)
  | comment (text : List Char)
  /-- A block comment that nothing closes. -/
  | openComment (text : List Char)
  | token (kind : Kind) (text : List Char)
  deriving DecidableEq, Repr

namespace Piece

/-- The text of a piece. -/
def text : Piece → List Char
  | .blank c => [c]
  | .comment t => t
  | .openComment t => t
  | .token _ t => t

/-- Splits a text after its first closing mark of a block comment. -/
def closeComment : List Char → Option (List Char × List Char)
  | [] => none
  | '*' :: '/' :: rest => some (['*', '/'], rest)
  | c :: rest => (closeComment rest).map fun (body, after) => (c :: body, after)

/-- The first piece of the text `c :: cs`, and the text after it. -/
def first (c : Char) (cs : List Char) : Piece × List Char :=
  if isSpace c then (.blank c, cs)
  else if isWordStart c then
    let word := c :: cs.takeWhile isWordChar
    (.token (Kind.ofWord word) word, cs.dropWhile isWordChar)
  else if c.isDigit then
    (.token .number (c :: cs.takeWhile Char.isDigit), cs.dropWhile Char.isDigit)
  else match Kind.ofMark? c with
    | some kind => (.token kind [c], cs)
    | none =>
      match c, cs with
      | '/', '/' :: _ => (.comment (c :: cs.takeWhile (· ≠ '\n')), cs.dropWhile (· ≠ '\n'))
      | '/', '*' :: rest =>
        match closeComment rest with
        | some (body, after) => (.comment ('/' :: '*' :: body), after)
        | none => (.openComment (c :: cs), [])
      | '.', '.' :: rest => (.token .dotDot ['.', '.'], rest)
      | _, _ => (.token .invalid [c], cs)

theorem closeComment_append {cs body after : List Char} (h : closeComment cs = some (body, after)) :
    body ++ after = cs := by
  fun_induction closeComment cs generalizing body with
  | case1 => simp at h
  | case2 rest =>
    simp only [Option.some.injEq, Prod.mk.injEq] at h
    obtain ⟨rfl, rfl⟩ := h
    rfl
  | case3 c rest _ ih =>
    obtain ⟨⟨b, a⟩, hb, he⟩ := Option.map_eq_some_iff.1 h
    simp only [Prod.mk.injEq] at he
    obtain ⟨rfl, rfl⟩ := he
    simp [ih hb]

/-- The first piece and the rest are the whole text. -/
theorem first_append (c : Char) (cs : List Char) :
    (first c cs).1.text ++ (first c cs).2 = c :: cs := by
  unfold first
  split
  · rfl
  split
  · simp [text]
  split
  · simp [text]
  split
  · rfl
  split
  · simp [text]
  · split
    · next h => simp [text, closeComment_append h]
    · simp [text]
  · rfl
  · rfl

theorem text_first_ne_nil (c : Char) (cs : List Char) : (first c cs).1.text ≠ [] := by
  unfold first
  split
  · simp [text]
  split
  · simp [text]
  split
  · simp [text]
  split
  · simp [text]
  split
  · simp [text]
  · split <;> simp [text]
  · simp [text]
  · simp [text]

/-- A piece takes at least one character. -/
theorem length_first_le (c : Char) (cs : List Char) : (first c cs).2.length ≤ cs.length := by
  have h := congrArg List.length (first_append c cs)
  have := List.length_pos_iff.2 (text_first_ne_nil c cs)
  simp only [List.length_append, List.length_cons] at h
  omega

/-- All pieces of a text, in order. -/
def split : List Char → List Piece
  | [] => []
  | c :: cs => (first c cs).1 :: split (first c cs).2
termination_by cs => cs.length
decreasing_by
  have := length_first_le c cs
  simp only [List.length_cons]
  omega

/-- **Nothing is lost.** The pieces of a text put together are the text. -/
theorem flatMap_text_split (cs : List Char) : (split cs).flatMap text = cs := by
  fun_induction split cs with
  | case1 => rfl
  | case2 c cs ih => rw [List.flatMap_cons, ih, first_append]

end Piece

end ChipLogic.Hdl
