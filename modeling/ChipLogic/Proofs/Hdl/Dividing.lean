import ChipLogic.Proofs.Hdl.Splitting

/-!
# The one way to divide a text

What a piece is can be told from its text and from what comes after it (`IsPiece`): a word and a
run of digits are as long as they can be, a line comment ends before a newline or with the text, a
block comment with its first closing mark, and a character that fits nowhere else is a token at
fault.

A text **divides** into pieces each of which is one where it stands (`Divides`).

**Theorem (`divides_iff`).** `Piece.split` is the only way to divide a text.
-/

namespace ChipLogic.Hdl

/-! ## Pieces where they stand -/

/-- Letters, digits and underscores, the first of which is no digit. -/
def IsWord : List Char → Prop
  | [] => False
  | c :: cs => isWordStart c = true ∧ ∀ x ∈ cs, isWordChar x = true

/-- One digit or more. -/
def IsDigits (cs : List Char) : Prop :=
  cs ≠ [] ∧ ∀ c ∈ cs, c.isDigit = true

/-- The text starts with no character of a class. -/
def StopsAt (q : Char → Bool) (cs : List Char) : Prop :=
  ∀ c ∈ cs.head?, q c = false

/-- The mark that closes a block comment is not in the text. -/
def NeverCloses (cs : List Char) : Prop :=
  ¬ ['*', '/'] <:+: cs

/-- A character that is no blank and starts no comment and no other token. -/
structure IsStray (c : Char) (after : List Char) : Prop where
  space : isSpace c = false
  word : isWordChar c = false
  mark : Kind.ofMark? c = none
  dots : c = '.' → after.head? ≠ some '.'
  comment : c = '/' → after.head? ≠ some '/' ∧ after.head? ≠ some '*'

/-- What a piece is, in front of what comes after it. -/
inductive IsPiece (after : List Char) : Piece → Prop
  | blank {c : Char} (space : isSpace c = true) : IsPiece after (.blank c)
  | line {body : List Char} (inside : '\n' ∉ body) (stop : StopsAt (· ≠ '\n') after) :
      IsPiece after (.comment ('/' :: '/' :: body))
  /-- The first closing mark is at the end. -/
  | block {body : List Char} (first : NeverCloses (body ++ ['*'])) :
      IsPiece after (.comment ('/' :: '*' :: (body ++ ['*', '/'])))
  | openBlock {body : List Char} (never : NeverCloses body) (stop : after = []) :
      IsPiece after (.openComment ('/' :: '*' :: body))
  | word {w : List Char} (word : IsWord w) (stop : StopsAt isWordChar after) :
      IsPiece after (.token (Kind.ofWord w) w)
  | number {ds : List Char} (digits : IsDigits ds) (stop : StopsAt Char.isDigit after) :
      IsPiece after (.token .number ds)
  | mark {c : Char} {kind : Kind} (mark : Kind.ofMark? c = some kind) :
      IsPiece after (.token kind [c])
  | dots : IsPiece after (.token .dotDot ['.', '.'])
  | stray {c : Char} (stray : IsStray c after) : IsPiece after (.token .invalid [c])

/-- The pieces make up the text, and each is one where it stands. -/
inductive Divides : List Char → List Piece → Prop
  | nil : Divides [] []
  | cons {after : List Char} {p : Piece} {ps : List Piece} (head : IsPiece after p)
      (tail : Divides after ps) : Divides (p.text ++ after) (p :: ps)

/-! ## Where a run of characters stops -/

theorem stopsAt_dropWhile (q : Char → Bool) (cs : List Char) : StopsAt q (cs.dropWhile q) := by
  intro c hc
  have hhead := List.head?_dropWhile_not q cs
  rw [Option.mem_def.1 hc] at hhead
  simpa using hhead

theorem takeWhile_append_of_stopsAt {q : Char → Bool} {cs after : List Char}
    (h : ∀ c ∈ cs, q c = true) (hs : StopsAt q after) :
    (cs ++ after).takeWhile q = cs ∧ (cs ++ after).dropWhile q = after := by
  rw [List.takeWhile_append_of_pos h, List.dropWhile_append_of_pos h]
  cases after with
  | nil => exact ⟨List.append_nil cs, rfl⟩
  | cons c after =>
    have hc : q c = false := hs c rfl
    simp [hc]

/-! ## Closing marks -/

theorem neverCloses_cons_iff {c : Char} {cs : List Char} :
    NeverCloses (c :: cs) ↔ ¬ (c = '*' ∧ cs.head? = some '/') ∧ NeverCloses cs := by
  rw [NeverCloses, List.infix_cons_iff, not_or, List.cons_prefix_cons]
  have hhead : ['/'] <+: cs ↔ cs.head? = some '/' := by
    cases cs <;> simp [List.cons_prefix_cons, eq_comm]
  rw [hhead, eq_comm (a := '*')]
  exact Iff.rfl

theorem neverCloses_nil : NeverCloses [] := by simp [NeverCloses]

theorem closeComment_eq_some_iff {cs text after : List Char} :
    Piece.closeComment cs = some (text, after) ↔
      ∃ body, text = body ++ ['*', '/'] ∧ NeverCloses (body ++ ['*']) ∧ cs = text ++ after := by
  fun_induction Piece.closeComment cs generalizing text with
  | case1 =>
    refine ⟨fun h => (by cases h), ?_⟩
    rintro ⟨body, rfl, -, he⟩
    simp at he
  | case2 rest =>
    constructor
    · intro h
      obtain ⟨rfl, rfl⟩ := Prod.mk.inj (Option.some.inj h)
      exact ⟨[], rfl, neverCloses_cons_iff.2 ⟨by simp, neverCloses_nil⟩, rfl⟩
    · rintro ⟨body, rfl, hfirst, he⟩
      -- a longer text would hold this mark before the one at its end
      cases body with
      | nil => simpa using he
      | cons b body =>
        obtain ⟨rfl, htail⟩ : '*' = b ∧ '/' :: rest = body ++ ['*', '/'] ++ after := by
          simpa using he
        refine absurd ⟨rfl, ?_⟩ (neverCloses_cons_iff.1 hfirst).1
        cases body with
        | nil => simp at htail
        | cons d body => obtain ⟨rfl, -⟩ := List.cons.inj htail; rfl
  | case3 c rest hne ih =>
    have hmark : ¬ (c = '*' ∧ rest.head? = some '/') := by
      rintro ⟨rfl, hhead⟩
      obtain ⟨rest', rfl⟩ := List.head?_eq_some_iff.1 hhead
      exact hne rest' rfl rfl
    rw [Option.map_eq_some_iff]
    constructor
    · rintro ⟨⟨text', after'⟩, hclose, he⟩
      obtain ⟨rfl, rfl⟩ := Prod.mk.inj he
      obtain ⟨body, rfl, hfirst, rfl⟩ := ih.1 hclose
      refine ⟨c :: body, rfl, neverCloses_cons_iff.2 ⟨fun h => hmark ⟨h.1, ?_⟩, hfirst⟩, rfl⟩
      cases body <;> simp_all
    · rintro ⟨body, rfl, hfirst, he⟩
      cases body with
      | nil =>
        obtain ⟨rfl, rfl⟩ : c = '*' ∧ rest = '/' :: after := by simpa using he
        exact absurd ⟨rfl, rfl⟩ hmark
      | cons b body =>
        obtain ⟨rfl, rfl⟩ := List.cons.inj he
        exact ⟨(body ++ ['*', '/'], after),
          ih.2 ⟨body, rfl, (neverCloses_cons_iff.1 hfirst).2, rfl⟩, rfl⟩

theorem closeComment_eq_none_iff {cs : List Char} :
    Piece.closeComment cs = none ↔ NeverCloses cs := by
  fun_induction Piece.closeComment cs with
  | case1 => simp [NeverCloses]
  | case2 rest => simp [neverCloses_cons_iff]
  | case3 c rest hne ih =>
    rw [Option.map_eq_none_iff, ih, neverCloses_cons_iff]
    refine ⟨fun h => ⟨?_, h⟩, And.right⟩
    rintro ⟨rfl, hhead⟩
    obtain ⟨rest', rfl⟩ := List.head?_eq_some_iff.1 hhead
    exact hne rest' rfl rfl

/-! ## The division -/

namespace Piece

/-- What is split off first is a piece where it stands. -/
theorem isPiece_first (c : Char) (cs : List Char) : IsPiece (first c cs).2 (first c cs).1 := by
  unfold first
  split
  · next hspace => exact .blank hspace
  split
  · next hstart =>
    exact .word ⟨hstart, List.all_eq_true.1 List.all_takeWhile⟩ (stopsAt_dropWhile _ _)
  split
  · next hdigit =>
    exact .number ⟨List.cons_ne_nil _ _,
      List.forall_mem_cons.2 ⟨hdigit, List.all_eq_true.1 List.all_takeWhile⟩⟩ (stopsAt_dropWhile _ _)
  split
  · next hmark => exact .mark hmark
  next hspace hstart hdigit _ hmark =>
  have hword : isWordChar c = false := by
    simpa [isWordChar, isWordStart, Char.isAlphanum, hdigit] using hstart
  split
  · next rest =>
    have htake : ('/' :: rest).takeWhile (· ≠ '\n') = '/' :: rest.takeWhile (· ≠ '\n') := by
      simp
    rw [htake]
    refine .line (fun hmem => ?_) (stopsAt_dropWhile _ _)
    simpa using List.all_eq_true.1 List.all_takeWhile _ hmem
  · next rest =>
    split
    · next hclose =>
      obtain ⟨body, rfl, hfirst, -⟩ := closeComment_eq_some_iff.1 hclose
      exact .block hfirst
    · next hclose => exact .openBlock (closeComment_eq_none_iff.1 hclose) rfl
  · exact .dots
  · next hline hblock hdots =>
    refine .stray ⟨by simpa using hspace, hword, hmark, fun hc hhead => ?_,
      fun hc => ⟨fun hhead => ?_, fun hhead => ?_⟩⟩
    all_goals
      obtain ⟨rest, rfl⟩ := List.head?_eq_some_iff.1 hhead
      subst hc
    · exact hdots rest rfl rfl
    · exact hline rest rfl rfl
    · exact hblock rest rfl rfl

theorem divides_split (cs : List Char) : Divides cs (split cs) := by
  fun_induction split cs with
  | case1 => exact .nil
  | case2 c cs ih =>
    have hcons := Divides.cons (isPiece_first c cs) ih
    rwa [first_append] at hcons

theorem first_line (cs : List Char) : first '/' ('/' :: cs) =
    (.comment ('/' :: '/' :: cs.takeWhile (· ≠ '\n')), cs.dropWhile (· ≠ '\n')) :=
  rfl

theorem first_block (cs : List Char) : first '/' ('*' :: cs) =
    match closeComment cs with
    | some (body, after) => (.comment ('/' :: '*' :: body), after)
    | none => (.openComment ('/' :: '*' :: cs), []) :=
  rfl

theorem first_digit {c : Char} (h : c.isDigit = true) (cs : List Char) :
    first c cs = (.token .number (c :: cs.takeWhile Char.isDigit), cs.dropWhile Char.isDigit) := by
  simp [first, isSpace_eq_false (isWordChar_of_isDigit h), isWordStart_eq_false h, h]

theorem first_stray {c : Char} {cs : List Char} (h : IsStray c cs) :
    first c cs = (.token .invalid [c], cs) := by
  obtain ⟨hstart, hdigit⟩ : isWordStart c = false ∧ c.isDigit = false := by
    simpa [isWordChar, isWordStart, Char.isAlphanum, and_right_comm] using h.word
  simp only [first, h.space, hstart, hdigit, h.mark, Bool.false_eq_true, if_false]
  split
  · exact absurd rfl (h.comment rfl).1
  · exact absurd rfl (h.comment rfl).2
  · exact absurd rfl (h.dots rfl)
  · rfl

/-- A piece is split off where it stands. -/
theorem split_of_isPiece {after : List Char} {p : Piece} (h : IsPiece after p) :
    split (p.text ++ after) = p :: split after := by
  cases h with
  | blank space => exact (splits_blank space).split after
  | @line body inside stop =>
    have hbody : ∀ c ∈ body, decide (c ≠ '\n') = true := fun c hc => by
      simpa using fun he : c = '\n' => inside (he ▸ hc)
    obtain ⟨htake, hdrop⟩ := takeWhile_append_of_stopsAt hbody stop
    show split ('/' :: '/' :: (body ++ after)) = _
    rw [split_cons, first_line, htake, hdrop]
  | @block body first =>
    have hclose : closeComment (body ++ ['*', '/'] ++ after) = some (body ++ ['*', '/'], after) :=
      closeComment_eq_some_iff.2 ⟨body, rfl, first, rfl⟩
    show split ('/' :: '*' :: (body ++ ['*', '/'] ++ after)) = _
    rw [split_cons, first_block, hclose]
  | @openBlock body never stop =>
    subst stop
    show split ('/' :: '*' :: (body ++ [])) = _
    rw [List.append_nil, split_cons, first_block, closeComment_eq_none_iff.2 never]
  | @word w word stop =>
    cases w with
    | nil => exact word.elim
    | cons c cs => simpa [text] using (cuts_word word.1 word.2).split after stop
  | @number ds digits stop =>
    cases ds with
    | nil => exact absurd rfl digits.1
    | cons c cs =>
      obtain ⟨hc, hcs⟩ := List.forall_mem_cons.1 digits.2
      obtain ⟨htake, hdrop⟩ := takeWhile_append_of_stopsAt hcs stop
      show split (c :: (cs ++ after)) = _
      rw [split_cons, first_digit hc, htake, hdrop]
  | mark mark => exact (splits_mark mark).split after
  | dots => exact splits_dots.split after
  | @stray c stray =>
    show split (c :: after) = _
    rw [split_cons, first_stray stray]

end Piece

/-- **There is one way to divide a text.** -/
theorem divides_iff {cs : List Char} {ps : List Piece} : Divides cs ps ↔ ps = Piece.split cs := by
  refine ⟨fun h => ?_, fun h => h ▸ Piece.divides_split cs⟩
  induction h with
  | nil => rw [Piece.split]
  | cons head tail ih => rw [Piece.split_of_isPiece head, ih]

end ChipLogic.Hdl
