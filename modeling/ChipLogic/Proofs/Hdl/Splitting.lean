import ChipLogic.Proofs.Hdl.Spelling

/-!
# Splitting a text made of pieces

A text that is put together from pieces splits into these pieces again, as long as no word or number
runs into the next one. Two kinds of lists of pieces are told apart by what may come after them:

* anything, if the last piece is a blank or a mark (`Piece.Splits`);
* a text that starts with no letter, digit or underscore (`Soft`), if it is a word or a number
  (`Piece.Cuts`).

Lists are put together by `Piece.Splits.append`, `Piece.Splits.cuts` and `Piece.Cuts.append`.
-/

namespace ChipLogic.Hdl

/-- A name is a word that is not reserved. -/
def IsName (name : String) : Prop :=
  ∃ c cs, name.toList = c :: cs ∧ isWordStart c ∧ (∀ x ∈ cs, isWordChar x) ∧
    Kind.ofWord name.toList = .identifier

/-- No word or number before the text goes on in it. -/
def Soft (cs : List Char) : Prop :=
  ∀ c ∈ cs.head?, isWordChar c = false

theorem soft_cons {c : Char} (h : isWordChar c = false) (cs : List Char) : Soft (c :: cs) := by
  intro x hx
  obtain rfl : c = x := by simpa using hx
  exact h

theorem takeWhile_append_of_soft {q : Char → Bool} (hq : ∀ c, q c = true → isWordChar c = true)
    {cs rest : List Char} (h : ∀ c ∈ cs, q c = true) (hs : Soft rest) :
    (cs ++ rest).takeWhile q = cs ∧ (cs ++ rest).dropWhile q = rest := by
  rw [List.takeWhile_append_of_pos h, List.dropWhile_append_of_pos h]
  cases rest with
  | nil => exact ⟨List.append_nil cs, rfl⟩
  | cons c rest =>
    have hc : q c = false := by
      have hsoft := hs c rfl
      cases hqc : q c with
      | false => rfl
      | true => rw [hq c hqc] at hsoft; cases hsoft
    simp [hc]

namespace Piece

/-! ## Lists of pieces -/

/-- The piece is not at fault. -/
def isFine : Piece → Bool
  | .openComment _ | .token .invalid _ => false
  | _ => true

/-- The pieces come out of their text, whatever comes after it. -/
structure Splits (ps : List Piece) : Prop where
  fine : ∀ p ∈ ps, p.isFine
  split : ∀ rest, split (ps.flatMap text ++ rest) = ps ++ split rest

/-- The pieces come out of their text unless it goes on in the same word or number. -/
structure Cuts (ps : List Piece) : Prop where
  fine : ∀ p ∈ ps, p.isFine
  split : ∀ rest, Soft rest → split (ps.flatMap text ++ rest) = ps ++ split rest

theorem Splits.nil : Splits [] := ⟨List.forall_mem_nil _, fun _ => rfl⟩

theorem Splits.toCuts {ps : List Piece} (h : Splits ps) : Cuts ps :=
  ⟨h.fine, fun rest _ => h.split rest⟩

theorem Splits.append {ps qs : List Piece} (h : Splits ps) (h' : Splits qs) :
    Splits (ps ++ qs) where
  fine := List.forall_mem_append.2 ⟨h.fine, h'.fine⟩
  split rest := by
    rw [List.flatMap_append, List.append_assoc, h.split, h'.split, List.append_assoc]

theorem Splits.cuts {ps qs : List Piece} (h : Splits ps) (h' : Cuts qs) : Cuts (ps ++ qs) where
  fine := List.forall_mem_append.2 ⟨h.fine, h'.fine⟩
  split rest hs := by
    rw [List.flatMap_append, List.append_assoc, h.split, h'.split rest hs, List.append_assoc]

/-- A word or a number is followed by a blank or a mark. -/
theorem Cuts.append {ps qs : List Piece} (h : Cuts ps) (h' : Splits qs)
    (hs : ∀ rest, Soft (qs.flatMap text ++ rest)) : Splits (ps ++ qs) where
  fine := List.forall_mem_append.2 ⟨h.fine, h'.fine⟩
  split rest := by
    rw [List.flatMap_append, List.append_assoc, h.split _ (hs rest), h'.split, List.append_assoc]

theorem Splits.cons {p : Piece} {ps : List Piece} (h : Splits [p]) (h' : Splits ps) :
    Splits (p :: ps) :=
  h.append h'

/-- A word or a number is followed by a blank or a mark. -/
theorem Cuts.cons {p : Piece} {ps : List Piece} (h : Cuts [p]) (h' : Splits ps)
    (hs : ∀ rest, Soft (ps.flatMap text ++ rest)) : Splits (p :: ps) :=
  h.append h' hs

theorem Splits.flatMap {α : Type} {f : α → List Piece} {xs : List α} (h : ∀ x ∈ xs, Splits (f x)) :
    Splits (xs.flatMap f) := by
  induction xs with
  | nil => exact .nil
  | cons x xs ih =>
    obtain ⟨hx, hxs⟩ := List.forall_mem_cons.1 h
    exact hx.append (ih hxs)

theorem split_of_splits {ps : List Piece} (h : Splits ps) : split (ps.flatMap text) = ps := by
  simpa [split] using h.split []

/-! ## Single pieces -/

theorem split_cons (c : Char) (cs : List Char) :
    split (c :: cs) = (first c cs).1 :: split (first c cs).2 := by
  rw [split]

theorem splits_blank {c : Char} (h : isSpace c = true) : Splits [.blank c] := by
  refine ⟨List.forall_mem_singleton.2 rfl, fun rest => ?_⟩
  have hfirst : first c rest = (.blank c, rest) := by simp [first, h]
  show split (c :: rest) = .blank c :: split rest
  rw [split_cons, hfirst]

theorem splits_mark {c : Char} {kind : Kind} (h : Kind.ofMark? c = some kind) :
    Splits [.token kind [c]] := by
  unfold Kind.ofMark? at h
  split at h <;> cases h
  all_goals exact ⟨List.forall_mem_singleton.2 rfl, fun rest => split_cons _ rest⟩

theorem splits_dots : Splits [.token .dotDot ['.', '.']] :=
  ⟨List.forall_mem_singleton.2 rfl, fun rest => split_cons '.' ('.' :: rest)⟩

theorem isSpace_eq_false {c : Char} (h : isWordChar c = true) : isSpace c = false := by
  cases hs : isSpace c with
  | false => rfl
  | true =>
    simp only [isSpace, Bool.or_eq_true, beq_iff_eq] at hs
    rcases hs with (((rfl | rfl) | rfl) | rfl) | rfl <;> cases h

theorem isWordChar_of_isWordStart {c : Char} (h : isWordStart c = true) : isWordChar c = true := by
  simp only [isWordStart, isWordChar, Char.isAlphanum, Bool.or_eq_true] at h ⊢
  exact h.imp_left .inl

theorem isWordChar_of_isDigit {c : Char} (h : c.isDigit = true) : isWordChar c = true := by
  simp [isWordChar, Char.isAlphanum, h]

/-- Only letters of ASCII count. -/
theorem isAlpha_iff {c : Char} : c.isAlpha = true ↔
    (65 ≤ c.toNat ∧ c.toNat ≤ 90) ∨ (97 ≤ c.toNat ∧ c.toNat ≤ 122) := by
  have hletter : c.isAlpha = (decide (c.val ≥ 65 ∧ c.val ≤ 90) ||
      (decide (c.val ≥ 97) && decide (c.val ≤ 122))) := rfl
  simp [hletter, UInt32.le_iff_toNat_le]

theorem isDigit_iff {c : Char} : c.isDigit = true ↔ 48 ≤ c.toNat ∧ c.toNat ≤ 57 := by
  simp [Char.isDigit, UInt32.le_iff_toNat_le]

theorem isWordStart_eq_false {c : Char} (h : c.isDigit = true) : isWordStart c = false := by
  rw [isDigit_iff] at h
  have hlow : c ≠ '_' := by
    rintro rfl
    exact absurd h.2 (by decide)
  have hletter : c.isAlpha = false := by
    rw [Bool.eq_false_iff, ne_eq, isAlpha_iff]
    omega
  simp [isWordStart, hlow, hletter]

theorem isFine_ofWord (word : List Char) : (Piece.token (Kind.ofWord word) word).isFine := by
  unfold Kind.ofWord
  repeat' split
  all_goals rfl

theorem cuts_word {c : Char} {cs : List Char} (hc : isWordStart c = true)
    (h : ∀ x ∈ cs, isWordChar x = true) : Cuts [.token (Kind.ofWord (c :: cs)) (c :: cs)] := by
  refine ⟨List.forall_mem_singleton.2 (isFine_ofWord _), fun rest hs => ?_⟩
  obtain ⟨htake, hdrop⟩ := takeWhile_append_of_soft (fun _ => id) h hs
  have hfirst : first c (cs ++ rest) = (.token (Kind.ofWord (c :: cs)) (c :: cs), rest) := by
    simp [first, isSpace_eq_false (isWordChar_of_isWordStart hc), hc, htake, hdrop]
  show split (c :: (cs ++ [] ++ rest)) = _
  rw [List.append_nil, split_cons, hfirst]
  rfl

theorem cuts_name {name : String} (h : IsName name) : Cuts [.token .identifier name.toList] := by
  obtain ⟨c, cs, hname, hc, hcs, hkind⟩ := h
  have hword := cuts_word hc hcs
  rwa [← hname, hkind] at hword

theorem cuts_digits {cs : List Char} (hne : cs ≠ []) (h : ∀ x ∈ cs, x.isDigit = true) :
    Cuts [.token .number cs] := by
  refine ⟨List.forall_mem_singleton.2 rfl, fun rest hs => ?_⟩
  cases cs with
  | nil => exact absurd rfl hne
  | cons c cs =>
    obtain ⟨hc, hcs⟩ := List.forall_mem_cons.1 h
    obtain ⟨htake, hdrop⟩ := takeWhile_append_of_soft (fun _ => isWordChar_of_isDigit) hcs hs
    have hfirst : first c (cs ++ rest) = (.token .number (c :: cs), rest) := by
      simp [first, isSpace_eq_false (isWordChar_of_isDigit hc), isWordStart_eq_false hc, hc, htake,
        hdrop]
    show split (c :: (cs ++ [] ++ rest)) = _
    rw [List.append_nil, split_cons, hfirst]
    rfl

theorem cuts_number (n : Nat) : Cuts [.token .number n.repr.toList] := by
  rw [Nat.toList_repr]
  exact cuts_digits Nat.toDigits_ne_nil fun _ =>
    Nat.isDigit_of_mem_toDigits (by decide) (by decide)

/-! ## Names -/

theorem isName_of_first {c : Char} {cs word : List Char}
    (h : (first c cs).1 = .token .identifier word) : IsName (String.ofList word) := by
  unfold first at h
  split at h
  · cases h
  split at h
  · next hc =>
    obtain ⟨hkind, rfl⟩ := Piece.token.inj h
    exact ⟨c, _, String.toList_ofList, hc, List.all_eq_true.1 List.all_takeWhile,
      by rw [String.toList_ofList]; exact hkind⟩
  split at h
  · cases h
  split at h
  · next hk =>
    obtain ⟨rfl, -⟩ := Piece.token.inj h
    unfold Kind.ofMark? at hk
    split at hk <;> cases hk
  split at h
  · cases h
  · split at h <;> cases h
  · cases h
  · cases h

/-- The identifiers of a text are names. -/
theorem isName_of_mem_split {cs word : List Char} (h : .token .identifier word ∈ split cs) :
    IsName (String.ofList word) := by
  fun_induction split cs with
  | case1 => cases h
  | case2 c cs ih =>
    rcases List.mem_cons.1 h with he | h
    · exact isName_of_first he.symm
    · exact ih h

end Piece

end ChipLogic.Hdl
