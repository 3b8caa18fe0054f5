import ChipLogic.Text.Numeral
import Mathlib.Data.Nat.Digits.Lemmas

/-!
# Numerals and the numbers they denote

A numeral in a base **denotes** a number (`Numeral.Denotes`): each of its characters is a digit of
the base, a letter in either case, there is at least one, and the number has these digits with the
most significant one first.

Reading accepts exactly the numerals and gives the numbers that they denote
(`Numeral.read?_eq_some_iff`). The digits of a number denote it, with letters of either case and any
number of zeros before them, so what is printed is read back.
-/

namespace ChipLogic.Numeral

/-- The character is the digit for `d` in a base, in either case. -/
def IsDigit (base : Nat) (c : Char) (d : Nat) : Prop :=
  d < base ∧ (c = Nat.digitChar d ∨ c = (Nat.digitChar d).toUpper)

/-- The characters are a numeral for the number `n`. -/
structure Denotes (base : Nat) (cs : List Char) (n : Nat) : Prop where
  ne_nil : cs ≠ []
  /-- The digits, the most significant one first. -/
  digits : ∃ ds, List.Forall₂ (IsDigit base) cs ds ∧ Nat.ofDigits base ds.reverse = n

variable {base n d : Nat} {c : Char} {cs : List Char}

/-! ## Digits -/

theorem digit?_digitChar (hd : d < 16) :
    digit? (Nat.digitChar d) = some d ∧ digit? (Nat.digitChar d).toUpper = some d := by
  revert d
  decide

/-- Only characters of ASCII have values. -/
theorem toNat_lt_of_digit? (h : digit? c = some d) : c.toNat < 128 := by
  unfold digit? at h
  split at h
  · next hc => exact Nat.lt_of_le_of_lt hc.2 (by decide)
  · split at h
    · next hc => exact Nat.lt_of_le_of_lt hc.2 (by decide)
    · split at h
      · next hc => exact Nat.lt_of_le_of_lt hc.2 (by decide)
      · cases h

/-- A character that has a value is the digit for it. -/
theorem of_digit?_eq_some (h : digit? c = some d) :
    c = Nat.digitChar d ∨ c = (Nat.digitChar d).toUpper := by
  have hascii : ∀ k < 128, ∀ d ∈ digit? (Char.ofNat k),
      Char.ofNat k = Nat.digitChar d ∨ Char.ofNat k = (Nat.digitChar d).toUpper := by decide
  have hc := hascii c.toNat (toNat_lt_of_digit? h)
  rw [Char.ofNat_toNat] at hc
  exact hc d h

theorem digitIn?_eq_some_iff (hbase : base ≤ 16) : digitIn? base c = some d ↔ IsDigit base c d := by
  unfold digitIn? IsDigit
  rw [Option.filter_eq_some_iff, decide_eq_true_eq]
  constructor
  · intro h
    exact ⟨h.2, of_digit?_eq_some h.1⟩
  · rintro ⟨hd, hc⟩
    obtain ⟨hsmall, hcapital⟩ := digit?_digitChar (Nat.lt_of_lt_of_le hd hbase)
    rcases hc with rfl | rfl
    · exact ⟨hsmall, hd⟩
    · exact ⟨hcapital, hd⟩

/-! ## Reading -/

/-- To read digits onto a value is to write them after it. -/
theorem readOnto_eq_some_iff (hbase : base ≤ 16) {value : Nat} :
    readOnto base value cs = some n ↔
      ∃ ds, List.Forall₂ (IsDigit base) cs ds ∧
        Nat.ofDigits base ds.reverse + base ^ cs.length * value = n := by
  induction cs generalizing value with
  | nil => simp [readOnto]
  | cons c cs ih =>
    have hmove (d : Nat) {ds : List Nat} (hlen : cs.length = ds.length) :
        Nat.ofDigits base ds.reverse + base ^ cs.length * (value * base + d) =
          Nat.ofDigits base (d :: ds).reverse + base ^ (c :: cs).length * value := by
      rw [List.reverse_cons, Nat.ofDigits_append, Nat.ofDigits_singleton, List.length_reverse,
        List.length_cons, Nat.pow_succ, hlen]
      ring
    rw [readOnto, Option.bind_eq_some_iff]
    constructor
    · rintro ⟨d, hd, hread⟩
      obtain ⟨ds, hds, hn⟩ := ih.1 hread
      refine ⟨d :: ds, .cons ((digitIn?_eq_some_iff hbase).1 hd) hds, ?_⟩
      rw [← hmove d hds.length_eq]
      exact hn
    · rintro ⟨ds, hds, hn⟩
      cases hds with
      | cons hd hds =>
        refine ⟨_, (digitIn?_eq_some_iff hbase).2 hd, ih.2 ⟨_, hds, ?_⟩⟩
        rw [hmove _ hds.length_eq]
        exact hn

/-- **Reading accepts exactly the numerals**, with the numbers that they denote. -/
theorem read?_eq_some_iff (hbase : base ≤ 16) : read? base cs = some n ↔ Denotes base cs n := by
  cases cs with
  | nil =>
    constructor
    · intro h
      cases h
    · intro h
      exact absurd rfl h.ne_nil
  | cons c cs =>
    have hread : read? base (c :: cs) = readOnto base 0 (c :: cs) := rfl
    rw [hread, readOnto_eq_some_iff hbase]
    constructor
    · rintro ⟨ds, hds, hn⟩
      exact ⟨List.cons_ne_nil c cs, ds, hds, hn⟩
    · rintro ⟨-, ds, hds, hn⟩
      exact ⟨ds, hds, hn⟩

/-! ## Printing -/

theorem Denotes.snoc (h : Denotes base cs n) (hd : IsDigit base c d) :
    Denotes base (cs ++ [c]) (d + base * n) := by
  obtain ⟨-, ds, hds, hn⟩ := h
  refine ⟨by simp, ds ++ [d], List.rel_append hds (.cons hd .nil), ?_⟩
  rw [List.reverse_append, List.reverse_singleton, List.singleton_append, Nat.ofDigits_cons, hn]

theorem denotes_digit (hd : IsDigit base c d) : Denotes base [c] d :=
  ⟨by simp, [d], .cons hd .nil, Nat.ofDigits_singleton⟩

/-- The digits of a number denote it. -/
theorem denotes_toDigits (hbase : 1 < base) (n : Nat) : Denotes base (Nat.toDigits base n) n := by
  induction n using Nat.strong_induction_on with
  | _ n ih =>
    rw [Nat.toDigits_eq_if hbase]
    split
    · next hn => exact denotes_digit ⟨hn, .inl rfl⟩
    · next hn =>
      have hlt : n / base < n := Nat.div_lt_self (by omega) hbase
      have hlast : IsDigit base (Nat.digitChar (n % base)) (n % base) :=
        ⟨Nat.mod_lt n (by omega), .inl rfl⟩
      have h := (ih (n / base) hlt).snoc hlast
      rwa [Nat.mod_add_div] at h

/-- Zeros may stand before a numeral. -/
theorem Denotes.zeros (h : Denotes base cs n) (hbase : 0 < base) (k : Nat) :
    Denotes base (List.replicate k '0' ++ cs) n := by
  induction k with
  | zero => exact h
  | succ k ih =>
    obtain ⟨-, ds, hds, hn⟩ := ih
    refine ⟨by simp [List.replicate_succ], 0 :: ds, ?_, ?_⟩
    · exact .cons ⟨hbase, .inl rfl⟩ hds
    · rw [List.reverse_cons, Nat.ofDigits_append, Nat.ofDigits_singleton, Nat.mul_zero,
        Nat.add_zero, hn]

/-- The digits may be capitals. -/
theorem Denotes.capitals (h : Denotes base cs n) (hbase : base ≤ 16) :
    Denotes base (cs.map Char.toUpper) n := by
  have hupper : ∀ d < 16, (Nat.digitChar d).toUpper.toUpper = (Nat.digitChar d).toUpper := by decide
  obtain ⟨hne, ds, hds, hn⟩ := h
  refine ⟨by simpa using hne, ds, List.forall₂_map_left_iff.2 (hds.imp ?_), hn⟩
  rintro c d ⟨hd, rfl | rfl⟩
  · exact ⟨hd, .inr rfl⟩
  · exact ⟨hd, .inr (hupper d (Nat.lt_of_lt_of_le hd hbase))⟩

theorem denotes_padded (hbase : 1 < base) (width n : Nat) :
    Denotes base (padded base width n) n :=
  (denotes_toDigits hbase n).zeros (by omega) _

/-- Binary digits are zeros and ones. -/
theorem Denotes.eq_zero_or_one (h : Denotes 2 cs n) : ∀ c ∈ cs, c = '0' ∨ c = '1' := by
  obtain ⟨-, ds, hds, -⟩ := h
  induction hds with
  | nil => simp
  | @cons c d _ _ hd _ ih =>
    refine List.forall_mem_cons.2 ⟨?_, ih⟩
    obtain ⟨hlt, hc⟩ := hd
    obtain rfl | rfl : d = 0 ∨ d = 1 := by omega
    · exact .inl (hc.elim id id)
    · exact .inr (hc.elim id id)

/-- A number with room in the width is filled up to the width. -/
theorem length_padded {width : Nat} (hw : 0 < width) (h : n < base ^ width) :
    (padded base width n).length = width := by
  have hle := Nat.toDigits_length base n width hw h
  simp only [padded, List.length_append, List.length_replicate]
  omega

end ChipLogic.Numeral
