import ChipLogic.Cli.Assignment
import ChipLogic.Proofs.Text.Blank
import ChipLogic.Proofs.Text.Numeral

/-!
# Values are read exactly

Users write values of pins in three bases, with underscores wherever they like. The grammar speaks
of the text without its underscores:

```text
value      ::= mark '+'? digit+
mark       ::= '' | '0b' | '0x'
assignment ::= name '=' value
```

**Numbers** (`IsValue`). The mark tells the base, and the digits are a numeral in that base. No text
can be read in two ways: a decimal numeral does not start like a mark, and a digit is no plus. So
reading follows the grammar, and the number has any size before it is compared with the word
(`readValue?_eq_some_iff`). It is never reduced.

**Assignments.** The name is the core of what comes before the first `=`, and the value is the core
of what comes after it. An `=` in the rest belongs to the value, which is refused then.

**Theorem (`values_exact`).** A text is read as a value exactly if it is a value of 64 bits,
and as an assignment exactly if it is one. What is printed in any of the bases, with underscores
anywhere, is read back, and what is too large is refused.
-/

namespace ChipLogic

/-! ## Numbers -/

/-- The mark in front of a number tells its base. -/
inductive BaseMark : List Char → Nat → Prop
  | decimal : BaseMark [] 10
  | binary : BaseMark ['0', 'b'] 2
  | hexadecimal : BaseMark ['0', 'x'] 16

/-- The text, which has no underscores, is a value of any size: a mark, at most one plus, digits. -/
inductive IsValue : List Char → Nat → Prop
  | plain {mark digits : List Char} {base n : Nat} (marked : BaseMark mark base)
      (numeral : Numeral.Denotes base digits n) : IsValue (mark ++ digits) n
  | plus {mark digits : List Char} {base n : Nat} (marked : BaseMark mark base)
      (numeral : Numeral.Denotes base digits n) : IsValue (mark ++ '+' :: digits) n

variable {mark digits : List Char} {base n : Nat}

theorem BaseMark.bounds (h : BaseMark mark base) : 1 < base ∧ base ≤ 16 := by
  cases h <;> decide

/-- A text starts with the mark of its base. -/
theorem exists_mark (text : List Char) :
    ∃ mark, BaseMark mark (splitBase text).1 ∧ text = mark ++ (splitBase text).2 := by
  unfold splitBase
  split
  · exact ⟨_, .binary, rfl⟩
  · exact ⟨_, .hexadecimal, rfl⟩
  · exact ⟨_, .decimal, rfl⟩

/-- The rest of a text stands after at most one plus. -/
theorem eq_dropPlus (text : List Char) : text = dropPlus text ∨ text = '+' :: dropPlus text := by
  unfold dropPlus
  split
  · exact .inr rfl
  · exact .inl rfl

theorem not_isDigit_plus (d : Nat) : ¬ Numeral.IsDigit 16 '+' d := by
  rintro ⟨hd, h⟩
  revert d
  decide

theorem not_isDigit_mark (d : Nat) :
    ¬ Numeral.IsDigit 10 'b' d ∧ ¬ Numeral.IsDigit 10 'x' d := by
  constructor <;> rintro ⟨hd, h⟩ <;> revert d <;> decide

theorem dropPlus_digits (hbase : base ≤ 16) (h : Numeral.Denotes base digits n) :
    dropPlus digits = digits := by
  obtain ⟨-, ds, hds, -⟩ := h
  cases hds with
  | nil => rfl
  | @cons c d cs ds hc _ =>
    have hne : c ≠ '+' := by
      rintro rfl
      exact not_isDigit_plus d ⟨Nat.lt_of_lt_of_le hc.1 hbase, hc.2⟩
    unfold dropPlus
    split
    · next heq => exact absurd (List.cons.inj heq).1 hne
    · rfl

/-- Decimal digits do not start like a mark. -/
theorem splitBase_digits (h : Numeral.Denotes 10 digits n) : splitBase digits = (10, digits) := by
  obtain ⟨-, ds, hds, -⟩ := h
  unfold splitBase
  split
  · next rest =>
    cases hds with
    | cons _ hrest =>
      cases hrest with
      | cons hb _ => exact absurd hb (not_isDigit_mark _).1
  · next rest =>
    cases hds with
    | cons _ hrest =>
      cases hrest with
      | cons hx _ => exact absurd hx (not_isDigit_mark _).2
  · rfl

/-- **Reading follows the grammar.** -/
theorem readValue?_eq_some_iff {text : List Char} :
    readValue? text = some n ↔ IsValue (text.filter (· != '_')) n := by
  unfold readValue?
  generalize text.filter (· != '_') = plain
  constructor
  · intro h
    obtain ⟨mark, hmark, hplain⟩ := exists_mark plain
    have hdigits := (Numeral.read?_eq_some_iff hmark.bounds.2).1 h
    rw [hplain]
    rcases eq_dropPlus (splitBase plain).2 with heq | heq
    · rw [heq]
      exact .plain hmark hdigits
    · rw [heq]
      exact .plus hmark hdigits
  · intro h
    cases h with
    | plain hmark hdigits =>
      have hread := (Numeral.read?_eq_some_iff hmark.bounds.2).2 hdigits
      have hdrop := dropPlus_digits hmark.bounds.2 hdigits
      cases hmark with
      | decimal =>
        rw [List.nil_append, splitBase_digits hdigits]
        simpa only [hdrop] using hread
      | binary => simpa only [splitBase, List.cons_append, List.nil_append, hdrop] using hread
      | hexadecimal => simpa only [splitBase, List.cons_append, List.nil_append, hdrop] using hread
    | plus hmark hdigits =>
      have hread := (Numeral.read?_eq_some_iff hmark.bounds.2).2 hdigits
      cases hmark <;> exact hread

/-! ## Values of 64 bits -/

theorem parseValue_eq_ok_iff {text : String} {v : UInt64} :
    parseValue text = .ok v ↔ IsValue (text.toList.filter (· != '_')) v.toNat := by
  rw [← readValue?_eq_some_iff]
  unfold parseValue
  cases hread : readValue? text.toList with
  | none => simp
  | some n =>
    dsimp only
    split
    · next hn =>
      rw [Except.ok.injEq, Option.some.injEq]
      constructor
      · rintro rfl
        exact (UInt64.toNat_ofNat_of_lt' hn).symm
      · rintro rfl
        exact UInt64.ofNat_toNat
    · next hn =>
      have hlt := v.toNat_lt
      constructor
      · intro h
        cases h
      · intro h
        obtain rfl := Option.some.inj h
        exact absurd hlt hn

/-- A number that is too large is refused. -/
theorem parseValue_large {text : String} (h : IsValue (text.toList.filter (· != '_')) n)
    (hn : 2 ^ 64 ≤ n) : parseValue text = .error (.badValue text) := by
  rw [← readValue?_eq_some_iff] at h
  unfold parseValue
  rw [h]
  exact if_neg (Nat.not_lt.2 hn)

/-- What is printed in a base, in small letters or capitals, is read back. -/
theorem parseValue_printed {text : String} {v : UInt64} (hmark : BaseMark mark base)
    (hdigits : digits = Nat.toDigits base v.toNat ∨
      digits = (Nat.toDigits base v.toNat).map Char.toUpper)
    (htext : text.toList.filter (· != '_') = mark ++ digits) : parseValue text = .ok v := by
  rw [parseValue_eq_ok_iff, htext]
  have hsmall := Numeral.denotes_toDigits hmark.bounds.1 v.toNat
  rcases hdigits with rfl | rfl
  · exact .plain hmark hsmall
  · exact .plain hmark (hsmall.capitals hmark.bounds.2)

/-! ## Assignments -/

/-- A text is cut at the first `=`. -/
theorem cutAtEquals_eq_some_iff {text before after : List Char} :
    cutAtEquals text = some (before, after) ↔ text = before ++ '=' :: after ∧ '=' ∉ before := by
  induction text generalizing before with
  | nil => simp [cutAtEquals]
  | cons c cs ih =>
    unfold cutAtEquals
    by_cases hc : c = '='
    · rw [if_pos hc]
      constructor
      · intro h
        cases h
        simp [hc]
      · rintro ⟨heq, hnot⟩
        cases before with
        | nil =>
          cases heq
          rfl
        | cons b bs =>
          cases heq
          simp [hc] at hnot
    · rw [if_neg hc, Option.map_eq_some_iff]
      constructor
      · rintro ⟨⟨bs, rest⟩, hcut, heq⟩
        cases heq
        obtain ⟨rfl, hnot⟩ := ih.1 hcut
        exact ⟨rfl, by simp [hnot, Ne.symm hc]⟩
      · rintro ⟨heq, hnot⟩
        cases before with
        | nil =>
          cases heq
          exact absurd rfl hc
        | cons b bs =>
          cases heq
          exact ⟨(bs, after), ih.2 ⟨rfl, fun h => hnot (List.mem_cons_of_mem c h)⟩, rfl⟩

/-- The name and the value are the cores of what stands before and after the first `=`. -/
theorem parseAssignment_eq_ok_iff {text name : String} {v : UInt64} :
    parseAssignment text = .ok (name, v) ↔ ∃ before after value,
      text.toList = before ++ '=' :: after ∧ '=' ∉ before ∧ (∃ c ∈ before, isBlank c = false) ∧
        Trims before name.toList ∧ Trims after value ∧
        parseValue (String.ofList value) = .ok v := by
  have hblank {before core : List Char} (h : Trims before core) :
      core.isEmpty = false ↔ ∃ c ∈ before, isBlank c = false := by
    rw [List.isEmpty_eq_false_iff, Ne, h.eq_nil_iff]
    simp
  unfold parseAssignment
  constructor
  · intro h
    cases hcut : cutAtEquals text.toList with
    | none =>
      rw [hcut] at h
      cases h
    | some cut =>
      obtain ⟨before, after⟩ := cut
      obtain ⟨htext, hnot⟩ := cutAtEquals_eq_some_iff.1 hcut
      have hname := trims_trimBlank before
      rw [hcut] at h
      dsimp only at h
      split at h
      · cases h
      · next hne =>
        cases hvalue : parseValue (String.ofList (trimBlank after)) with
        | error e =>
          rw [hvalue] at h
          cases h
        | ok u =>
          rw [hvalue] at h
          cases h
          rw [Bool.not_eq_true, hblank hname] at hne
          refine ⟨before, after, trimBlank after, htext, hnot, hne, ?_, trims_trimBlank after,
            hvalue⟩
          rw [String.toList_ofList]
          exact hname
  · rintro ⟨before, after, value, htext, hnot, hne, hname, htrim, hvalue⟩
    have hcore := (hblank hname).2 hne
    rw [cutAtEquals_eq_some_iff.2 ⟨htext, hnot⟩]
    dsimp only
    rw [trims_iff.1 hname, trims_iff.1 htrim, hvalue, if_neg (by simp [hcore]), String.ofList_toList]
    rfl

/-- **Values and assignments are read exactly.** A text is read as `v` exactly if it is, without its
underscores, a mark of a base, at most one plus, and a numeral for `v` in that base. A number of
more than 64 bits is refused, and every number of 64 bits is read from its digits in each base, in
small letters or capitals. A text assigns `v` to a name exactly if it has an `=`, the name is the
core of the text before the first one and not empty, and the core of the text after it is read as
`v`. -/
theorem values_exact :
    (∀ (text : String) (v : UInt64),
      parseValue text = .ok v ↔ IsValue (text.toList.filter (· != '_')) v.toNat) ∧
    (∀ (text : String) (n : Nat), IsValue (text.toList.filter (· != '_')) n → 2 ^ 64 ≤ n →
      parseValue text = .error (.badValue text)) ∧
    (∀ (text : String) (v : UInt64) (mark digits : List Char) (base : Nat), BaseMark mark base →
      (digits = Nat.toDigits base v.toNat ∨
        digits = (Nat.toDigits base v.toNat).map Char.toUpper) →
      text.toList.filter (· != '_') = mark ++ digits → parseValue text = .ok v) ∧
    ∀ (text name : String) (v : UInt64), parseAssignment text = .ok (name, v) ↔
      ∃ before after value,
        text.toList = before ++ '=' :: after ∧ '=' ∉ before ∧ (∃ c ∈ before, isBlank c = false) ∧
          Trims before name.toList ∧ Trims after value ∧
          parseValue (String.ofList value) = .ok v :=
  ⟨fun _ _ => parseValue_eq_ok_iff, fun _ _ => parseValue_large,
    fun _ _ _ _ _ => parseValue_printed, fun _ _ _ => parseAssignment_eq_ok_iff⟩

/-- Underscores may stand in the mark of the base, and one bit more is too much. -/
theorem values_exact_mixed :
    parseValue "0_xF_FFFFFFFFFFFFFFF" = .ok 0xFFFFFFFFFFFFFFFF ∧
      parseValue "18_446744073709551616" = .error (.badValue "18_446744073709551616") ∧
      parseAssignment " sel = 0_xff" = .ok ("sel", 255) := by
  obtain ⟨-, hlarge, hprinted, hassigns⟩ := values_exact
  have hvalue : parseValue "0_xff" = .ok 255 :=
    hprinted _ 255 _ _ 16 .hexadecimal (.inl rfl) (by decide)
  refine ⟨hprinted _ _ _ _ 16 .hexadecimal (.inr rfl) (by decide), ?_, ?_⟩
  · have hdigits : "18_446744073709551616".toList.filter (· != '_') =
        [] ++ Nat.toDigits 10 (2 ^ 64) := by decide
    refine hlarge _ (2 ^ 64) ?_ (Nat.le_refl _)
    rw [hdigits]
    exact .plain .decimal (Numeral.denotes_toDigits (by decide) _)
  · refine (hassigns _ _ _).2 ⟨" sel ".toList, " 0_xff".toList, "0_xff".toList, by decide,
      by decide, ⟨'s', by decide, by decide⟩, trims_iff.2 (by decide), trims_iff.2 (by decide), ?_⟩
    rw [String.ofList_toList]
    exact hvalue

end ChipLogic
