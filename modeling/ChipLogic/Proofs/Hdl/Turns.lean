import ChipLogic.Proofs.Hdl.Faithful
import ChipLogic.Proofs.Hdl.Recovery

/-!
# Where items stand

The parser goes through a text in turns (`Turn`), and each turn gives an item. A chip stands between
the cursor before its turn and the one after it, and so do tokens that are skipped. But after a fault
there may be nothing to skip, because the fault is at a `CHIP` or at the end of the text. Then the
skipped item reaches over the tokens on both sides of the cursor (`skippedItem_of_stop`): the last
token of the chip at fault, which was passed before, and the next token, which was not.

**Every item starts before the next turn** (`Turn.startsWithin`), since the last token of the chip at
fault is passed in the same turn as its `CHIP`. So items start one after the other, in whatever text
(`Turns.pairwise_start`).
-/

namespace ChipLogic.Hdl

variable {b : SourceBook} {n : Nat} {c c₁ c' : Cursor} {i : Item} {is : List Item} {p : Span}

/-! ## Where a chip stops -/

/-- A chip stops right after its keyword, or its name is passed too. -/
theorem reaches_chip (hc : c.Sound b n) (hk : c.kind = .chip) :
    (c.advance.kind ≠ .identifier ∧ (chip c).value = none ∧ (chip c).cursor = c.advance) ∨
      (c.advance.kind = .identifier ∧ c.advance.advance.Reaches b n (chip c).cursor) := by
  obtain ⟨hkeyword, -, -⟩ := hc.advance (by rw [hk]; decide)
  rcases chip_cases hk with h | ⟨hname, -, -, he⟩ | ⟨hname, hbrace, hheader⟩
  · exact .inl h
  · obtain ⟨hreach, -, -⟩ := hkeyword.sound.advance (by rw [hname]; decide)
    rw [he]
    exact .inr ⟨hname, .refl hreach.sound⟩
  · obtain ⟨hreach, -, -⟩ := hkeyword.sound.advance (by rw [hname]; decide)
    obtain ⟨hopen, -, -⟩ := hreach.sound.advance (by rw [hbrace]; decide)
    obtain ⟨hbody, -⟩ := stands_sections hopen.sound
    have hend : (sections c.advance.advance.advance).cursor.Reaches b n (chip c).cursor := by
      unfold chip
      rw [hheader]
      dsimp only
      split
      · next hf => exact (Rule.Stands.token (by decide)).error hbody.sound hf
      · next hs => exact ((Rule.Stands.token (by decide)).ok hbody.sound hs).1
    exact .inr ⟨hname, (hopen.trans hbody).trans hend⟩

theorem Cursor.Reaches.chip (hc : c.Sound b n) (hk : c.kind = .chip) :
    c.advance.Reaches b n (Hdl.chip c).cursor := by
  obtain ⟨hkeyword, -, -⟩ := hc.advance (by rw [hk]; decide)
  rcases reaches_chip hc hk with ⟨-, -, he⟩ | ⟨hname, hreach⟩
  · rw [he]
    exact .refl hkeyword.sound
  · exact (hkeyword.sound.advance (by rw [hname]; decide)).1.trans hreach

/-- Once a token is passed, the one before the cursor is that token or a later one. -/
theorem Cursor.Reaches.previous_of_advance (hc : c.Sound b n) (hk : c.kind ≠ .endOfFile)
    (h : c.advance.Reaches b n c') : ∃ p, c'.previous = some p ∧ c.passed ≤ p.start := by
  obtain ⟨hreach, htaken, -⟩ := hc.advance hk
  rcases h.previous with he | ⟨p, he, hle⟩
  · exact ⟨c.span, he.trans htaken.last, htaken.start⟩
  · exact ⟨p, he, Nat.le_trans hreach.passed hle⟩

/-- A chip reaches from its keyword to its brace. -/
theorem joined_chip (hc : c.Sound b n) (hk : c.kind = .chip) {node : ChipNode}
    (hnode : (chip c).value = some node) : Joined n c c.span node.span (chip c).cursor := by
  obtain ⟨hkeyword, hstart, -⟩ := hc.advance (by rw [hk]; decide)
  rcases chip_cases hk with ⟨-, hnone, -⟩ | ⟨-, -, hnone, -⟩ | ⟨hname, hbrace, hheader⟩
  · rw [hnone] at hnode
    cases hnode
  · rw [hnone] at hnode
    cases hnode
  · obtain ⟨hreach, -, -⟩ := hkeyword.sound.advance (by rw [hname]; decide)
    obtain ⟨hopen, -, -⟩ := hreach.sound.advance (by rw [hbrace]; decide)
    obtain ⟨hbody, -⟩ := stands_sections hopen.sound
    unfold chip at hnode ⊢
    rw [hheader] at hnode ⊢
    dsimp only at hnode ⊢
    split at hnode
    · cases hnode
    · next stop c₂ hs =>
      cases hnode
      obtain ⟨-, hstop⟩ := (Rule.Stands.token (by decide)).ok hbody.sound hs
      exact hstart.merge ((hreach.trans hopen).trans hbody).passed hstop.toSpanned

/-! ## Skipped items -/

/-- A span that starts between two cursors and does not end before the second one. -/
structure StartsWithin (n : Nat) (c : Cursor) (s : Span) (c' : Cursor) : Prop where
  file : s.file = some n
  start : c.passed ≤ s.start
  before : s.start < c'.passed
  stop : c'.passed ≤ s.stop

theorem Spanned.startsWithin {s : Span} (h : Spanned n c s c') : StartsWithin n c s c' :=
  ⟨h.file, h.start, h.stop ▸ h.solid, Nat.le_of_eq h.stop.symm⟩

theorem skipToChip_of_stop (h : c.kind = .endOfFile ∨ c.kind = .chip) : c.skipToChip = c := by
  obtain ⟨previous, rest⟩ := c
  cases rest with
  | nil => rfl
  | cons t rest =>
    have h : t.kind = .endOfFile ∨ t.kind = .chip := h
    rcases h with h | h <;> simp [Cursor.skipToChip, Hdl.skipToChip, h]

theorem skipToChip_eq_advance (hend : c.kind ≠ .endOfFile) (hk : c.kind ≠ .chip) :
    c.skipToChip = c.advance.skipToChip := by
  obtain ⟨previous, rest⟩ := c
  cases rest with
  | nil => exact absurd rfl hend
  | cons t rest =>
    have hend : t.kind ≠ .endOfFile := hend
    have hk : t.kind ≠ .chip := hk
    simp [Cursor.skipToChip, Hdl.skipToChip, Cursor.advance, hend]

/-- The tokens that are passed over up to the next chip are the skipped item. -/
theorem spanned_skippedItem (hc : c.Sound b n) (hend : c.kind ≠ .endOfFile) (hk : c.kind ≠ .chip) :
    Spanned n c (skippedItem c).span c.skipToChip := by
  obtain ⟨hreach, htaken, -⟩ := hc.advance hend
  rw [skippedItem, Item.span, skipToChip_eq_advance hend hk]
  exact (htaken.merge_previous (.skipToChip hreach.sound)).toSpanned

/-- If nothing is passed over, the skipped item reaches over the tokens on both sides. -/
theorem skippedItem_of_stop (hc : c.Sound b n) (hp : c.previous = some p)
    (hk : c.kind = .endOfFile ∨ c.kind = .chip) :
    (skippedItem c).span = ⟨some n, p.start, max c.span.stop p.stop⟩ := by
  obtain ⟨hfile, hsolid⟩ := hc.previous p hp
  have hpassed : c.passed = p.stop := by simp [Cursor.passed, hp]
  have hspan : c.span.file = some n ∧ p.start ≤ c.span.start := by
    obtain ⟨previous, rest⟩ := c
    obtain rfl : previous = some p := hp
    cases rest with
    | nil => exact ⟨hfile, Nat.le_refl _⟩
    | cons t rest =>
      have hahead := hc.ahead t List.mem_cons_self
      rw [hpassed] at hahead
      exact ⟨hc.files t List.mem_cons_self, Nat.le_trans (Nat.le_of_lt hsolid) hahead⟩
  have hprevious : c.previousSpan = p := by simp [Cursor.previousSpan, hp]
  rw [skippedItem, Item.span, skipToChip_of_stop hk, hprevious, Span.merge,
    if_neg (by simp [hspan.1]), if_pos (hspan.1.trans hfile.symm), hspan.1,
    Nat.min_eq_right hspan.2]

/-- Before a `CHIP` the skipped item ends with this keyword. -/
theorem stop_skippedItem (hc : c.Sound b n) (hp : c.previous = some p) (hk : c.kind = .chip) :
    (skippedItem c).span.stop = c.span.stop := by
  have hpassed : c.passed = p.stop := by simp [Cursor.passed, hp]
  obtain ⟨hreach, htaken, -⟩ := hc.advance (by rw [hk]; decide)
  rw [skippedItem_of_stop hc hp (.inr hk)]
  refine Nat.max_eq_left ?_
  rw [htaken.stop, ← hpassed]
  exact hreach.passed

/-- The skipped item starts with the first token passed over, or with the one before. -/
theorem startsWithin_skippedItem (hc : c.Sound b n) (hp : c.previous = some p) {low : Cursor}
    (hlow : low.passed ≤ p.start) : StartsWithin n low (skippedItem c).span c.skipToChip := by
  have hsolid := (hc.previous p hp).2
  have hpassed : c.passed = p.stop := by simp [Cursor.passed, hp]
  by_cases hk : c.kind = .endOfFile ∨ c.kind = .chip
  · rw [skippedItem_of_stop hc hp hk, skipToChip_of_stop hk]
    exact ⟨rfl, hlow, hpassed ▸ hsolid, hpassed ▸ Nat.le_max_right _ _⟩
  · rw [not_or] at hk
    have hspanned := spanned_skippedItem hc hk.1 hk.2
    have := hspanned.start
    exact { hspanned.startsWithin with start := by omega }

/-! ## Turns -/

/-- Every turn takes a token. -/
theorem Turn.reaches (h : Turn c i c') (hc : c.Sound b n) : c.advance.Reaches b n c' := by
  cases h with
  | chip kind value => exact .chip hc kind
  | failed kind value =>
    have hreach := Cursor.Reaches.chip hc kind
    exact hreach.trans (.skipToChip hreach.sound)
  | stray inside kind =>
    rw [skipToChip_eq_advance inside kind]
    exact .skipToChip (hc.advance inside).1.sound

theorem Turn.sound (h : Turn c i c') (hc : c.Sound b n) : c'.Sound b n :=
  (h.reaches hc).sound

theorem Turn.suffix (h : Turn c i c') : c'.rest <:+ c.rest := by
  cases h with
  | chip kind value => exact chip_suffix c
  | failed kind value => exact (skipToChip_suffix _ _).trans (chip_suffix c)
  | stray inside kind => exact skipToChip_suffix _ _

/-- **What a turn gives starts before the next turn.** -/
theorem Turn.startsWithin (h : Turn c i c') (hc : c.Sound b n) : StartsWithin n c i.span c' := by
  cases h with
  | chip kind value => exact (joined_chip hc kind value).startsWithin
  | failed kind value =>
    have hreach := Cursor.Reaches.chip hc kind
    obtain ⟨p, hp, hlow⟩ := hreach.previous_of_advance hc (by rw [kind]; decide)
    exact startsWithin_skippedItem hreach.sound hp hlow
  | stray inside kind => exact (spanned_skippedItem hc inside kind).startsWithin

theorem Turns.sound (h : Turns c is c') (hc : c.Sound b n) : c'.Sound b n := by
  induction h with
  | refl => exact hc
  | cons first rest ih => exact ih (first.sound hc)

theorem Turns.suffix (h : Turns c is c') : c'.rest <:+ c.rest := by
  induction h with
  | refl => exact List.suffix_refl _
  | cons first rest ih => exact ih.trans first.suffix

theorem Turns.concat (h : Turns c is c₁) (hi : Turn c₁ i c') : Turns c (is ++ [i]) c' := by
  induction h with
  | refl => exact .cons hi (.refl _)
  | cons first rest ih => exact .cons first (ih hi)

theorem Turns.mem (h : Turns c is c') (hc : c.Sound b n) :
    ∀ i ∈ is, i.span.file = some n ∧ c.passed ≤ i.span.start ∧ i.span.start < i.span.stop := by
  induction h with
  | refl => exact List.forall_mem_nil _
  | cons first rest ih =>
    obtain ⟨hfile, hstart, hbefore, hstop⟩ := first.startsWithin hc
    refine List.forall_mem_cons.2 ⟨⟨hfile, hstart, Nat.lt_of_lt_of_le hbefore hstop⟩, fun j hj => ?_⟩
    obtain ⟨hjfile, hjstart, hsolid⟩ := ih (first.sound hc) j hj
    exact ⟨hjfile, by omega, hsolid⟩

/-- **Items start one after the other.** -/
theorem Turns.pairwise_start (h : Turns c is c') (hc : c.Sound b n) :
    is.Pairwise fun i j => i.span.start < j.span.start := by
  induction h with
  | refl => exact .nil
  | cons first rest ih =>
    have hc₁ := first.sound hc
    refine .cons (fun j hj => ?_) (ih hc₁)
    exact Nat.lt_of_lt_of_le (first.startsWithin hc).before (rest.mem hc₁ j hj).2.1

end ChipLogic.Hdl
