import ChipLogic.Proofs.Netlist.WellFormed

/-!
# Windows of wires

A wire end means a window of a pin: the range that it names, or the whole pin
(`Chip.innerWindow`, `Chip.outerWindow`). In a sound netlist both ends of a wire are pins, the two
windows have the same width, and they lie inside their pins (`Wire.Ends`) or, at the outer end of a
wire that wraps around, beyond every bit that a pin may have (`Wire.Ends.outer_beyond`).

Two windows of a pin **overlap** if some bit is in both.
-/

namespace ChipLogic

/-! ## Bits of ranges -/

namespace BitRange

variable {r w : BitRange}

/-- The range has the bit at a position. -/
def Covers (r : BitRange) (i : Nat) : Prop := r.first ≤ i ∧ i ≤ r.last

instance (r : BitRange) (i : Nat) : Decidable (r.Covers i) :=
  inferInstanceAs (Decidable (_ ∧ _))

/-- The bits of the range can be counted in 32 bits. -/
def Counted (r : BitRange) : Prop := r.last - r.first ≠ max32

instance (r : BitRange) : Decidable r.Counted :=
  inferInstanceAs (Decidable (_ ≠ _))

theorem Counted.of_last_lt (h : r.last < max32) : r.Counted := by
  unfold Counted
  omega

theorem le_last_of_lt_width {i : Nat} (h : i < r.width) : r.first + i ≤ r.last := by
  unfold width at h
  split at h
  · next ho =>
    have ho := isOrdered_iff.1 ho
    unfold next32 at h
    split at h <;> omega
  · cases h

theorem lt_width_iff (hr : r.Counted) {i : Nat} : i < r.width ↔ r.first + i ≤ r.last := by
  refine ⟨le_last_of_lt_width, fun h => ?_⟩
  rw [width_eq (by omega) hr]
  omega

/-- A range that wraps around and has no more bits than a pin may have lies beyond all of them. -/
theorem WrapsAround.beyond (h : r.WrapsAround) (hpos : 0 < r.width) (hle : r.width ≤ maxWidth) :
    maxWidth ≤ r.first := by
  have hlast : r.last = 0xFFFFFFFF := h.2
  by_cases hc : r.Counted
  · rw [width_eq h.1 hc, maxWidth] at hle
    rw [maxWidth]
    omega
  · rw [width, if_pos h.isOrdered, Decidable.not_not.1 hc, next32_max32] at hpos
    cases hpos

/-- Some bit is in both ranges. -/
def Overlaps (r w : BitRange) : Prop := max r.first w.first ≤ min r.last w.last

instance (r w : BitRange) : Decidable (r.Overlaps w) :=
  inferInstanceAs (Decidable (_ ≤ _))

theorem overlaps_iff : r.Overlaps w ↔ ∃ i, r.Covers i ∧ w.Covers i := by
  unfold Overlaps Covers
  refine ⟨fun h => ⟨max r.first w.first, ?_⟩, ?_⟩
  · omega
  · rintro ⟨i, hr, hw⟩
    omega

end BitRange

/-! ## The windows of a wire -/

/-- The bits of the outer pin that the wire means. -/
def Wire.outerWindow (w : Wire) (outer : Pin) : BitRange :=
  w.outerRange.getD outer.fullRange

/-- The bits of the part's pin that the wire means. -/
def Wire.innerWindow (w : Wire) (inner : Pin) : BitRange :=
  w.innerRange.getD inner.fullRange

theorem width_getD_fullRange {range : Option BitRange} {p : Pin} (h : 0 < p.width)
    (hle : p.width ≤ maxWidth) : (range.getD p.fullRange).width = endWidth range p := by
  cases range with
  | none => exact BitRange.width_full h (Nat.le_trans hle (by decide))
  | some r => rfl

theorem last_getD_fullRange {range : Option BitRange} {p : Pin} (h : 0 < p.width)
    (hr : ∀ r, range = some r → r.first ≤ r.last ∧ r.last < p.width) :
    (range.getD p.fullRange).last < p.width := by
  cases range with
  | none => exact Nat.sub_lt h Nat.one_pos
  | some r => exact (hr r rfl).2

theorem Instance.mem_drives {p : Instance} {w : Wire} :
    w ∈ p.drives ↔ w ∈ p.wires ∧ w.direction = .drive := by
  rw [drives, List.mem_filter, beq_iff_eq]

theorem Instance.mem_senses {p : Instance} {w : Wire} :
    w ∈ p.senses ↔ w ∈ p.wires ∧ w.direction = .sense := by
  rw [senses, List.mem_filter, beq_iff_eq]

namespace Chip

/-- The pin at a position; it means something if there is one. -/
def pinAt (c : Chip) (i : Nat) : Pin := c.pins[i]?.getD default

/-- The window of a wire on the chip around the part. -/
def outerWindow (c : Chip) (w : Wire) : BitRange := w.outerWindow (c.pinAt w.outer)

/-- The window of a wire on the chip of the part. -/
def innerWindow (c : Chip) (w : Wire) : BitRange := w.innerWindow (c.pinAt w.inner)

theorem pinAt_eq {c : Chip} {i : Nat} {p : Pin} (h : c.pins[i]? = some p) : c.pinAt i = p := by
  rw [pinAt, h, Option.getD_some]

end Chip

/-- The ends of a wire between a part whose chip is `inner` and the chip `outer` around it. -/
structure Wire.Ends (w : Wire) (inner outer : Chip) : Prop where
  innerPin : inner.pins[w.inner]? = some (inner.pinAt w.inner)
  outerPin : outer.pins[w.outer]? = some (outer.pinAt w.outer)
  joins : w.Joins (inner.pinAt w.inner) (outer.pinAt w.outer)
  innerSound : Pins.Sound inner.pins
  outerSound : Pins.Sound outer.pins

theorem Chip.Sound.ends {net : Netlist} (wf : net.Sound) {id : Nat} {c d : Chip}
    (hc : net.chip? id = some c) {p : Instance} (hp : p ∈ c.parts) (hd : net.chip? p.chip = some d)
    {w : Wire} (hw : w ∈ p.wires) : w.Ends d c := by
  obtain ⟨d', hd', hfits⟩ := (wf.chips id c hc).parts p hp
  rw [hd] at hd'
  cases hd'
  obtain ⟨inner, outer, hi, ho, hj⟩ := hfits w hw
  refine ⟨?_, ?_, ?_, (wf.chips _ d hd).pins, (wf.chips id c hc).pins⟩
  · rw [hi, Chip.pinAt_eq hi]
  · rw [ho, Chip.pinAt_eq ho]
  · rw [Chip.pinAt_eq hi, Chip.pinAt_eq ho]
    exact hj

namespace Wire.Ends

variable {w : Wire} {inner outer : Chip}

theorem inner_pos (h : w.Ends inner outer) : 0 < (inner.pinAt w.inner).width :=
  h.innerSound.width_pos _ (Array.mem_of_getElem? h.innerPin)

theorem inner_le (h : w.Ends inner outer) : (inner.pinAt w.inner).width ≤ maxWidth :=
  h.innerSound.width_le _ (Array.mem_of_getElem? h.innerPin)

theorem outer_pos (h : w.Ends inner outer) : 0 < (outer.pinAt w.outer).width :=
  h.outerSound.width_pos _ (Array.mem_of_getElem? h.outerPin)

theorem outer_le (h : w.Ends inner outer) : (outer.pinAt w.outer).width ≤ maxWidth :=
  h.outerSound.width_le _ (Array.mem_of_getElem? h.outerPin)

theorem inner_last (h : w.Ends inner outer) :
    (inner.innerWindow w).last < (inner.pinAt w.inner).width :=
  last_getD_fullRange h.inner_pos h.joins.innerFits

theorem outer_last (h : w.Ends inner outer) (hw : ¬ w.WrapsAround) :
    (outer.outerWindow w).last < (outer.pinAt w.outer).width :=
  last_getD_fullRange h.outer_pos fun r hr =>
    (h.joins.outerFits r hr).resolve_right fun hwrap => hw ⟨r, hr, hwrap.1⟩

/-- The windows lie inside a cell. -/
theorem inner_last_lt (h : w.Ends inner outer) : (inner.innerWindow w).last < 64 :=
  Nat.lt_of_lt_of_le h.inner_last h.inner_le

theorem outer_last_lt (h : w.Ends inner outer) (hw : ¬ w.WrapsAround) :
    (outer.outerWindow w).last < 64 :=
  Nat.lt_of_lt_of_le (h.outer_last hw) h.outer_le

theorem width_eq (h : w.Ends inner outer) :
    (inner.innerWindow w).width = (outer.outerWindow w).width := by
  unfold Chip.innerWindow Chip.outerWindow Wire.innerWindow Wire.outerWindow
  rw [width_getD_fullRange h.inner_pos h.inner_le, width_getD_fullRange h.outer_pos h.outer_le,
    h.joins.sameWidth]

theorem width_pos (h : w.Ends inner outer) : 0 < (outer.outerWindow w).width := by
  rw [← h.width_eq, Chip.innerWindow, Wire.innerWindow, width_getD_fullRange h.inner_pos h.inner_le]
  unfold endWidth
  split
  · next r hr =>
    have hfits := h.joins.innerFits r hr
    have hle := h.inner_le
    rw [BitRange.width_eq hfits.1 (by simp only [max32, maxWidth] at *; omega)]
    exact Nat.succ_pos _
  · exact h.inner_pos

theorem width_le (h : w.Ends inner outer) : (outer.outerWindow w).width ≤ maxWidth := by
  have hlast := h.inner_last_lt
  rw [← h.width_eq]
  refine Nat.le_of_not_lt fun hlt => ?_
  have hle := BitRange.le_last_of_lt_width hlt
  rw [maxWidth] at hle
  omega

/-- The outer window of a wire that wraps around has no bit of a cell. -/
theorem outer_beyond (h : w.Ends inner outer) (hw : w.WrapsAround) :
    64 ≤ (outer.outerWindow w).first := by
  obtain ⟨r, hr, hwrap⟩ := hw
  have hwindow : outer.outerWindow w = r := by
    rw [Chip.outerWindow, Wire.outerWindow, hr, Option.getD_some]
  rw [hwindow]
  exact hwrap.beyond (hwindow ▸ h.width_pos) (hwindow ▸ h.width_le)

end Wire.Ends

end ChipLogic
