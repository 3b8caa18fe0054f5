import ChipLogic.Proofs.Netlist.Windows
import ChipLogic.Sim.Window

/-!
# Bits behind windows

A cell is its bits (`bitAt`, `eq_of_bitAt`), and each operation on cells is known by the bits of its
result. A window inside the word has a bit for each of its places (`BitRange.Covers`), so what is
put into it comes out again (`BitRange.extract_insert`). A window beyond the word has no bit: it
reads as zero, and what is put into it is lost (`BitRange.insert_of_beyond`).
-/

namespace ChipLogic

variable {a b c cell value : UInt64}

/-- The bit of a cell at a position; from 64 on there is none. -/
def bitAt (cell : UInt64) (i : Nat) : Bool :=
  cell.toBitVec.getLsbD i

theorem eq_of_bitAt (h : ∀ i, bitAt a i = bitAt b i) : a = b := by
  apply UInt64.toBitVec_inj.1
  apply BitVec.eq_of_getLsbD_eq
  intro i _
  exact h i

theorem bitAt_of_le {i : Nat} (hi : 64 ≤ i) : bitAt cell i = false :=
  BitVec.getLsbD_of_ge _ _ hi

@[simp] theorem bitAt_zero (i : Nat) : bitAt 0 i = false := by
  simp [bitAt]

@[simp] theorem bitAt_and (i : Nat) : bitAt (a &&& b) i = (bitAt a i && bitAt b i) := by
  simp [bitAt]

@[simp] theorem bitAt_or (i : Nat) : bitAt (a ||| b) i = (bitAt a i || bitAt b i) := by
  simp [bitAt]

@[simp] theorem bitAt_not (i : Nat) : bitAt (~~~a) i = (decide (i < 64) && !bitAt a i) := by
  simp [bitAt]

theorem bitAt_lowMask (width i : Nat) :
    bitAt (lowMask width) i = decide (i < width ∧ i < 64) := by
  unfold lowMask
  split
  · next hw =>
    have hpow : 2 ^ width < 2 ^ 64 := Nat.pow_lt_pow_right (by decide) hw
    have hpos : 1 ≤ 2 ^ width := Nat.one_le_two_pow
    have hplace : width.toUInt64.toNat = width :=
      UInt64.toNat_ofNat_of_lt' (Nat.lt_trans hw (by decide))
    have hbit : (1 <<< width.toUInt64 : UInt64).toNat = 2 ^ width := by
      rw [UInt64.toNat_shiftLeft, hplace, Nat.mod_eq_of_lt hw, UInt64.toNat_one, Nat.one_shiftLeft,
        Nat.mod_eq_of_lt hpow]
    have hmask : ((1 <<< width.toUInt64) - 1 : UInt64).toNat = 2 ^ width - 1 := by
      rw [UInt64.toNat_sub_of_le, hbit, UInt64.toNat_one]
      rw [UInt64.le_iff_toNat_le, hbit, UInt64.toNat_one]
      exact hpos
    show ((1 <<< width.toUInt64) - 1 : UInt64).toNat.testBit i = _
    rw [hmask, Nat.testBit_two_pow_sub_one, decide_eq_decide]
    omega
  · by_cases hi : i < 64
    · rw [bitAt_not, bitAt_zero, decide_eq_true hi, decide_eq_true ⟨by omega, hi⟩]
      rfl
    · rw [bitAt_of_le (by omega), decide_eq_false (by omega)]

theorem toNat_places {places : Nat} (h : places < 64) :
    (places.toUInt64.toBitVec % 64).toNat = places := by
  show (places % 2 ^ 64) % 64 = places
  omega

theorem bitAt_shiftUp (cell : UInt64) (places i : Nat) :
    bitAt (shiftUp cell places) i = (decide (places ≤ i ∧ i < 64) && bitAt cell (i - places)) := by
  unfold shiftUp
  split
  · next hp =>
    rw [bitAt, UInt64.toBitVec_shiftLeft, BitVec.shiftLeft_eq', toNat_places hp,
      BitVec.getLsbD_shiftLeft, bitAt, ← decide_not, ← Bool.decide_and]
    congr 1
    rw [decide_eq_decide]
    omega
  · next hp =>
    rw [bitAt_zero, decide_eq_false (by omega), Bool.false_and]

theorem bitAt_shiftDown (cell : UInt64) (places i : Nat) :
    bitAt (shiftDown cell places) i = bitAt cell (i + places) := by
  unfold shiftDown
  split
  · next hp =>
    rw [bitAt, UInt64.toBitVec_shiftRight, BitVec.ushiftRight_eq', toNat_places hp,
      BitVec.getLsbD_ushiftRight, bitAt, Nat.add_comm]
  · rw [bitAt_zero, bitAt_of_le (by omega)]

/-! ## Windows -/

namespace BitRange

variable {r w : BitRange}

theorem bitAt_window (r : BitRange) (i : Nat) :
    bitAt r.window i = decide (r.first ≤ i ∧ i - r.first < r.width ∧ i < 64) := by
  rw [window, bitAt_shiftUp, bitAt_lowMask, ← Bool.decide_and, decide_eq_decide]
  omega

theorem covers_of_bitAt_window {i : Nat} (h : bitAt r.window i = true) : r.Covers i := by
  rw [bitAt_window, decide_eq_true_eq] at h
  have hle := le_last_of_lt_width h.2.1
  exact ⟨h.1, by omega⟩

theorem bitAt_window_of_counted (hr : r.Counted) (i : Nat) :
    bitAt r.window i = decide (r.Covers i ∧ i < 64) := by
  rw [bitAt_window, decide_eq_decide, Covers, lt_width_iff hr]
  omega

theorem bitAt_extract (r : BitRange) (cell : UInt64) (i : Nat) :
    bitAt (r.extract cell) i = (bitAt r.window (r.first + i) && bitAt cell (r.first + i)) := by
  rw [extract, bitAt_shiftDown, bitAt_and, Nat.add_comm, Bool.and_comm]

theorem bitAt_insert (r : BitRange) (cell value : UInt64) (i : Nat) :
    bitAt (r.insert cell value) i =
      if bitAt r.window i then bitAt value (i - r.first) else bitAt cell i := by
  rw [insert, bitAt_or, bitAt_and, bitAt_and, bitAt_not, bitAt_shiftUp]
  cases hc : bitAt r.window i with
  | true =>
    have hcov := (covers_of_bitAt_window hc).1
    have hi : i < 64 := Nat.lt_of_not_le fun h => by rw [bitAt_of_le h] at hc; cases hc
    simp [hcov, hi]
  | false =>
    by_cases hi : i < 64
    · simp [hi]
    · simp [bitAt_of_le (Nat.le_of_not_lt hi)]

/-- Bits that the range does not have stay as they are. -/
theorem bitAt_insert_of_not_covers {i : Nat} (h : ¬ r.Covers i) (cell value : UInt64) :
    bitAt (r.insert cell value) i = bitAt cell i := by
  rw [bitAt_insert, if_neg fun hw => h (covers_of_bitAt_window hw)]

/-- The value of a window has no bits beyond its width. -/
theorem extract_and_lowMask (r : BitRange) (cell : UInt64) :
    r.extract cell &&& lowMask r.width = r.extract cell := by
  apply eq_of_bitAt
  intro i
  rw [bitAt_and, bitAt_extract, bitAt_lowMask, bitAt_window, Nat.add_sub_cancel_left]
  by_cases hi : i < 64
  · by_cases hw : i < r.width <;> simp [hi, hw]
  · have hnone : bitAt cell (r.first + i) = false := bitAt_of_le (by omega)
    simp [hnone]

/-- **What is put into a window comes out again**, if the window lies inside the word. -/
theorem extract_insert (hr : r.last < 64) (hv : value &&& lowMask r.width = value) :
    r.extract (r.insert cell value) = value := by
  apply eq_of_bitAt
  intro i
  rw [bitAt_extract, bitAt_insert, bitAt_window, Nat.add_sub_cancel_left]
  by_cases hw : i < r.width
  · have hi := le_last_of_lt_width hw
    simp [hw, show r.first + i < 64 by omega]
  · rw [← hv, bitAt_and, bitAt_lowMask, decide_eq_false fun h => hw h.2.1,
      decide_eq_false fun h => hw h.1, Bool.false_and, Bool.and_false]

/-- A window is copied into one of the same width. -/
theorem extract_insert_extract (hr : r.last < 64) (hw : w.width = r.width) (cell other : UInt64) :
    r.extract (r.insert cell (w.extract other)) = w.extract other :=
  extract_insert hr (hw ▸ w.extract_and_lowMask other)

/-- Nothing happens if the window has the value already. -/
theorem insert_extract (r : BitRange) (cell : UInt64) : r.insert cell (r.extract cell) = cell := by
  apply eq_of_bitAt
  intro i
  rw [bitAt_insert]
  split
  · next h =>
    have hcov := (covers_of_bitAt_window h).1
    rw [bitAt_extract, Nat.add_sub_cancel' hcov, h, Bool.true_and]
  · rfl

/-! ## Windows beyond the word -/

theorem window_of_beyond (h : 64 ≤ r.first) : r.window = 0 := by
  apply eq_of_bitAt
  intro i
  rw [bitAt_window, bitAt_zero, decide_eq_false (by omega)]

/-- Nothing is read from a window beyond the word. -/
theorem extract_of_beyond (h : 64 ≤ r.first) (cell : UInt64) : r.extract cell = 0 := by
  apply eq_of_bitAt
  intro i
  rw [bitAt_extract, window_of_beyond h, bitAt_zero, bitAt_zero, Bool.false_and]

/-- Nothing is written to a window beyond the word. -/
theorem insert_of_beyond (h : 64 ≤ r.first) (cell value : UInt64) : r.insert cell value = cell := by
  apply eq_of_bitAt
  intro i
  rw [bitAt_insert, window_of_beyond h, bitAt_zero, if_neg Bool.false_ne_true]

end BitRange

end ChipLogic
