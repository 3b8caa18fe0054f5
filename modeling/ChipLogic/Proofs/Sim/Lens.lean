import ChipLogic.Proofs.Sim.Window
import Mathlib.Algebra.Ring.Nat
import Mathlib.Order.Interval.Finset.Nat

/-!
# The laws of windows

To read and to write a window are a pair of operations like that for a field of a record. They obey
the laws of such pairs, at every boundary of the word: windows may be cut off at its last bit, lie
beyond it, fill it, or have no bits at all.

**By bits.** A window has the bits of its range that lie inside the word. Each law compares two
words, and two words are equal if their bits are (`eq_of_bitAt`). So a law is a question about a
single position, and to answer it is to compare the position with the ends of the range.

**Theorem (`BitRange.window_exact`).** The bits of a window, of what is read from it and of what is
written to it are those of the range. What is written is read again but for the bits that have no
room. To write what was read changes nothing, a second write undoes the first, and windows without a
common bit do not touch each other.
-/

namespace ChipLogic

theorem testBit_toNat (cell : UInt64) (i : Nat) : cell.toNat.testBit i = bitAt cell i := rfl

namespace BitRange

variable {r w : BitRange}

/-- The number of bits of the window. -/
def room (r : BitRange) : Nat :=
  ((Finset.range 64).filter fun i => bitAt r.window i = true).card

/-- They are those of the range below 64. -/
theorem room_eq (hr : r.Counted) : r.room = min (r.last + 1) 64 - r.first := by
  have hbits : ((Finset.range 64).filter fun i => bitAt r.window i = true) =
      Finset.Ico r.first (min (r.last + 1) 64) := by
    ext i
    rw [Finset.mem_filter, Finset.mem_range, Finset.mem_Ico, bitAt_window_of_counted hr,
      decide_eq_true_eq]
    unfold Covers
    omega
  rw [room, hbits, Nat.card_Ico]

/-- The windows have no bit in common. -/
def Apart (r w : BitRange) : Prop :=
  r.window &&& w.window = 0

instance (r w : BitRange) : Decidable (r.Apart w) :=
  inferInstanceAs (Decidable (_ = _))

theorem Apart.symm (h : r.Apart w) : w.Apart r := by
  unfold Apart
  rw [UInt64.and_comm]
  exact h

theorem Apart.bitAt_window (h : r.Apart w) {i : Nat} (hr : bitAt r.window i = true) :
    bitAt w.window i = false := by
  have hboth : bitAt (r.window &&& w.window) i = false := by rw [h, bitAt_zero]
  rwa [bitAt_and, hr, Bool.true_and] at hboth

/-- **What is put into a window comes out again**, but for the bits that have no room in it. -/
theorem toNat_extract_insert (hr : r.Counted) (cell value : UInt64) :
    (r.extract (r.insert cell value)).toNat = value.toNat % 2 ^ r.room := by
  apply Nat.eq_of_testBit_eq
  intro i
  rw [Nat.testBit_mod_two_pow, testBit_toNat, testBit_toNat, bitAt_extract, bitAt_insert,
    room_eq hr, bitAt_window_of_counted hr, Nat.add_sub_cancel_left]
  have hroom : r.Covers (r.first + i) ∧ r.first + i < 64 ↔
      i < min (r.last + 1) 64 - r.first := by
    unfold Covers
    omega
  by_cases hi : i < min (r.last + 1) 64 - r.first
  · simp [hi, hroom.2 hi]
  · simp [hi, decide_eq_false fun h => hi (hroom.1 h)]

/-- A second value takes the place of the first. -/
theorem insert_insert (r : BitRange) (cell first second : UInt64) :
    r.insert (r.insert cell first) second = r.insert cell second := by
  apply eq_of_bitAt
  intro i
  cases h : bitAt r.window i <;> simp [bitAt_insert, h]

/-- Values go into windows that are apart in either order. -/
theorem Apart.insert_comm (h : r.Apart w) (cell value other : UInt64) :
    w.insert (r.insert cell value) other = r.insert (w.insert cell other) value := by
  apply eq_of_bitAt
  intro i
  cases hr : bitAt r.window i with
  | true => simp [bitAt_insert, hr, h.bitAt_window hr]
  | false => simp [bitAt_insert, hr]

/-- A value in one window is not seen in a window that is apart from it. -/
theorem Apart.extract_insert (h : r.Apart w) (cell value : UInt64) :
    w.extract (r.insert cell value) = w.extract cell := by
  apply eq_of_bitAt
  intro i
  rw [bitAt_extract, bitAt_extract, bitAt_insert]
  split
  · next hr => rw [h.bitAt_window hr, Bool.false_and, Bool.false_and]
  · rfl

/-- **Windows are exact at every boundary.** A window has the bits of its range that lie inside the
word; reading moves them down to the first position, and writing moves a value up to them and
leaves all others as they are. (The last bit is none at the very last position of 32 bits, so that
the bits can be counted.) So what comes out is what went in, modulo two to the power of the
number of these bits; what came out goes in without a change; the last value that went in stays; and
windows that are apart can be written in either order and read as if the other had not been
written. -/
theorem window_exact (r : BitRange) (hr : r.last < max32) (cell value : UInt64) :
    (∀ i, bitAt r.window i = true ↔ r.first ≤ i ∧ i ≤ r.last ∧ i < 64) ∧
      (∀ j, bitAt (r.extract cell) j =
        if r.first + j ≤ min r.last 63 then bitAt cell (r.first + j) else false) ∧
      (∀ i, bitAt (r.insert cell value) i =
        if r.first ≤ i ∧ i ≤ r.last ∧ i < 64 then bitAt value (i - r.first) else bitAt cell i) ∧
      (r.extract (r.insert cell value)).toNat = value.toNat % 2 ^ r.room ∧
      r.insert cell (r.extract cell) = cell ∧
      (∀ again, r.insert (r.insert cell value) again = r.insert cell again) ∧
      ∀ w other, r.Apart w →
        w.insert (r.insert cell value) other = r.insert (w.insert cell other) value ∧
          w.extract (r.insert cell value) = w.extract cell ∧
          r.extract (w.insert cell other) = r.extract cell := by
  have hcount : r.Counted := .of_last_lt hr
  refine ⟨fun i => ?_, fun j => ?_, fun i => ?_, toNat_extract_insert hcount cell value,
    r.insert_extract cell, r.insert_insert cell value, fun w other h => ?_⟩
  · rw [bitAt_window_of_counted hcount, decide_eq_true_eq, Covers, and_assoc]
  · rw [bitAt_extract, bitAt_window_of_counted hcount]
    have hiff : r.Covers (r.first + j) ∧ r.first + j < 64 ↔ r.first + j ≤ min r.last 63 := by
      unfold Covers
      omega
    simp [hiff]
  · simp only [bitAt_insert, bitAt_window_of_counted hcount, Covers, and_assoc, decide_eq_true_eq]
  · exact ⟨h.insert_comm cell value other, h.extract_insert cell value,
      h.symm.extract_insert cell other⟩

/-- A window that is cut off after four bits, and one beside it. -/
theorem window_exact_cut :
    (BitRange.mk 60 70).Apart ⟨4, 59⟩ ∧
      ((BitRange.mk 60 70).extract ((BitRange.mk 60 70).insert 0xff 0x123)).toNat = 0x123 % 2 ^ 4 ∧
      (BitRange.mk 4 59).extract ((BitRange.mk 60 70).insert 0xff 0x123) = 0xf := by
  have hapart : (BitRange.mk 60 70).Apart ⟨4, 59⟩ := by decide
  obtain ⟨-, -, -, hread, -, -, hothers⟩ := window_exact ⟨60, 70⟩ (by decide) 0xff 0x123
  obtain ⟨-, hunseen, -⟩ := hothers ⟨4, 59⟩ 0 hapart
  refine ⟨hapart, hread, ?_⟩
  rw [hunseen]
  decide

end BitRange

end ChipLogic
