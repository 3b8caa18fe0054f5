/-!
# Bit ranges

A range names bits of a pin by its first and its last bit. Ranges come as they were written, so a
range may be reversed; such a range covers no bit.

**Positions have 32 bits.** After the greatest of them comes zero (`next32`), so a range that ends
there has no number for the position after it (`BitRange.WrapsAround`): the width of a pin that such
a range asks for comes out as zero (`BitRange.extent`), and so does the number of its bits if it has
all of them.
-/

namespace ChipLogic

/-- The greatest number of 32 bits. -/
def max32 : Nat := 0xFFFFFFFF

/-- The number after another one, in 32 bits. -/
def next32 (n : Nat) : Nat :=
  if n = max32 then 0 else n + 1

theorem next32_of_ne {n : Nat} (h : n ≠ max32) : next32 n = n + 1 := if_neg h

theorem next32_max32 : next32 max32 = 0 := if_pos rfl

/-- On numbers of 32 bits it is addition as a machine does it. -/
theorem next32_eq_mod {n : Nat} (h : n ≤ max32) : next32 n = (n + 1) % (max32 + 1) := by
  unfold next32 max32 at *
  split <;> omega

/-- The bits from `first` to `last`, both included. -/
structure BitRange where
  first : Nat
  last : Nat
  deriving DecidableEq, Repr, Inhabited

namespace BitRange

/-- The range of one bit. -/
def bit (index : Nat) : BitRange := ⟨index, index⟩

/-- The range of all bits of a pin. -/
def full (width : Nat) : BitRange := ⟨0, width - 1⟩

def isOrdered (r : BitRange) : Bool := r.first ≤ r.last

/-- The number of bits covered, counted in 32 bits. -/
def width (r : BitRange) : Nat :=
  if r.isOrdered then next32 (r.last - r.first) else 0

/-- The width of a pin that just has the last bit, counted in 32 bits. -/
def extent (r : BitRange) : Nat := next32 r.last

/-- The range lies inside a pin of the given width. -/
def fits (r : BitRange) (width : Nat) : Bool :=
  r.isOrdered && r.last < width

/-- A range as it is written: one number if it is one bit. -/
def text (r : BitRange) : String :=
  if r.first = r.last then s!"[{r.first}]" else s!"[{r.first}..{r.last}]"

theorem isOrdered_iff {r : BitRange} : r.isOrdered ↔ r.first ≤ r.last := decide_eq_true_iff

theorem fits_iff {r : BitRange} {width : Nat} :
    r.fits width ↔ r.first ≤ r.last ∧ r.last < width := by
  simp [fits, isOrdered]

theorem isOrdered_of_fits {r : BitRange} {width : Nat} (h : r.fits width) : r.isOrdered :=
  decide_eq_true (fits_iff.1 h).1

/-! ## Ranges without a position after them -/

/-- No position comes after the last bit, which the range has. -/
def WrapsAround (r : BitRange) : Prop := r.first ≤ r.last ∧ r.last = max32

instance (r : BitRange) : Decidable r.WrapsAround :=
  inferInstanceAs (Decidable (_ ∧ _))

variable {r : BitRange}

theorem WrapsAround.isOrdered (h : r.WrapsAround) : r.isOrdered := isOrdered_iff.2 h.1

theorem WrapsAround.extent_eq (h : r.WrapsAround) : r.extent = 0 := by
  rw [extent, h.2, next32_max32]

theorem WrapsAround.not_fits (h : r.WrapsAround) {width : Nat} (hle : width ≤ max32) :
    ¬ r.fits width := fun hfits => by
  have hlast := (fits_iff.1 hfits).2
  rw [h.2] at hlast
  omega

theorem extent_of_ne (h : r.last ≠ max32) : r.extent = r.last + 1 := next32_of_ne h

theorem extent_eq (ho : r.isOrdered) (h : ¬ r.WrapsAround) : r.extent = r.last + 1 :=
  extent_of_ne fun hlast => h ⟨isOrdered_iff.1 ho, hlast⟩

/-- A pin that has the range, and one that the range wraps around, have the bits asked for. -/
theorem extent_le {width : Nat} (h : r.first ≤ r.last ∧ r.last < width ∨ r.WrapsAround) :
    r.extent ≤ width := by
  by_cases hwrap : r.WrapsAround
  · rw [hwrap.extent_eq]
    exact Nat.zero_le _
  · obtain ⟨ho, hlast⟩ := h.resolve_right hwrap
    rw [extent_eq (isOrdered_iff.2 ho) hwrap]
    exact hlast

/-- The width is right for all ranges but the one of all positions. -/
theorem width_eq (ho : r.first ≤ r.last) (h : r.last - r.first ≠ max32) :
    r.width = r.last - r.first + 1 := by
  rw [width, if_pos (isOrdered_iff.2 ho), next32_of_ne h]

theorem width_full {width : Nat} (h : 0 < width) (hle : width ≤ max32) :
    (full width).width = width := by
  rw [width_eq (Nat.zero_le _) (by simp only [full]; omega)]
  simp only [full]
  omega

end BitRange

end ChipLogic
