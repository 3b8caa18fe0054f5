import ChipLogic.Chip.Range

/-!
# Windows on cells

A **cell** holds the value of a pin in the low bits of a 64-bit word. A range of bits is a window on
a cell: its value can be read right-aligned (`BitRange.extract`) and written without touching the
other bits (`BitRange.insert`). Bits beyond the word read as zero and writes to them are lost, and a
reversed range is a window of no bits.
-/

namespace ChipLogic

/-- Moves bits up by any number of places; those that leave the word are lost. -/
def shiftUp (cell : UInt64) (places : Nat) : UInt64 :=
  if places < 64 then cell <<< places.toUInt64 else 0

/-- Moves bits down by any number of places; those that leave the word are lost. -/
def shiftDown (cell : UInt64) (places : Nat) : UInt64 :=
  if places < 64 then cell >>> places.toUInt64 else 0

/-- The word whose low `width` bits are set, all of them from 64 on. -/
def lowMask (width : Nat) : UInt64 :=
  if width < 64 then (1 <<< width.toUInt64) - 1 else ~~~0

namespace BitRange

/-- The bits of the range, set. -/
def window (r : BitRange) : UInt64 :=
  shiftUp (lowMask r.width) r.first

/-- The value in the window. -/
def extract (r : BitRange) (cell : UInt64) : UInt64 :=
  shiftDown (cell &&& r.window) r.first

/-- The cell with the low bits of a value in the window. -/
def insert (r : BitRange) (cell value : UInt64) : UInt64 :=
  (cell &&& ~~~r.window) ||| (shiftUp value r.first &&& r.window)

end BitRange

end ChipLogic
