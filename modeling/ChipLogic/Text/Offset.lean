/-!
# Byte offsets

Places in a text are counted in bytes of its UTF-8 form. A text is cut at an offset between two
characters; an offset inside a character is taken back to the character's start.
-/

namespace ChipLogic

/-- The number of bytes of a text in UTF-8. -/
def byteLength : List Char → Nat
  | [] => 0
  | c :: cs => c.utf8Size + byteLength cs

theorem byteLength_append (cs ds : List Char) :
    byteLength (cs ++ ds) = byteLength cs + byteLength ds := by
  induction cs with
  | nil => simp [byteLength]
  | cons c cs ih => simp [byteLength, ih, Nat.add_assoc]

/-- The characters that lie wholly before a byte offset, and the others. -/
def cutAt : Nat → List Char → List Char × List Char
  | _, [] => ([], [])
  | offset, c :: cs =>
    if c.utf8Size ≤ offset then
      let (before, after) := cutAt (offset - c.utf8Size) cs
      (c :: before, after)
    else ([], c :: cs)

/-- Cutting where two texts meet gives them back. -/
theorem cutAt_byteLength (cs ds : List Char) : cutAt (byteLength cs) (cs ++ ds) = (cs, ds) := by
  induction cs with
  | nil => cases ds with
    | nil => rfl
    | cons d ds => simp [cutAt, byteLength, Nat.not_le.2 d.utf8Size_pos]
  | cons c cs ih => simp [cutAt, byteLength, ih]

/-- The bytes `start..stop` of a text. -/
def slice (start stop : Nat) (text : List Char) : List Char :=
  (cutAt (stop - start) (cutAt start text).2).1

end ChipLogic
