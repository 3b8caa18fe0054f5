/-!
# Alignment

Text in a column: at its left end, or centred. An odd blank goes to the right.
-/

namespace ChipLogic

/-- A text at the left end of a column of the given number of characters. -/
def leftAligned (width : Nat) (text : List Char) : List Char :=
  text.rightpad width ' '

/-- A text centred in a column of the given number of characters. -/
def centred (width : Nat) (text : List Char) : List Char :=
  let room := width - text.length
  List.replicate (room / 2) ' ' ++ text ++ List.replicate (room - room / 2) ' '

theorem length_centred (width : Nat) (text : List Char) :
    (centred width text).length = max width text.length := by
  simp only [centred, List.length_append, List.length_replicate]
  omega

end ChipLogic
