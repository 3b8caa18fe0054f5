/-!
# Case folding

Chip and pin names ignore ASCII case: `Nand`, `NAND` and `nand` name one chip. Two names are the
same name when they have the same **key** (`foldCase`). Letters outside ASCII are told apart.
-/

namespace ChipLogic

/-- The lookup key of a name: its text with ASCII capitals made small. -/
def foldCase (name : String) : String :=
  String.ofList (name.toList.map Char.toLower)

theorem toList_foldCase (name : String) :
    (foldCase name).toList = name.toList.map Char.toLower := by
  simp [foldCase]

end ChipLogic
