import ChipLogic.Chip.Pin
import ChipLogic.Slots

/-!
# Tables of pins

The pins of a chip are kept in two tables: by position, each with its number (`PinTable.slots`), and
by key (`PinTable.byKey`). A pin is only ever added after the others (`PinTable.push`), which writes
to both, and this keeps them **in agreement**: a pin has the number of its position, and a key is
found where the last pin that has it stands. A table that is not in agreement cannot be built.
-/

namespace ChipLogic

open Numbered (items)

/-- Pins by position and by key, in agreement. -/
structure PinTable where
  slots : Array (Numbered Pin)
  byKey : KeyIndex
  inPlace : InPlace slots
  agrees : byKey.Agrees Pin.key (items slots).toList
  deriving DecidableEq, Repr

namespace PinTable

def empty : PinTable where
  slots := #[]
  byKey := {}
  inPlace := .empty
  agrees := .empty Pin.key

instance : Inhabited PinTable := ⟨empty⟩

/-- The pins in order. -/
def pins (t : PinTable) : Array Pin := items t.slots

/-- Adds a pin after the others and enters its key. -/
def push (t : PinTable) (p : Pin) : PinTable where
  slots := t.slots.push ⟨t.slots.size, p⟩
  byKey := t.byKey.insert p.key t.slots.size
  inPlace := t.inPlace.push p
  agrees := by
    have h := t.agrees.insert p
    rw [Array.length_toList, Numbered.size_items] at h
    rwa [Numbered.items_push, Array.toList_push]

/-- The table of pins that are added in order. -/
def ofPins (pins : Array Pin) : PinTable := pins.toList.foldl push empty

@[simp]
theorem pins_empty : empty.pins = #[] := rfl

@[simp]
theorem pins_push (t : PinTable) (p : Pin) : (t.push p).pins = t.pins.push p :=
  Numbered.items_push t.slots _

@[simp]
theorem pins_ofPins (pins : Array Pin) : (ofPins pins).pins = pins := by
  have h : ∀ (ps : List Pin) (t : PinTable), (ps.foldl push t).pins = t.pins ++ ps := by
    intro ps
    induction ps with
    | nil => simp
    | cons p ps ih => intro t; simp [ih]
  rw [ofPins, h]
  simp

/-- The table of keys gives the last pin that has the key. -/
theorem find?_byKey (t : PinTable) (key : String) :
    t.byKey.find? key = findPin? t.pins key :=
  t.agrees key

/-- The pin at a position knows that position. -/
theorem getElem?_slots (t : PinTable) (i : Nat) :
    t.slots[i]? = t.pins[i]?.map fun p => ⟨i, p⟩ := by
  cases hp : t.pins[i]? with
  | none => rwa [pins, Numbered.getElem?_items, Option.map_eq_none_iff] at hp
  | some p => exact t.inPlace.slot_eq hp

theorem mem_slots_iff (t : PinTable) {slot : Numbered Pin} :
    slot ∈ t.slots.toList ↔ t.pins[slot.index]? = some slot.item := by
  constructor
  · intro h
    obtain ⟨i, hi⟩ := List.mem_iff_getElem?.1 h
    rw [Array.getElem?_toList] at hi
    obtain rfl := t.inPlace i slot hi
    rw [pins, Numbered.getElem?_items, hi, Option.map_some]
  · intro h
    have hslot := t.getElem?_slots slot.index
    rw [h, Option.map_some] at hslot
    exact Array.mem_toList_iff.2 (Array.mem_of_getElem? hslot)

end PinTable

end ChipLogic
