/-!
# Numbered slots

A table that only grows. Each item is addressed by its position (`Slots.get?`), which it keeps for
good: adding an item (`Slots.push`) or replacing one (`Slots.set`) moves no other. Positions are
shown as `#0`, `#1` and so on (`handle`).

**Items that know their position** (`Numbered`). Pins and parts carry their position along, so that
it is at hand where only the item is. It is a copy of what the table says anyway: who builds a table
keeps every item in its place (`InPlace`), and then the items alone tell all (`InPlace.ext`).
-/

namespace ChipLogic

/-- How a position is shown. -/
def handle (position : Nat) : String :=
  s!"#{position}"

/-- Items in the order in which they were added. -/
structure Slots (α : Type) where
  items : Array α := #[]

namespace Slots

variable {α : Type}

/-- The number of items, which is the position of the next one. -/
def size (t : Slots α) : Nat := t.items.size

/-- The item at a position. -/
def get? (t : Slots α) (position : Nat) : Option α := t.items[position]?

/-- Adds an item after the others. -/
def push (t : Slots α) (item : α) : Slots α := ⟨t.items.push item⟩

/-- Replaces the item at a position; an unknown position changes nothing. -/
def set (t : Slots α) (position : Nat) (item : α) : Slots α :=
  ⟨t.items.setIfInBounds position item⟩

/-- All items with their positions. -/
def entries (t : Slots α) : List (Nat × α) :=
  t.items.toList.zipIdx.map fun (item, position) => (position, item)

end Slots

/-! ## Items that know their position -/

/-- An item of a table with its position there. -/
structure Numbered (α : Type) where
  index : Nat
  item : α
  deriving DecidableEq, Repr, Inhabited

namespace Numbered

variable {α β : Type}

/-- Changes the item and leaves it where it is. -/
def map (f : α → β) (slot : Numbered α) : Numbered β := ⟨slot.index, f slot.item⟩

/-- The items of a table. -/
def items (slots : Array (Numbered α)) : Array α := (slots.toList.map (·.item)).toArray

theorem getElem?_items (slots : Array (Numbered α)) (position : Nat) :
    (items slots)[position]? = slots[position]?.map (·.item) := by
  simp [items]

theorem toList_items (slots : Array (Numbered α)) :
    (items slots).toList = slots.toList.map (·.item) := rfl

theorem mem_items {slots : Array (Numbered α)} {slot : Numbered α} (h : slot ∈ slots.toList) :
    slot.item ∈ items slots := by
  rw [← Array.mem_toList_iff, toList_items]
  exact List.mem_map_of_mem h

theorem exists_slot {slots : Array (Numbered α)} {x : α} (h : x ∈ items slots) :
    ∃ slot ∈ slots.toList, slot.item = x := by
  rwa [← Array.mem_toList_iff, toList_items, List.mem_map] at h

@[simp]
theorem items_push (slots : Array (Numbered α)) (slot : Numbered α) :
    items (slots.push slot) = (items slots).push slot.item := by
  simp [items]

@[simp]
theorem size_items (slots : Array (Numbered α)) : (items slots).size = slots.size := by
  simp [items]

theorem items_map (f : α → β) (slots : Array (Numbered α)) :
    items (slots.map (map f)) = (items slots).map f := by
  apply Array.ext_getElem?
  intro i
  simp [getElem?_items, map, Function.comp_def]

theorem items_modify (f : α → α) (slots : Array (Numbered α)) (position : Nat) :
    items (slots.modify position (map f)) = (items slots).modify position f := by
  apply Array.ext_getElem?
  intro i
  rw [getElem?_items, Array.getElem?_modify, Array.getElem?_modify, getElem?_items]
  split
  · cases slots[i]? <;> rfl
  · rfl

end Numbered

variable {α β : Type}

open Numbered (items)

/-- A table of items, numbered from zero. -/
def numbered (xs : Array α) : Array (Numbered α) :=
  (xs.toList.zipIdx.map fun (item, index) => ⟨index, item⟩).toArray

/-- Items in a row are numbered from zero where a table is asked for. -/
instance : Coe (Array α) (Array (Numbered α)) := ⟨numbered⟩

/-- Every item has the number of its position. -/
def InPlace (slots : Array (Numbered α)) : Prop :=
  ∀ (position : Nat) (slot : Numbered α), slots[position]? = some slot → slot.index = position

@[simp]
theorem items_numbered (xs : Array α) : items (numbered xs) = xs := by
  simp [items, numbered, Function.comp_def]

namespace InPlace

variable {slots slots' : Array (Numbered α)}

theorem empty : InPlace (#[] : Array (Numbered α)) := fun _ _ h => by simp at h

theorem numbered (xs : Array α) : InPlace (numbered xs) := by
  intro position slot h
  simp only [ChipLogic.numbered, List.getElem?_toArray, List.getElem?_map, List.getElem?_zipIdx,
    Option.map_eq_some_iff] at h
  obtain ⟨-, ⟨x, -, rfl⟩, rfl⟩ := h
  simp

/-- The next item takes the next number. -/
theorem push (h : InPlace slots) (x : α) : InPlace (slots.push ⟨slots.size, x⟩) := by
  intro position slot hslot
  rw [Array.getElem?_push] at hslot
  split at hslot
  · next hp => cases hslot; exact hp.symm
  · exact h position slot hslot

/-- A change of items moves none of them. -/
theorem map (h : InPlace slots) (f : α → β) : InPlace (slots.map (Numbered.map f)) := by
  intro position slot hslot
  rw [Array.getElem?_map, Option.map_eq_some_iff] at hslot
  obtain ⟨old, hold, rfl⟩ := hslot
  exact h position old hold

theorem modify (h : InPlace slots) (position : Nat) (f : α → α) :
    InPlace (slots.modify position (Numbered.map f)) := by
  intro i slot hslot
  rw [Array.getElem?_modify] at hslot
  split at hslot
  · obtain ⟨old, hold, rfl⟩ := Option.map_eq_some_iff.1 hslot
    exact h i old hold
  · exact h i slot hslot

/-- In place, the numbers say nothing that the items do not. -/
theorem eq_numbered (h : InPlace slots) : slots = ChipLogic.numbered (items slots) := by
  apply Array.ext_getElem?
  intro i
  cases hslot : slots[i]? with
  | none => simp [ChipLogic.numbered, Numbered.getElem?_items, hslot]
  | some slot =>
    obtain rfl := h i slot hslot
    simp [ChipLogic.numbered, Numbered.getElem?_items, hslot]

theorem ext (h : InPlace slots) (h' : InPlace slots') (he : items slots = items slots') :
    slots = slots' := by
  rw [h.eq_numbered, h'.eq_numbered, he]

theorem slot_eq (h : InPlace slots) {position : Nat} {x : α}
    (hx : (items slots)[position]? = some x) : slots[position]? = some ⟨position, x⟩ := by
  rw [Numbered.getElem?_items, Option.map_eq_some_iff] at hx
  obtain ⟨slot, hslot, rfl⟩ := hx
  rw [hslot, ← h position slot hslot]

/-- The items with their numbers are the items with their positions. -/
theorem map_toList (h : InPlace slots) (f : α → Nat → β) :
    slots.toList.map (fun slot => f slot.item slot.index) =
      (items slots).toList.zipIdx.map fun x => f x.1 x.2 := by
  apply List.ext_getElem?
  intro i
  rw [List.getElem?_map, List.getElem?_map, List.getElem?_zipIdx, Array.getElem?_toList,
    Array.getElem?_toList, Numbered.getElem?_items]
  cases hslot : slots[i]? with
  | none => rfl
  | some slot =>
    obtain rfl := h i slot hslot
    simp

/-- No number is used twice. -/
theorem nodup_index (h : InPlace slots) : (slots.toList.map (·.index)).Nodup := by
  rw [h.map_toList fun _ index => index]
  have hrange := List.zipIdx_map_snd 0 (items slots).toList
  rw [hrange]
  exact List.nodup_range'

end InPlace

end ChipLogic
