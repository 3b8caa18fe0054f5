import ChipLogic.Proofs.Netlist.WellFormed
import Mathlib.Data.List.Forall2
import Mathlib.Data.List.Nodup
import Mathlib.Logic.Relation

/-!
# Copies under other numbers

A netlist can be a copy of chips that stand elsewhere, in a session or in another netlist, under
numbers of their own. The **image** of the copy lists these numbers: chip `k` of the netlist comes
from chip `image[k]`. A chip **mirrors** the one it comes from (`Chip.Mirrors`) if they differ in
nothing but the numbers of the chips of their parts, and these go together by the image.

A netlist is a copy of all there is inside some chip (`Netlist.CopyOf`) if the image is one to one
onto the chips that are reached from it. Two copies made from one collection, one of them starting
inside the other, are copies of each other as far as they overlap (`Netlist.CopyOf.within`).
-/

namespace ChipLogic

/-- Two relations along lists, one after the other. -/
theorem forall₂_comp {α β γ : Type} {R : α → β → Prop} {S : β → γ → Prop} {xs : List α}
    {ys : List β} {zs : List γ} (h : List.Forall₂ R xs ys) (h' : List.Forall₂ S ys zs) :
    List.Forall₂ (Relation.Comp R S) xs zs := by
  induction h generalizing zs with
  | nil =>
    cases h'
    exact .nil
  | cons hxy _ ih =>
    cases h' with
    | cons hyz hyzs => exact .cons ⟨_, hxy, hyz⟩ (ih hyzs)

theorem forall₂_of_mem_right {α β : Type} {R : α → β → Prop} {xs : List α} {ys : List β}
    (h : List.Forall₂ R xs ys) {x : α} (hx : x ∈ xs) : ∃ y ∈ ys, R x y := by
  induction h with
  | nil => cases hx
  | cons hxy _ ih =>
    rcases List.mem_cons.1 hx with rfl | hx
    · exact ⟨_, List.mem_cons_self, hxy⟩
    · obtain ⟨y, hy, hr⟩ := ih hx
      exact ⟨y, List.mem_cons_of_mem _ hy, hr⟩

/-! ## Mirrored chips -/

/-- The parts are the same, and the chip of the first comes from the chip of the second. -/
structure Instance.Mirrors (image : List Nat) (p q : Instance) : Prop where
  name : p.name = q.name
  wires : p.wires = q.wires
  span : p.span = q.span
  chip : image[p.chip]? = some q.chip

/-- The parts carry the same number. -/
structure Instance.MirrorsSlot (image : List Nat) (p q : Numbered Instance) : Prop where
  index : p.index = q.index
  item : p.item.Mirrors image q.item

/-- The chips are the same but for the numbers of the chips of their parts. -/
structure Chip.Mirrors (image : List Nat) (c d : Chip) : Prop where
  name : c.name = d.name
  kind : c.kind = d.kind
  pins : c.pinSlots = d.pinSlots
  parts : List.Forall₂ (Instance.MirrorsSlot image) c.partSlots.toList d.partSlots.toList

/-- The netlist is a copy of the chips that are reached from `start`, each of them once and `start`
first. -/
structure Netlist.CopyOf (n : Netlist) (chips : Nat → Option Chip) (uses : Nat → Nat → Prop)
    (start : Nat) (image : List Nat) : Prop where
  top : n.top = 0
  first : image[0]? = some start
  nodup : image.Nodup
  size : n.size = image.length
  mem : ∀ x, x ∈ image ↔ Relation.ReflTransGen uses start x
  chip : ∀ k x, image[k]? = some x →
    ∃ c d, n.chip? k = some c ∧ chips x = some d ∧ c.Mirrors image d

namespace Netlist.CopyOf

variable {n n' : Netlist} {chips : Nat → Option Chip} {uses : Nat → Nat → Prop}
  {start x y i j k : Nat} {image image' : List Nat}

theorem index_unique (h : n.CopyOf chips uses start image) (hj : image[j]? = some x)
    (hk : image[k]? = some x) : j = k := by
  obtain ⟨hlt, -⟩ := List.getElem?_eq_some_iff.1 hj
  exact (List.getElem?_inj hlt h.nodup).1 (hj.trans hk.symm)

section

variable (huses : ∀ y d, chips y = some d → ∀ z, uses y z ↔ ∃ q ∈ d.parts, q.chip = z)
include huses

/-- Chips of the netlist have parts where the chips that they come from have them. -/
theorem instantiates_iff (h : n.CopyOf chips uses start image) (hj : image[j]? = some y) :
    n.Instantiates j k ↔ ∃ z, image[k]? = some z ∧ uses y z := by
  obtain ⟨c, d, hc, hd, hm⟩ := h.chip j y hj
  constructor
  · rintro ⟨c', hc', p, hp, rfl⟩
    rw [hc, Option.some.injEq] at hc'
    subst hc'
    obtain ⟨slot, hslot, rfl⟩ := Numbered.exists_slot hp
    obtain ⟨q, hq, hpq⟩ := forall₂_of_mem_right hm.parts hslot
    exact ⟨q.item.chip, hpq.item.chip, (huses y d hd _).2 ⟨q.item, Numbered.mem_items hq, rfl⟩⟩
  · rintro ⟨z, hz, hyz⟩
    obtain ⟨q, hq, rfl⟩ := (huses y d hd z).1 hyz
    obtain ⟨slot, hslot, rfl⟩ := Numbered.exists_slot hq
    obtain ⟨p, hp, hpq⟩ := forall₂_of_mem_right hm.parts.flip hslot
    exact ⟨c, hc, p.item, Numbered.mem_items hp, h.index_unique hpq.item.chip hz⟩

/-- What is inside a chip of the netlist comes from what is inside the other chip. -/
theorem reflTransGen_iff (h : n.CopyOf chips uses start image) (hi : image[i]? = some x) :
    Relation.ReflTransGen n.Instantiates i j ↔
      ∃ y, image[j]? = some y ∧ Relation.ReflTransGen uses x y := by
  constructor
  · intro hij
    induction hij with
    | refl => exact ⟨x, hi, .refl⟩
    | tail _ hjk ih =>
      obtain ⟨y, hy, hxy⟩ := ih
      obtain ⟨z, hz, hyz⟩ := (h.instantiates_iff huses hy).1 hjk
      exact ⟨z, hz, hxy.tail hyz⟩
  · rintro ⟨y, hy, hxy⟩
    induction hxy generalizing j with
    | refl => rw [h.index_unique hi hy]
    | @tail z y hxz hzy ih =>
      have hz : z ∈ image :=
        (h.mem z).2 (((h.mem x).1 (List.mem_of_getElem? hi)).trans hxz)
      obtain ⟨k, hk⟩ := List.mem_iff_getElem?.1 hz
      exact (ih hk).tail ((h.instantiates_iff huses hk).2 ⟨y, hy, hzy⟩)

/-- **Copies made from one collection are copies of each other.** -/
theorem within (h : n.CopyOf chips uses start image) (h' : n'.CopyOf chips uses x image')
    (hi : image[i]? = some x) : ∃ positions, n'.CopyOf n.chip? n.Instantiates i positions := by
  have hsub : ∀ y ∈ image', y ∈ image := fun y hy =>
    (h.mem y).2 (((h.mem x).1 (List.mem_of_getElem? hi)).trans ((h'.mem y).1 hy))
  -- where the chips of the smaller netlist are in the larger one
  have hpositions : ∀ k j : Nat, (image'.map image.idxOf)[k]? = some j ↔
      ∃ y, image'[k]? = some y ∧ image[j]? = some y := by
    intro k j
    rw [List.getElem?_map, Option.map_eq_some_iff]
    refine exists_congr fun y => and_congr_right fun hy => ?_
    have hat := List.getElem?_idxOf (hsub y (List.mem_of_getElem? hy))
    exact ⟨fun hj => hj ▸ hat, fun hj => h.index_unique hat hj⟩
  refine ⟨image'.map image.idxOf, h'.top, (hpositions 0 i).2 ⟨x, h'.first, hi⟩, ?_, ?_, ?_, ?_⟩
  · refine List.Nodup.map_on (fun y hy z hz hyz => ?_) h'.nodup
    have hat := List.getElem?_idxOf (hsub y hy)
    rw [hyz, List.getElem?_idxOf (hsub z hz)] at hat
    exact (Option.some.inj hat).symm
  · rw [List.length_map, h'.size]
  · intro j
    rw [h.reflTransGen_iff huses hi, List.mem_iff_getElem?]
    simp only [hpositions]
    constructor
    · rintro ⟨k, y, hy, hj⟩
      exact ⟨y, hj, (h'.mem y).1 (List.mem_of_getElem? hy)⟩
    · rintro ⟨y, hj, hxy⟩
      obtain ⟨k, hk⟩ := List.mem_iff_getElem?.1 ((h'.mem y).2 hxy)
      exact ⟨k, y, hk, hj⟩
  · intro k j hkj
    obtain ⟨y, hy, hj⟩ := (hpositions k j).1 hkj
    obtain ⟨c', d, hc', hd, hm'⟩ := h'.chip k y hy
    obtain ⟨c, d', hc, hd', hm⟩ := h.chip j y hj
    rw [hd, Option.some.injEq] at hd'
    subst hd'
    refine ⟨c', c, hc', hc, hm'.name.trans hm.name.symm, hm'.kind.trans hm.kind.symm,
      hm'.pins.trans hm.pins.symm, ?_⟩
    refine (forall₂_comp hm'.parts hm.parts.flip).imp fun p' p hpp => ?_
    obtain ⟨q, ⟨hindex', hp'⟩, hindex, hp⟩ := hpp
    exact ⟨hindex'.trans hindex.symm, hp'.name.trans hp.name.symm, hp'.wires.trans hp.wires.symm,
      hp'.span.trans hp.span.symm, (hpositions _ _).2 ⟨q.item.chip, hp'.chip, hp.chip⟩⟩

end

end Netlist.CopyOf

end ChipLogic
