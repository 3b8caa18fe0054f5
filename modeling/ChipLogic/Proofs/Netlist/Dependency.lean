import ChipLogic.Proofs.Netlist.Windows
import Mathlib.Order.WellFoundedSet

/-!
# Dependencies between parts

A part **feeds** another one if a window that it writes on the chip around overlaps a window that
the other one reads there (`Chip.Feeds`). A chip is **combinational** (`Chip.Combinational`) if no
two wires write the same bit and no part feeds itself, directly or through others.

The parts of a combinational chip have an order in which each part comes after those that feed it.
`Chip.dependencyOrder` finds one by taking, again and again, the first part that none of the parts
left feeds.
-/

namespace ChipLogic

/-- The chip at a position; it means something if there is one. -/
def Netlist.chipAt (net : Netlist) (id : Nat) : Chip := (net.chip? id).getD default

theorem Netlist.chipAt_eq {net : Netlist} {id : Nat} {c : Chip} (h : net.chip? id = some c) :
    net.chipAt id = c := by
  rw [chipAt, h, Option.getD_some]

namespace Chip

variable {c : Chip}

/-- The part at a position; a part that is not there has no wires. -/
def partAt (c : Chip) (part : Nat) : Instance := c.parts[part]?.getD default

/-- The chip of the part at a position. -/
def innerAt (c : Chip) (net : Netlist) (part : Nat) : Chip := net.chipAt (c.partAt part).chip

/-- Two wires share a bit of a pin of the chip around the parts. -/
def MeetOutside (c : Chip) (w v : Wire) : Prop :=
  w.outer = v.outer ∧ (c.outerWindow w).Overlaps (c.outerWindow v)

/-- Two wires of a part share a bit of a pin of the part's chip. -/
def MeetInside (c : Chip) (w v : Wire) : Prop :=
  w.inner = v.inner ∧ (c.innerWindow w).Overlaps (c.innerWindow v)

instance (c : Chip) (w v : Wire) : Decidable (c.MeetOutside w v) :=
  inferInstanceAs (Decidable (_ ∧ _))

instance (c : Chip) (w v : Wire) : Decidable (c.MeetInside w v) :=
  inferInstanceAs (Decidable (_ ∧ _))

/-- What the part at `i` gives out reaches the part at `j` without another part between them. -/
def Feeds (c : Chip) (i j : Nat) : Prop :=
  ∃ w ∈ (c.partAt i).senses, ∃ v ∈ (c.partAt j).drives, c.MeetOutside w v

instance (c : Chip) (i j : Nat) : Decidable (c.Feeds i j) :=
  inferInstanceAs (Decidable (∃ w ∈ _, ∃ v ∈ _, _))

theorem partAt_eq {part : Nat} {p : Instance} (h : c.parts[part]? = some p) :
    c.partAt part = p := by
  rw [partAt, h, Option.getD_some]

theorem getElem?_of_wire {part : Nat} {w : Wire} (h : w ∈ (c.partAt part).wires) :
    c.parts[part]? = some (c.partAt part) := by
  cases hp : c.parts[part]? with
  | some p => rw [partAt_eq hp]
  | none =>
    rw [partAt, hp] at h
    cases h

theorem Feeds.lt_left {i j : Nat} (h : c.Feeds i j) : i < c.parts.size := by
  obtain ⟨w, hw, -⟩ := h
  exact (Array.getElem?_eq_some_iff.1 (getElem?_of_wire (Instance.mem_senses.1 hw).1)).1

theorem Feeds.lt_right {i j : Nat} (h : c.Feeds i j) : j < c.parts.size := by
  obtain ⟨w, -, v, hv, -⟩ := h
  exact (Array.getElem?_eq_some_iff.1 (getElem?_of_wire (Instance.mem_drives.1 hv).1)).1

/-- What feeds one of these parts is one of them, too. -/
def Closed (c : Chip) (parts : List Nat) : Prop :=
  ∀ j ∈ parts, ∀ i, c.Feeds i j → i ∈ parts

theorem Closed.cons {parts : List Nat} {j : Nat} (h : c.Closed parts)
    (hj : ∀ i, c.Feeds i j → i ∈ parts) : c.Closed (j :: parts) := by
  intro k hk i hfeeds
  rcases List.mem_cons.1 hk with rfl | hk
  · exact List.mem_cons_of_mem k (hj i hfeeds)
  · exact List.mem_cons_of_mem j (h k hk i hfeeds)

/-! ## The order -/

/-- Parts in an order of dependency, out of those that are left. -/
def orderFrom (c : Chip) : (fuel : Nat) → (left : List Nat) → List Nat
  | 0, _ => []
  | fuel + 1, left =>
    match left.find? fun j => left.all fun i => !decide (c.Feeds i j) with
    | none => []
    | some j => j :: c.orderFrom fuel (left.erase j)

/-- The parts of the chip, each after those that feed it. -/
def dependencyOrder (c : Chip) : List Nat :=
  c.orderFrom c.parts.size (List.range c.parts.size)

/-- Among some parts there is one that none of them feeds. -/
theorem exists_unfed (h : ∀ i, ¬ Relation.TransGen c.Feeds i i) {left : List Nat}
    (hne : left ≠ []) : ∃ j ∈ left, ∀ i ∈ left, ¬ c.Feeds i j := by
  have : IsStrictOrder Nat (Relation.TransGen c.Feeds) :=
    { irrefl := h, trans := fun _ _ _ => .trans }
  have hwf : {i | i ∈ left}.WellFoundedOn (Relation.TransGen c.Feeds) :=
    (List.finite_toSet left).wellFoundedOn
  obtain ⟨first, hfirst⟩ := List.exists_mem_of_ne_nil left hne
  obtain ⟨j, -, hmin⟩ := hwf.has_min Set.univ ⟨⟨first, hfirst⟩, trivial⟩
  refine ⟨j, j.2, fun i hi hfeeds => ?_⟩
  exact hmin ⟨i, hi⟩ trivial (.single hfeeds)

theorem find?_unfed {left : List Nat} {j : Nat}
    (hj : left.find? (fun j => left.all fun i => !decide (c.Feeds i j)) = some j) :
    j ∈ left ∧ ∀ i ∈ left, ¬ c.Feeds i j := by
  refine ⟨List.mem_of_find?_eq_some hj, fun i hi => ?_⟩
  have hall := List.find?_some hj
  simp only [List.all_eq_true, Bool.not_eq_true', decide_eq_false_iff_not] at hall
  exact hall i hi

theorem orderFrom_perm (h : ∀ i, ¬ Relation.TransGen c.Feeds i i) {fuel : Nat} {left : List Nat}
    (hfuel : left.length ≤ fuel) : (c.orderFrom fuel left).Perm left := by
  induction fuel generalizing left with
  | zero =>
    rw [List.length_eq_zero_iff.1 (Nat.le_zero.1 hfuel)]
    exact .nil
  | succ fuel ih =>
    unfold orderFrom
    cases hj : left.find? fun j => left.all fun i => !decide (c.Feeds i j) with
    | none =>
      by_cases hne : left = []
      · rw [hne]
      · obtain ⟨j, hmem, hunfed⟩ := exists_unfed h hne
        have hfalse := List.find?_eq_none.1 hj j hmem
        simp only [List.all_eq_true, Bool.not_eq_true', decide_eq_false_iff_not] at hfalse
        exact absurd hunfed hfalse
    | some j =>
      obtain ⟨hmem, -⟩ := find?_unfed hj
      have hlen : (left.erase j).length ≤ fuel := by
        rw [List.length_erase_of_mem hmem]
        omega
      exact ((ih hlen).cons j).trans (List.perm_cons_erase hmem).symm

theorem mem_of_mem_orderFrom {fuel : Nat} {left : List Nat} {i : Nat}
    (hi : i ∈ c.orderFrom fuel left) : i ∈ left := by
  induction fuel generalizing left with
  | zero => cases hi
  | succ fuel ih =>
    unfold orderFrom at hi
    cases hj : left.find? fun j => left.all fun i => !decide (c.Feeds i j) with
    | none =>
      rw [hj] at hi
      cases hi
    | some j =>
      rw [hj] at hi
      rcases List.mem_cons.1 hi with rfl | hi
      · exact (find?_unfed hj).1
      · exact List.mem_of_mem_erase (ih hi)

/-- No part feeds one that comes before it. -/
theorem orderFrom_pairwise (fuel : Nat) (left : List Nat) :
    (c.orderFrom fuel left).Pairwise fun i j => ¬ c.Feeds j i := by
  induction fuel generalizing left with
  | zero => exact .nil
  | succ fuel ih =>
    unfold orderFrom
    cases hj : left.find? fun j => left.all fun i => !decide (c.Feeds i j) with
    | none => exact .nil
    | some j =>
      refine .cons (fun i hi => ?_) (ih _)
      exact (find?_unfed hj).2 i (List.mem_of_mem_erase (mem_of_mem_orderFrom hi))

end Chip

/-! ## Combinational chips -/

/-- No two wires write the same bit, and no part depends on itself. -/
structure Chip.Combinational (net : Netlist) (c : Chip) : Prop where
  senses : (c.parts.toList.flatMap Instance.senses).Pairwise fun w v => ¬ c.MeetOutside w v
  drives : ∀ p ∈ c.parts, p.drives.Pairwise fun w v => ¬ (net.chipAt p.chip).MeetInside w v
  acyclic : ∀ i, ¬ Relation.TransGen c.Feeds i i

/-- Every chip with parts is combinational. -/
def Netlist.Combinational (net : Netlist) : Prop :=
  ∀ id c, net.chip? id = some c → c.kind = .composite → c.Combinational net

namespace Chip.Combinational

variable {net : Netlist} {c : Chip}

theorem order_perm (h : c.Combinational net) :
    c.dependencyOrder.Perm (List.range c.parts.size) :=
  orderFrom_perm h.acyclic (by rw [List.length_range])

theorem mem_order (h : c.Combinational net) {i : Nat} :
    i ∈ c.dependencyOrder ↔ i < c.parts.size := by
  rw [h.order_perm.mem_iff, List.mem_range]

/-- A part that feeds one in the order comes before it. -/
theorem feeder_before (h : c.Combinational net) {before after : List Nat} {i j : Nat}
    (horder : c.dependencyOrder = before ++ j :: after) (hfeeds : c.Feeds i j) : i ∈ before := by
  have hi : i ∈ before ++ j :: after := by
    rw [← horder, h.mem_order]
    exact hfeeds.lt_left
  have hpair : (before ++ j :: after).Pairwise fun i j => ¬ c.Feeds j i :=
    horder ▸ orderFrom_pairwise _ _
  rcases List.mem_append.1 hi with hi | hi
  · exact hi
  · rcases List.mem_cons.1 hi with rfl | hi
    · exact absurd (.single hfeeds) (h.acyclic i)
    · have hafter := (List.pairwise_cons.1 (List.pairwise_append.1 hpair).2.1).1
      exact absurd hfeeds (hafter i hi)

theorem closed_before (h : c.Combinational net) {before after : List Nat}
    (horder : c.dependencyOrder = before ++ after) : c.Closed before := by
  intro j hj i hfeeds
  obtain ⟨first, rest, rfl⟩ := List.append_of_mem hj
  rw [List.append_assoc] at horder
  exact List.mem_append_left _ (h.feeder_before horder hfeeds)

theorem senses_of_part (h : c.Combinational net) (j : Nat) :
    (c.partAt j).senses.Pairwise fun w v => ¬ c.MeetOutside w v := by
  cases hp : c.parts[j]? with
  | none =>
    rw [partAt, hp]
    exact .nil
  | some p =>
    rw [partAt_eq hp]
    have hmem : p ∈ c.parts.toList := Array.mem_toList_iff.2 (Array.mem_of_getElem? hp)
    exact (List.pairwise_flatMap.1 h.senses).1 p hmem

theorem drives_of_part (h : c.Combinational net) (j : Nat) :
    (c.partAt j).drives.Pairwise fun w v =>
      ¬ (c.innerAt net j).MeetInside w v := by
  cases hp : c.parts[j]? with
  | none =>
    rw [partAt, hp]
    exact .nil
  | some p =>
    rw [innerAt, partAt_eq hp]
    exact h.drives p (Array.mem_of_getElem? hp)

/-- Two parts write no bit in common. -/
theorem senses_apart (h : c.Combinational net) {i j : Nat} (hij : i ≠ j) {w v : Wire}
    (hw : w ∈ (c.partAt i).senses) (hv : v ∈ (c.partAt j).senses) : ¬ c.MeetOutside w v := by
  have hparts := List.pairwise_iff_getElem.1 (List.pairwise_flatMap.1 h.senses).2
  obtain ⟨hi, hpi⟩ := Array.getElem?_eq_some_iff.1 (getElem?_of_wire (Instance.mem_senses.1 hw).1)
  obtain ⟨hj, hpj⟩ := Array.getElem?_eq_some_iff.1 (getElem?_of_wire (Instance.mem_senses.1 hv).1)
  rcases Nat.lt_or_gt_of_ne hij with hlt | hlt
  · exact hparts i j hi hj hlt w (by rw [Array.getElem_toList, hpi]; exact hw) v
      (by rw [Array.getElem_toList, hpj]; exact hv)
  · intro hmeet
    have hswap : c.MeetOutside v w := by
      refine ⟨hmeet.1.symm, ?_⟩
      obtain ⟨k, hkw, hkv⟩ := BitRange.overlaps_iff.1 hmeet.2
      exact BitRange.overlaps_iff.2 ⟨k, hkv, hkw⟩
    exact hparts j i hj hi hlt v (by rw [Array.getElem_toList, hpj]; exact hv) w
      (by rw [Array.getElem_toList, hpi]; exact hw) hswap

end Chip.Combinational

end ChipLogic
