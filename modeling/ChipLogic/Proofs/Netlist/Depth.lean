import ChipLogic.Proofs.Netlist.WellFormed
import Mathlib.Data.Finset.Card

/-!
# How deep chips are nested

`Netlist.Within n id` says that chips are nested at most `n` deep at `id`, the chip itself counted.
In a well-formed netlist a chain of chips, each inside the one before, has no chip twice, so no
chain is longer than there are chips (`Netlist.Sound.within_size`).
-/

namespace ChipLogic

namespace Netlist

variable {net : Netlist} {id : Nat}

/-- Chips are nested at most so deep at a chip. -/
def Within (net : Netlist) : (levels : Nat) → (id : Nat) → Prop
  | 0, _ => False
  | levels + 1, id => ∀ child, net.Instantiates id child → net.Within levels child

theorem lt_size_of_instantiates (wf : net.Sound) {child : Nat}
    (h : net.Instantiates id child) : child < net.size := by
  obtain ⟨c, hc, p, hp, rfl⟩ := h
  obtain ⟨d, hd, -⟩ := (wf.chips id c hc).parts p hp
  exact (Array.getElem?_eq_some_iff.1 hd).1

/-- The chips around a chip are all different, so what is left to nest are the others. -/
theorem within_of_above (wf : net.Sound) {levels : Nat} (above : Finset Nat)
    (hlt : id < net.size) (habove : ∀ a ∈ above, a < net.size)
    (hreach : ∀ a ∈ above, Relation.TransGen net.Instantiates a id)
    (hcard : net.size ≤ levels + above.card) : net.Within levels id := by
  have hnot : id ∉ above := fun hin => wf.acyclic id (hreach id hin)
  induction levels generalizing id above with
  | zero =>
    have hsub : insert id above ⊆ Finset.range net.size := by
      intro a ha
      rcases Finset.mem_insert.1 ha with rfl | ha
      · exact Finset.mem_range.2 hlt
      · exact Finset.mem_range.2 (habove a ha)
    have hle := Finset.card_le_card hsub
    rw [Finset.card_insert_of_notMem hnot, Finset.card_range] at hle
    omega
  | succ levels ih =>
    intro child hchild
    have hreach' : ∀ a ∈ insert id above, Relation.TransGen net.Instantiates a child := by
      intro a ha
      rcases Finset.mem_insert.1 ha with rfl | ha
      · exact .single hchild
      · exact (hreach a ha).tail hchild
    refine ih (insert id above) (lt_size_of_instantiates wf hchild) ?_ hreach' ?_ ?_
    · intro a ha
      rcases Finset.mem_insert.1 ha with rfl | ha
      · exact hlt
      · exact habove a ha
    · rw [Finset.card_insert_of_notMem hnot]
      omega
    · exact fun hin => wf.acyclic child (hreach' child hin)

theorem Sound.within_size (wf : net.Sound) {c : Chip} (hc : net.chip? id = some c) :
    net.Within net.size id :=
  within_of_above wf ∅ (Array.getElem?_eq_some_iff.1 hc).1 (by simp) (by simp) (by simp)

end Netlist

end ChipLogic
