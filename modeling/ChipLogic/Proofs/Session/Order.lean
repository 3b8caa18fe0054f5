import ChipLogic.Proofs.Netlist.Canonical
import ChipLogic.Proofs.Session.Outcome
import Mathlib.Logic.Relator

/-!
# Chips are met in the order of the netlist

The walk of a freeze depends on how the chips are connected and not on where they stand in the
session. If chips of a netlist and chips of a session go together one to one, and so do the chips of
their parts (`Session.Follows`), the two walks meet chips that go together
(`Session.reach_follows`).
-/

namespace ChipLogic

namespace Session

variable {n : Netlist} {s : Session} {R : Nat → Nat → Prop}

/-- Chips of the netlist that go with chips of the session have parts whose chips go together. -/
def Follows (n : Netlist) (s : Session) (R : Nat → Nat → Prop) : Prop :=
  ∀ i x, R i x → ∃ d, s.definition? x = some d ∧
    List.Forall₂ (fun inst p => ∃ y, Part.resolved p = some y ∧ R (Instance.chip inst) y)
      (n.chipAt i).parts.toList d.parts.toList

theorem meetAll_follows (hR : Relator.BiUnique R) (name : String) {met₀ met : List Nat}
    (hm : List.Forall₂ R met₀ met) {is : List Instance} {slots : List (Numbered Part)}
    (hp : List.Forall₂ (fun i p => ∃ y, Part.resolved p = some y ∧ R (Instance.chip i) y) is
      (slots.map (·.item))) :
    ∃ met', meetAll name met slots = .ok met' ∧
      List.Forall₂ R (Netlist.meetParts met₀ is) met' := by
  rw [List.forall₂_map_right_iff] at hp
  induction hp generalizing met₀ met with
  | nil => exact ⟨met, rfl, hm⟩
  | @cons i slot is slots hip _ ih =>
    obtain ⟨y, hy, hr⟩ := hip
    have hnext : List.Forall₂ R (if met₀.contains i.chip then met₀ else met₀ ++ [i.chip])
        (if met.contains y then met else met ++ [y]) := by
      have hmem : i.chip ∈ met₀ ↔ y ∈ met := List.rel_mem hR hr hm
      by_cases hin : i.chip ∈ met₀
      · rw [if_pos (by simpa using hin), if_pos (by simpa using hmem.1 hin)]
        exact hm
      · rw [if_neg (by simpa using hin), if_neg (by simpa using fun h => hin (hmem.2 h))]
        exact List.rel_append hm (.cons hr .nil)
    obtain ⟨met', hmeet, hall⟩ := ih hnext
    exact ⟨met', by rw [meetAll, hy]; exact hmeet, hall⟩

/-- **The two walks meet chips that go together.** -/
theorem reach_follows (hR : Relator.BiUnique R) (h : Follows n s R) (fuel : Nat)
    {met₀ met : List Nat} (hm : List.Forall₂ R met₀ met) (next : Nat) :
    ∃ order, s.reach fuel met next = .ok order ∧
      List.Forall₂ R (n.visit fuel met₀ next) order := by
  induction fuel generalizing met₀ met next with
  | zero => exact ⟨met, rfl, hm⟩
  | succ fuel ih =>
    unfold reach Netlist.visit
    cases hx : met[next]? with
    | none =>
      have hnone : met₀[next]? = none := by
        rw [List.getElem?_eq_none_iff] at hx ⊢
        rw [hm.length_eq]
        exact hx
      rw [hnone]
      exact ⟨met, rfl, hm⟩
    | some x =>
      obtain ⟨i, hi, hr⟩ := getElem?_of_forall₂ hm hx
      obtain ⟨d, hd, hparts⟩ := h i x hr
      obtain ⟨met', hmeet, hm'⟩ := meetAll_follows hR d.name hm hparts
      rw [hi]
      simp only [hd, Option.getD_some, hmeet]
      exact ih hm' (next + 1)

/-! ## The list of chips met -/

theorem nodup_of_meetAll {name : String} {met met' : List Nat} {slots : List (Numbered Part)}
    (h : meetAll name met slots = .ok met') (hn : met.Nodup) : met'.Nodup := by
  induction slots generalizing met with
  | nil =>
    cases h
    exact hn
  | cons slot slots ih =>
    unfold meetAll at h
    split at h
    · cases h
    · next child _ => exact ih h (nodup_meet hn child).1

/-- No chip is met twice. -/
theorem nodup_of_reach {fuel next : Nat} {met order : List Nat}
    (h : s.reach fuel met next = .ok order) (hn : met.Nodup) : order.Nodup := by
  induction fuel generalizing met next with
  | zero =>
    cases h
    exact hn
  | succ fuel ih =>
    unfold reach at h
    split at h
    · cases h
      exact hn
    · dsimp only at h
      split at h
      · cases h
      · next hmeet => exact ih h (nodup_of_meetAll hmeet hn)

end Session

end ChipLogic
