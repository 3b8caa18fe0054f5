import ChipLogic.Proofs.Sim.Converge

/-!
# Combinational designs are functions

A state at rest in a combinational design has no choice: its values are a solution of the equations
between the parts and the wires (`Chip.Solves`), level by level, and there is only one. That needs a
tidy state, since a bit that nothing gives a value to keeps what was written there.

**Theorem (`State.Driven.evaluate_eq_meaning`).** Whatever inputs were set and whatever evaluations
were made before, evaluation gives every pin the value that the design means for the present
inputs.
-/

namespace ChipLogic

theorem Chip.start_of_isInput {c : Chip} {x : Valuation} {i : Nat} (h : c.isInput i = true) :
    c.start x i = x i := by
  rw [start, if_pos h]

theorem Chip.start_of_not_isInput {c : Chip} {x : Valuation} {i : Nat} (h : c.isInput i = false) :
    c.start x i = 0 := by
  rw [start, h, if_neg Bool.false_ne_true]

namespace State

variable {net : Netlist} {s s' child : State} {id part : Nat} {c d : Chip} {p : Instance}
  {w : Wire} {limits : Limits} {x : Valuation}

/-- A bit that nothing gives a value to is as at the start. -/
theorem TidyOn.bitAt_get (h : TidyOn net id x s) (hc : net.chip? s.chip = some c) {i k : Nat}
    (hk : c.isInput i = false → ¬ c.Gives i k) :
    bitAt (s.get i) k = bitAt (c.start x i) k := by
  cases hi : c.isInput i with
  | true =>
    rw [Chip.start_of_isInput hi, h.2 i]
    rw [Netlist.chipAt_eq (h.1.shaped.chip_eq ▸ hc)]
    exact hi
  | false => rw [Chip.start_of_not_isInput hi, bitAt_zero, h.1.idle hc hi (hk hi)]

theorem get_of_gate {g : Gate} (wf : net.Sound) (h : TidyOn net id x s)
    (hc : net.chip? s.chip = some c) (hk : c.kind = .gate g)
    (output : s.get g.arity = s.gateValue g) :
    s.get = Function.update (c.start x) g.arity
      (g.apply ((List.range g.arity).map (c.start x))) := by
  have hother (i : Nat) (hi : i ≠ g.arity) : s.get i = c.start x i := by
    apply eq_of_bitAt
    intro k
    refine h.bitAt_get hc fun _ hgives => ?_
    rcases hgives with ⟨g', hg', rfl⟩ | ⟨part, w, hw, -⟩
    · rw [hk] at hg'
      cases hg'
      exact hi rfl
    · obtain ⟨hlt, -⟩ :=
        Array.getElem?_eq_some_iff.1 (Chip.getElem?_of_wire (Instance.mem_senses.1 hw).1)
      rw [((wf.chips _ c hc).gate g hk).2] at hlt
      cases hlt
  have hinputs : (List.range g.arity).map s.get = (List.range g.arity).map (c.start x) := by
    apply List.map_congr_left
    intro i hi
    exact hother i (Nat.ne_of_lt (List.mem_range.1 hi))
  funext i
  by_cases hi : i = g.arity
  · subst hi
    rw [Function.update_self, output, gateValue, hinputs]
  · rw [Function.update_of_ne hi, hother i hi]

/-- The inputs of a part in its place are what its wires bring. -/
theorem hasInputs_of_steady (wf : net.Sound) (hcomb : c.Combinational net)
    (hc : net.chip? s.chip = some c) (hd : net.chip? child.chip = some (c.innerAt net part))
    (hclear : Clear (c.partAt part) (c.innerAt net part) child)
    (hsteady : ∀ w ∈ (c.partAt part).wires, ¬ w.Lossy → Steady net s child w) :
    HasInputs net (c.partAt part).chip
      (c.drivenInputs (c.innerAt net part) (c.partAt part) s.get) child := by
  have hwired := Chip.Sound.wired wf hc
  intro i hi
  apply eq_of_bitAt
  intro k
  by_cases hk : (c.partAt part).LeavesOut (c.innerAt net part) i k
  · rw [hclear i k hi hk, Chip.drivenInputs, Chip.takeInputs, bitAt_writeAll hk, bitAt_zero]
  · unfold Instance.LeavesOut at hk
    push Not at hk
    obtain ⟨w, hw, rfl, hcovers⟩ := hk
    obtain ⟨hmem, hdir⟩ := Instance.mem_drives.1 hw
    have hkept : ¬ w.Lossy := fun hlost => by cases hdir.symm.trans hlost.1
    refine bitAt_of_extract (hwired part w hmem).inner_last_lt ?_ hcovers
    have heq := (steady_iff hc hd (hwired part w hmem)).1 (hsteady w hmem hkept)
    rw [outerValue, innerValue, chipIn_eq hc, chipIn_eq hd] at heq
    rw [← heq]
    exact (Chip.extract_takeInputs hcomb hwired hw _).symm

/-- **A state at rest has the values that the design means.** -/
theorem AtRest.get_eq_meaning (hset : s.AtRest net) (wf : net.Sound)
    (hcomb : net.Combinational) {levels : Nat} (hwithin : net.Within levels id)
    (ht : TidyOn net id x s) : s.get = net.meaningWithin levels id x := by
  induction levels generalizing id s x with
  | zero => cases hwithin
  | succ levels ih =>
    have hid := ht.1.shaped.chip_eq
    unfold Netlist.meaningWithin
    cases hset with
    | @gate _ c g hc hk output =>
      rw [Netlist.chipAt_eq (hid ▸ hc)]
      dsimp only
      rw [hk]
      exact get_of_gate wf ht hc hk output
    | @composite _ c hc hk wires below =>
      rw [Netlist.chipAt_eq (hid ▸ hc)]
      dsimp only
      rw [hk]
      have hcomb' := hcomb id c (hid ▸ hc) hk
      have hwired := Chip.Sound.wired wf hc
      have hsolves : c.Solves net (net.meaningWithin levels) x s.get := by
        refine ⟨fun i k hnone => ht.bitAt_get hc fun _ hgives => ?_, fun part w hw hwrap => ?_⟩
        · rcases hgives with ⟨g, hg, -⟩ | ⟨part, hpart⟩
          · rw [hk] at hg
            cases hg
          · exact hnone part hpart
        · have hmem := (Instance.mem_senses.1 hw).1
          have hp := Chip.getElem?_of_wire hmem
          obtain ⟨child, hchild, hsteady⟩ := wires part _ hp
          obtain ⟨htc, hclear⟩ := ht.1.inSlot hc hp (children_of_child? hchild)
          obtain ⟨d, hd⟩ := htc.shaped.chip?
          obtain rfl : c.innerAt net part = d := Netlist.chipAt_eq (htc.shaped.chip_eq ▸ hd)
          have hinputs := hasInputs_of_steady wf hcomb' hc hd hclear hsteady
          have hinner : net.Instantiates id (c.partAt part).chip :=
            ⟨c, hid ▸ hc, _, Array.mem_of_getElem? hp, rfl⟩
          have hchildGet := ih (below part _ child hp hchild) (hwithin _ hinner) ⟨htc, hinputs⟩
          have heq := (steady_iff hc hd (hwired part w hmem)).1
            (hsteady w hmem fun hlost => hwrap hlost.2)
          rw [outerValue, innerValue, chipIn_eq hc, chipIn_eq hd, hchildGet] at heq
          exact heq
      exact hsolves.eq_foldl hcomb' hwired

/-- **Evaluation computes what the design means** for the inputs as they are now. -/
theorem Driven.evaluate_eq_meaning {session : Session} (hsession : session.Reachable) {top : Nat}
    (hf : (session.freeze top).1 = .ok (some net)) (hcomb : net.Combinational)
    (h : Driven net id s) (hpasses : PassesSuffice net limits id)
    (hx : ∀ i, (net.chipAt id).isInput i = true → s.get i = x i) :
    ∃ changed s', s.evaluate net limits = (.ok changed, s') ∧
      ∀ pin, s'.get pin = net.meaning id x pin := by
  have wf := hsession.sound.netlist_sound hf
  have ht := h.tidy wf
  obtain ⟨c, hc⟩ := ht.shaped.chip?
  have hwithin := wf.within_size hc
  rw [ht.shaped.chip_eq] at hwithin
  obtain ⟨changed, s', hok⟩ := exists_settleWithin_ok wf hcomb hwithin
    (Nat.le_add_right net.size _) hpasses ht
  obtain ⟨hset, -⟩ := settles_settleWithin wf limits _ id s ht.shaped changed s' hok
  have hkeep := keeps_tidy_settleWithin wf limits net.depthBound id x s ⟨ht, hx⟩
  rw [Netlist.depthBound, hok] at hkeep
  refine ⟨changed, s', hok, fun pin => ?_⟩
  rw [hset.get_eq_meaning wf hcomb hwithin hkeep, Netlist.meaning]

/-! ## The design of three levels -/

open Session

/-- `X` after an evaluation that had too few passes, with another input set since. -/
def crossedLater : State :=
  ((crossedStart.evaluate crossedNet ⟨1, 16⟩).2.set crossedNet 0 2).2

theorem crossedLater_checks : (fresh? crossedNet 0).toOption.isSome ∧
    (crossedNet.chipAt 0).isInput 0 = true ∧
    (crossedStart.evaluate crossedNet ⟨1, 16⟩).1.toOption = none ∧
    ∀ i < (crossedNet.chipAt 0).pins.size, (crossedNet.chipAt 0).isInput i = true →
      crossedLater.get i = 2 := by
  decide +kernel

theorem driven_crossedLater : Driven crossedNet 0 crossedLater := by
  obtain ⟨hsome, hinput, -⟩ := crossedLater_checks
  have hstart : Driven crossedNet 0 crossedStart := by
    unfold crossedStart
    cases hf : fresh? crossedNet 0 with
    | error e =>
      rw [hf] at hsome
      cases hsome
    | ok s => exact .set hinput 1 (.fresh hf)
  exact .set hinput 2 (.evaluate ⟨1, 16⟩ hstart)

/-- The parts of each chip stand in reverse order of dependency. -/
theorem crossedNet_checks : ∀ c ∈ crossedNet.chips.toList, c.parts.size < 4 ∧
    (c.parts.toList.flatMap Instance.senses).Pairwise (fun w v => ¬ c.MeetOutside w v) ∧
    (∀ p ∈ c.parts.toList, p.drives.Pairwise fun w v =>
      ¬ (crossedNet.chipAt p.chip).MeetInside w v) ∧
    ∀ i < c.parts.size, ∀ j < c.parts.size, c.Feeds i j → j < i := by
  decide +kernel

theorem combinational_crossedNet : crossedNet.Combinational := by
  intro id c hc _
  have hmem : c ∈ crossedNet.chips.toList := Array.mem_toList_iff.2 (Array.mem_of_getElem? hc)
  obtain ⟨-, hsenses, hdrives, hfeeds⟩ := crossedNet_checks c hmem
  refine ⟨hsenses, fun p hp => hdrives p (Array.mem_toList_iff.2 hp), fun i hcycle => ?_⟩
  have hlt {i j : Nat} (h : Relation.TransGen c.Feeds i j) : j < i := by
    induction h with
    | single h => exact hfeeds _ h.lt_left _ h.lt_right h
    | tail _ h ih => exact Nat.lt_trans (hfeeds _ h.lt_left _ h.lt_right h) ih
  exact Nat.lt_irrefl i (hlt hcycle)

theorem passesSuffice_crossedNet : PassesSuffice crossedNet ⟨4, 16⟩ 0 := fun _ c _ hc _ =>
  (crossedNet_checks c (Array.mem_toList_iff.2 (Array.mem_of_getElem? hc))).1

theorem Driven.evaluate_eq_meaning_crossed :
    (∃ changed s', crossedLater.evaluate crossedNet ⟨4, 16⟩ = (.ok changed, s') ∧
      ∀ pin, s'.get pin = crossedNet.meaning 0 (fun _ => 2) pin) ∧
    crossedNet.meaning 0 (fun _ => 2) 1 = 3 := by
  refine ⟨driven_crossedLater.evaluate_eq_meaning reachable_crossed freeze_crossed
    combinational_crossedNet passesSuffice_crossedNet fun i hi => ?_, by decide +kernel⟩
  refine crossedLater_checks.2.2.2 i ?_ hi
  rw [Chip.isInput, Option.any_eq_true] at hi
  obtain ⟨p, hp, -⟩ := hi
  exact (Array.getElem?_eq_some_iff.1 hp).1

end State

end ChipLogic
