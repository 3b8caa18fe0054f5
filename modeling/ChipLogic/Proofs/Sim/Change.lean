import ChipLogic.Proofs.Sim.Alike
import ChipLogic.Proofs.Sim.Limits

/-!
# What an evaluation tells

An evaluation tells whether anything changed. It notes that something changed during a pass, and
values can change and change back, so it is not clear that the note is about the state before and
the state after.

**The end of an evaluation.** An evaluation that ends well ends with a pass that changes nothing. So
its last state is the twin of a state from which one pass is enough (`State.exists_still`), and
twins settle alike: to evaluate the last state again, within any limit but zero, changes nothing.

**The note is exact.** If the state before had all values of the last state, it would be its twin as
well, and to evaluate it would have changed nothing either. So whatever happened in between, a
change is told of only if a value is not what it was.

**Theorem (`State.FreelyReached.evaluate_true_iff_cell_changed`).** In a frozen netlist an
evaluation that ends well tells of a change if and only if it has changed the value of some cell,
and the next one changes nothing.
-/

namespace ChipLogic

namespace State

variable {net : Netlist} {s s' : State} {id : Nat} {limits : Limits}

theorem Respects.keeps {a : Action} (h : Respects net id a) : a.Keeps (Framed net id) :=
  fun s hs => (h s s (.refl hs)).2.right

/-- **An evaluation that ends well ends like one that changes nothing.** -/
theorem exists_still (wf : net.Sound) (hs : Framed net id s) {depth : Nat} {changed : Bool}
    (h : settleWithin net limits depth s = (.ok changed, s')) :
    ∃ s₁, Framed net id s₁ ∧ settleWithin net limits depth s₁ = (.ok false, s') := by
  cases depth with
  | zero => cases h
  | succ depth =>
    obtain ⟨c, hc⟩ := hs.chip?
    have hc' : net.chip? s.chip = some c := hs.chip_eq ▸ hc
    cases hk : c.kind with
    | gate g =>
      rw [settleWithin_gate hc' hk] at h
      obtain ⟨p, hp, -⟩ := exists_output (wf.chips _ c hc) hk
      have hlt : g.arity < s.cells.size :=
        hs.cells_size hc ▸ (Array.getElem?_eq_some_iff.1 hp).1
      have hagain := computeGate_again wf hc' hk hlt
      have hs' := (respects_computeGate net id g).keeps s hs
      rw [h] at hagain hs'
      exact ⟨s', hs', (settleWithin_gate (hs'.chip_eq ▸ hc) hk limits depth).trans hagain⟩
    | composite =>
      rw [settleWithin_composite hc' hk] at h
      have hrespects : Respects net id (pass net (settleWithin net limits depth) c) :=
        respects_pass wf (respects_settleWithin wf limits depth) c
      obtain ⟨s₁, hs₁, hlast, -⟩ := Action.untilSteady_eq_ok hrespects.keeps hs h
      refine ⟨s₁, hs₁, ?_⟩
      rw [settleWithin_composite (hs₁.chip_eq ▸ hc) hk]
      cases hm : limits.maxPasses with
      | zero =>
        rw [hm] at h
        cases h
      | succ limit =>
        unfold Action.untilSteady
        rw [hlast]

/-- **What an evaluation tells.** It tells of a change if and only if some cell has another value
than before, where a state that has not been made is all zero. Evaluated once more, the state
changes no value, whatever the limits are. -/
theorem FreelyReached.evaluate_true_iff_cell_changed {session : Session}
    (hsession : session.Reachable) {top : Nat}
    (hf : (session.freeze top).1 = .ok (some net)) (h : FreelyReached net id s) {changed : Bool}
    (he : s.evaluate net limits = (.ok changed, s')) :
    (changed = true ↔ ∃ path pin, s.cellAt path pin ≠ s'.cellAt path pin) ∧
      ∀ again : Limits, 1 ≤ again.maxPasses →
        ∃ s'', s'.evaluate net again = (.ok false, s'') ∧
          ∀ path pin, s''.cellAt path pin = s'.cellAt path pin := by
  have wf := hsession.sound.netlist_sound hf
  have hs := h.framed wf
  obtain ⟨s₁, hs₁, hstill⟩ : ∃ s₁, Framed net id s₁ ∧ s₁.evaluate net limits = (.ok false, s') :=
    exists_still wf hs he
  have htwins : Twins net id s₁ s' := honest_evaluate wf limits id s₁ s' hs₁ hstill
  refine ⟨⟨fun hc => ?_, fun ⟨path, pin, hne⟩ => ?_⟩, fun again hone => ?_⟩
  · -- with equal values the state before would settle as the last state does
    by_contra hsame
    have hback : Twins net id s s' := ⟨hs, htwins.right, fun path pin => by
      by_contra hne
      exact hsame ⟨path, pin, hne⟩⟩
    have hresult := (respects_evaluate wf limits id s s₁ (hback.trans htwins.symm)).1
    rw [hstill, he, hc] at hresult
    cases hresult
  · cases changed with
    | true => rfl
    | false => exact absurd ((honest_evaluate wf limits id s s' hs he).alike path pin) hne
  · obtain ⟨result, t, s'', hfirst, hsecond, hafter⟩ :=
      (respects_evaluate wf again id).outcome htwins
    rw [evaluate_still hstill hone] at hfirst
    cases hfirst
    exact ⟨s'', hsecond, fun path pin => (hafter.alike path pin).symm⟩

/-- The first evaluation of the design of three levels makes states and changes values; the next one
needs a single pass. -/
theorem FreelyReached.evaluate_true_iff_cell_changed_crossed : ∃ s',
    crossedStart.evaluate Session.crossedNet {} = (.ok true, s') ∧
      (∃ path pin, crossedStart.cellAt path pin ≠ s'.cellAt path pin) ∧
      ∃ s'', s'.evaluate Session.crossedNet ⟨1, 16⟩ = (.ok false, s'') ∧
        ∀ path pin, s''.cellAt path pin = s'.cellAt path pin := by
  have hok := crossedStart_runs.2
  cases he : crossedStart.evaluate Session.crossedNet {} with
  | mk result s' =>
    rw [he] at hok
    cases result with
    | error e => cases hok
    | ok changed =>
      cases hok
      obtain ⟨htells, hagain⟩ := reached_crossedStart.freely.evaluate_true_iff_cell_changed
        Session.reachable_crossed Session.freeze_crossed he
      exact ⟨s', rfl, htells.1 rfl, hagain ⟨1, 16⟩ (Nat.le_refl 1)⟩

end State

end ChipLogic
