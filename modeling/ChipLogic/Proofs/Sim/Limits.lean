import ChipLogic.Proofs.Sim.Settled

/-!
# Limits do not matter to those who keep to them

The number of passes is limited on every level of a chip by the same number. A higher limit cannot
change an evaluation that has ended well: each chip inside has settled within the lower limit, so it
does the same within the higher one.

**Grants.** An action *grants* what another one does if it has the same outcome wherever the other
ends well with certain answers (`Action.Grants`). The answers are of two kinds here:

* all answers, when the limit is raised. This gives `State.evaluate_more_passes`;
* the answer that nothing changed. Then every chip on the way has taken one pass, so any limit but
  zero does (`State.evaluate_still`), also a lower one.

Both follow from one induction, since a row of actions has an answer of either kind only if all its
actions have (`Action.Inherited`).
-/

namespace ChipLogic

namespace Action

variable {only : Bool → Prop} {a a' b b' : Action}

/-- Where the first action ends well with one of the answers, the second has its outcome. -/
def Grants (only : Bool → Prop) (a b : Action) : Prop :=
  ∀ s changed s', only changed → a s = (.ok changed, s') → b s = (.ok changed, s')

/-- Answers that a row of actions gives only if each of its actions does. -/
def Inherited (only : Bool → Prop) : Prop :=
  ∀ first second, only (first || second) → only first ∧ only second

theorem inherited_any : Inherited fun _ => True :=
  fun _ _ _ => ⟨trivial, trivial⟩

theorem inherited_false : Inherited (· = false) :=
  fun _ _ h => Bool.or_eq_false_iff.1 h

theorem Grants.refl (only : Bool → Prop) (a : Action) : a.Grants only a :=
  fun _ _ _ _ h => h

theorem Grants.andThen (hor : Inherited only) (ha : a.Grants only a') (hb : b.Grants only b') :
    (a.andThen b).Grants only (a'.andThen b') := by
  intro s changed s' honly h
  unfold Action.andThen at h ⊢
  cases h₁ : a s with
  | mk result s₁ =>
    rw [h₁] at h
    cases result with
    | error e => cases h
    | ok first =>
      dsimp only at h
      cases h₂ : b s₁ with
      | mk result s₂ =>
        rw [h₂] at h
        cases result with
        | error e => cases h
        | ok second =>
          cases h
          obtain ⟨hfirst, hsecond⟩ := hor first second honly
          rw [ha s first s₁ hfirst h₁]
          dsimp only
          rw [hb s₁ second _ hsecond h₂]

theorem grants_all {α : Type} {f g : α → Action} (hor : Inherited only) {xs : List α}
    (h : ∀ x ∈ xs, (f x).Grants only (g x)) : (all (xs.map f)).Grants only (all (xs.map g)) := by
  induction xs with
  | nil => exact .refl only _
  | cons x xs ih =>
    exact (h x List.mem_cons_self).andThen hor (ih fun y hy => h y (List.mem_cons_of_mem x hy))

/-- A repetition that tells of a change has taken several turns, so its limit counts. One that tells
of none has taken one. -/
theorem Grants.untilSteady (hor : Inherited only) (ha : a.Grants only a') {limit limit' : Nat}
    (hone : 1 ≤ limit → 1 ≤ limit') (hlimit : only true → limit ≤ limit') (failure : SimError)
    (failure' : SimError) :
    (untilSteady failure a limit).Grants only (untilSteady failure' a' limit') := by
  induction limit generalizing limit' with
  | zero =>
    intro s changed s' _ h
    cases h
  | succ limit ih =>
    intro s changed s' honly h
    have hpos : limit' ≠ 0 := Nat.one_le_iff_ne_zero.1 (hone (by omega))
    obtain ⟨limit', rfl⟩ := Nat.exists_eq_succ_of_ne_zero hpos
    unfold Action.untilSteady at h ⊢
    cases h₁ : a s with
    | mk result s₁ =>
      rw [h₁] at h
      cases result with
      | error e => cases h
      | ok again =>
        cases again with
        | false =>
          cases h
          rw [ha s false _ honly h₁]
        | true =>
          dsimp only at h
          cases h₂ : Action.untilSteady failure a limit s₁ with
          | mk result s₂ =>
            rw [h₂] at h
            cases result with
            | error e => cases h
            | ok rest =>
              cases h
              have hle := Nat.le_of_succ_le_succ (hlimit honly)
              have hrest : only rest := by
                cases rest with
                | true => exact honly
                | false => exact (hor true false honly).2
              rw [ha s true s₁ honly h₁]
              dsimp only
              rw [ih (fun h => Nat.le_trans h hle) (fun _ => hle) s₁ rest _ hrest h₂]

end Action

namespace State

variable {net : Netlist} {s s' : State} {limits limits' : Limits} {only : Bool → Prop}
  {evaluateChild evaluateChild' : Action}

theorem grants_inPart (h : evaluateChild.Grants only evaluateChild') (part : Nat) :
    Action.Grants only (inPart net part evaluateChild) (inPart net part evaluateChild') := by
  intro s changed s' honly hok
  unfold inPart at hok ⊢
  cases hchild : s.childOrFresh net part with
  | error e =>
    rw [hchild] at hok
    cases hok
  | ok child =>
    rw [hchild] at hok
    dsimp only at hok ⊢
    cases hf : evaluateChild child with
    | mk result child' =>
      rw [hf] at hok
      cases hok
      rw [h child changed child' honly hf]

theorem grants_pass (hor : Action.Inherited only) (h : evaluateChild.Grants only evaluateChild')
    (c : Chip) : (pass net evaluateChild c).Grants only (pass net evaluateChild' c) :=
  Action.grants_all hor fun _ _ =>
    (Action.Grants.refl only _).andThen hor ((grants_inPart h _).andThen hor (.refl only _))

/-- **Settling grants what settling within other limits does.** -/
theorem grants_settleWithin (hor : Action.Inherited only)
    (hone : 1 ≤ limits.maxPasses → 1 ≤ limits'.maxPasses)
    (hlimit : only true → limits.maxPasses ≤ limits'.maxPasses) (depth : Nat) :
    (settleWithin net limits depth).Grants only (settleWithin net limits' depth) := by
  induction depth with
  | zero =>
    intro s changed s' _ h
    cases h
  | succ depth ih =>
    intro s changed s' honly h
    unfold settleWithin at h ⊢
    dsimp only at h ⊢
    cases hk : (s.chipIn net).kind with
    | gate g =>
      rw [hk] at h
      exact h
    | composite =>
      rw [hk] at h
      exact (grants_pass hor ih _).untilSteady hor hone hlimit _ _ s changed s' honly h

/-- An evaluation that changed nothing does the same within any limit but zero. -/
theorem evaluate_still (h : s.evaluate net limits = (.ok false, s'))
    (hone : 1 ≤ limits'.maxPasses) : s.evaluate net limits' = (.ok false, s') :=
  grants_settleWithin Action.inherited_false (fun _ => hone) nofun _ s false s' rfl h

/-- **More passes change nothing.** An evaluation that has ended well has the same answer and the
same state within any higher limit. -/
theorem evaluate_more_passes (hle : limits.maxPasses ≤ limits'.maxPasses) {changed : Bool}
    (h : s.evaluate net limits = (.ok changed, s')) : s.evaluate net limits' = (.ok changed, s') :=
  grants_settleWithin Action.inherited_any (fun hone => Nat.le_trans hone hle) (fun _ => hle) _ s
    changed s' trivial h

/-- The least limit within which the design of three levels settles, and a higher one. -/
theorem evaluate_more_passes_crossed :
    (crossedStart.evaluate Session.crossedNet ⟨2, 16⟩).1 = .error (.noConvergence 1 2) ∧
      ∃ s', crossedStart.evaluate Session.crossedNet ⟨3, 16⟩ = (.ok true, s') ∧
        crossedStart.evaluate Session.crossedNet ⟨1024, 16⟩ = (.ok true, s') := by
  have hruns : (crossedStart.evaluate Session.crossedNet ⟨2, 16⟩).1 = .error (.noConvergence 1 2) ∧
      (crossedStart.evaluate Session.crossedNet ⟨3, 16⟩).1 = .ok true := by
    decide +kernel
  obtain ⟨hfails, hok⟩ := hruns
  cases he : crossedStart.evaluate Session.crossedNet ⟨3, 16⟩ with
  | mk result s' =>
    rw [he] at hok
    cases hok
    exact ⟨hfails, s', rfl, evaluate_more_passes (by decide) he⟩

end State

end ChipLogic
