import ChipLogic.Proofs.Netlist.Depth
import ChipLogic.Proofs.Sim.Frame
import ChipLogic.Proofs.Sim.Settled

/-!
# How evaluation fails

Evaluation follows the parts of chips down to the gates, and it is cut off at a number of levels.
In a frozen netlist that never happens, and then the number is of no account.

**More levels change nothing.** An action *agrees* with another if it gives the same outcome
wherever the other is not cut off (`Action.Agrees`). Rows and repetitions of agreeing actions agree,
so settling with more levels agrees with settling with fewer (`State.agrees_settleWithin`). This
holds of every netlist, whether a chip contains itself or not.

**Only passes run out.** In a frame copying a part's own wire does not fail, a part has a state, and
a gate computes its output. What is left is a chip that is not steady after the last pass
(`State.Unsteady`), and the levels, which are enough where no chip contains itself
(`State.safe_settleWithin`). Values play no part in it, so a state may have come about by copying
any wires whatever (`State.FreelyReached`).

**Theorem (`State.FreelyReached.evaluate_fails_only`).** In a frozen netlist the outcome of an
evaluation does not depend on the bound on levels, and its one failure is that of a chip with parts,
the evaluated one or one inside it, that has not settled within the most passes allowed.
-/

namespace ChipLogic

/-! ## Agreeing actions -/

namespace Action

variable {a a' a'' b b' : Action} {failure : SimError}

/-- The outcome is not that of a cut at the bound on levels. -/
def Ends (r : Outcome Bool) : Prop :=
  ∀ chip, r.1 ≠ .error (.endless chip)

/-- The second action has the outcome of the first wherever the first is not cut off. -/
def Agrees (a b : Action) : Prop :=
  ∀ s, Ends (a s) → b s = a s

theorem Agrees.refl (a : Action) : a.Agrees a := fun _ _ => rfl

theorem Agrees.trans (h : a.Agrees a') (h' : a'.Agrees a'') : a.Agrees a'' := by
  intro s hs
  have hfirst := h s hs
  rw [h' s (by rw [hfirst]; exact hs), hfirst]

theorem Agrees.andThen (ha : a.Agrees a') (hb : b.Agrees b') :
    (a.andThen b).Agrees (a'.andThen b') := by
  intro s hs
  have hfirst := ha s
  unfold Action.andThen at hs ⊢
  cases h : a s with
  | mk result s₁ =>
    rw [h] at hs hfirst
    cases result with
    | error e => rw [hfirst hs]
    | ok changed =>
      rw [hfirst fun _ hc => by cases hc]
      have hsecond := hb s₁
      dsimp only at hs ⊢
      cases h' : b s₁ with
      | mk result s₂ =>
        rw [h'] at hs hsecond
        cases result with
        | error e => rw [hsecond hs]
        | ok again => rw [hsecond fun _ hc => by cases hc]

theorem agrees_all {α : Type} {xs : List α} {f g : α → Action}
    (h : ∀ x ∈ xs, (f x).Agrees (g x)) : (all (xs.map f)).Agrees (all (xs.map g)) := by
  induction xs with
  | nil => exact .refl _
  | cons x xs ih =>
    exact (h x List.mem_cons_self).andThen (ih fun y hy => h y (List.mem_cons_of_mem x hy))

theorem Agrees.untilSteady (h : a.Agrees a') (limit : Nat) :
    (untilSteady failure a limit).Agrees (untilSteady failure a' limit) := by
  induction limit with
  | zero => exact .refl _
  | succ limit ih =>
    intro s hs
    have hfirst := h s
    unfold Action.untilSteady at hs ⊢
    cases ha : a s with
    | mk result s₁ =>
      rw [ha] at hs hfirst
      cases result with
      | error e => rw [hfirst hs]
      | ok changed =>
        rw [hfirst fun _ hc => by cases hc]
        cases changed with
        | false => rfl
        | true =>
          have hrest := ih s₁
          dsimp only at hs ⊢
          cases hu : Action.untilSteady failure a limit s₁ with
          | mk result s₂ =>
            rw [hu] at hs hrest
            cases result with
            | error e => rw [hrest hs]
            | ok again => rw [hrest fun _ hc => by cases hc]

end Action

namespace State

variable {net : Netlist} {s : State} {id part : Nat} {c : Chip} {p : Instance} {limits : Limits}
  {evaluateChild evaluateChild' : Action}

theorem agrees_inPart (h : evaluateChild.Agrees evaluateChild') :
    Action.Agrees (inPart net part evaluateChild) (inPart net part evaluateChild') := by
  intro s hs
  unfold inPart at hs ⊢
  cases hchild : s.childOrFresh net part with
  | error e => rfl
  | ok child =>
    rw [hchild] at hs
    dsimp only at hs ⊢
    rw [h child hs]

theorem agrees_pass (h : evaluateChild.Agrees evaluateChild') (c : Chip) :
    (pass net evaluateChild c).Agrees (pass net evaluateChild' c) :=
  Action.agrees_all fun _ _ =>
    (Action.Agrees.refl _).andThen ((agrees_inPart h).andThen (.refl _))

/-- One level more agrees with what was not cut off. -/
theorem agrees_settleWithin_succ (net : Netlist) (limits : Limits) (depth : Nat) :
    (settleWithin net limits depth).Agrees (settleWithin net limits (depth + 1)) := by
  induction depth with
  | zero => exact fun s hs => absurd rfl (hs s.chip)
  | succ depth ih =>
    intro s hs
    rw [settleWithin] at hs ⊢
    conv_rhs => rw [settleWithin]
    dsimp only at hs ⊢
    cases hk : (s.chipIn net).kind with
    | gate g => rfl
    | composite =>
      rw [hk] at hs
      exact (agrees_pass ih _).untilSteady _ s hs

theorem agrees_settleWithin (net : Netlist) (limits : Limits) {depth depth' : Nat}
    (h : depth ≤ depth') :
    (settleWithin net limits depth).Agrees (settleWithin net limits depth') := by
  induction h with
  | refl => exact .refl _
  | step _ ih => exact ih.trans (agrees_settleWithin_succ net limits _)

end State

/-! ## Safe actions -/

namespace Action

variable {P : State → Prop} {E : SimError → Prop} {a b : Action} {failure : SimError}

/-- The property survives the action, and where it holds the action has no failures but these. -/
structure Safe (P : State → Prop) (E : SimError → Prop) (a : Action) : Prop where
  keeps : a.Keeps P
  fails : ∀ s, P s → ∀ e, (a s).1 = .error e → E e

theorem safe_none : Safe P E none :=
  ⟨keeps_none, fun _ _ _ he => by cases he⟩

theorem Safe.andThen (ha : a.Safe P E) (hb : b.Safe P E) : (a.andThen b).Safe P E where
  keeps := ha.keeps.andThen hb.keeps
  fails s hs e he := by
    have hfirst := ha.fails s hs
    have hkeep := ha.keeps s hs
    unfold Action.andThen at he
    cases h : a s with
    | mk result s₁ =>
      rw [h] at he hfirst hkeep
      cases result with
      | error _ => exact hfirst e he
      | ok changed =>
        have hsecond := hb.fails s₁ hkeep
        dsimp only at he
        cases h' : b s₁ with
        | mk result s₂ =>
          rw [h'] at he hsecond
          cases result with
          | error _ => exact hsecond e he
          | ok again => cases he

theorem safe_all {as : List Action} (h : ∀ a ∈ as, a.Safe P E) : (all as).Safe P E := by
  induction as with
  | nil => exact safe_none
  | cons a as ih =>
    exact (h a List.mem_cons_self).andThen (ih fun b hb => h b (List.mem_cons_of_mem a hb))

/-- Repetition adds a failure of its own. -/
theorem Safe.untilSteady (ha : a.Safe P E) (hf : E failure) (limit : Nat) :
    (untilSteady failure a limit).Safe P E where
  keeps := ha.keeps.untilSteady failure limit
  fails := by
    induction limit with
    | zero =>
      intro s _ e he
      cases he
      exact hf
    | succ limit ih =>
      intro s hs e he
      have hfirst := ha.fails s hs
      have hkeep := ha.keeps s hs
      unfold Action.untilSteady at he
      cases h : a s with
      | mk result s₁ =>
        rw [h] at he hfirst hkeep
        cases result with
        | error _ => exact hfirst e he
        | ok changed =>
          cases changed with
          | false => cases he
          | true =>
            have hrest := ih s₁ hkeep
            dsimp only at he
            cases hu : Action.untilSteady failure a limit s₁ with
            | mk result s₂ =>
              rw [hu] at he hrest
              cases result with
              | error _ => exact hrest e he
              | ok again => cases he

end Action

namespace State

variable {net : Netlist} {s : State} {id part : Nat} {c : Chip} {p : Instance} {limits : Limits}
  {evaluateChild : Action} {E : SimError → Prop}

/-- Copying a wire of a part does not fail. -/
theorem safe_assign (wf : net.Sound) (hc : net.chip? id = some c)
    (hp : c.parts[part]? = some p) {w : Wire} (hw : w ∈ p.wires) :
    Action.Safe (Framed net id) E (assign net part w) where
  keeps s hs := hs.assign wf part w
  fails s hs e he := by
    obtain ⟨changed, hok⟩ := hs.exists_assign_ok wf hc hp hw
    rw [hok] at he
    cases he

theorem safe_assigns (wf : net.Sound) (hc : net.chip? id = some c)
    (hp : c.parts[part]? = some p) {ws : List Wire} (hws : ∀ w ∈ ws, w ∈ p.wires) :
    (Action.all (ws.map (assign net part))).Safe (Framed net id) E := by
  refine Action.safe_all fun a ha => ?_
  obtain ⟨w, hw, rfl⟩ := List.mem_map.1 ha
  exact safe_assign wf hc hp (hws w hw)

/-- A part fails only as its chip does. -/
theorem safe_inPart (wf : net.Sound) (hc : net.chip? id = some c)
    (hp : c.parts[part]? = some p) (he : evaluateChild.Safe (Framed net p.chip) E) :
    Action.Safe (Framed net id) E (inPart net part evaluateChild) where
  keeps s hs := by
    obtain ⟨child, hchild, hframe⟩ := hs.childOrFresh wf hc hp
    rw [inPart_eq hchild]
    exact hs.putChild hc hp (he.keeps child hframe)
  fails s hs e herr := by
    obtain ⟨child, hchild, hframe⟩ := hs.childOrFresh wf hc hp
    rw [inPart_eq hchild] at herr
    exact he.fails child hframe e herr

theorem safe_visitPart (wf : net.Sound) (hc : net.chip? id = some c)
    (hp : c.parts[part]? = some p) (he : evaluateChild.Safe (Framed net p.chip) E) :
    (visitPart net evaluateChild p part).Safe (Framed net id) E := by
  refine (safe_assigns wf hc hp fun w hw => (Instance.mem_drives.1 hw).1).andThen ?_
  refine (safe_inPart wf hc hp he).andThen ?_
  exact safe_assigns wf hc hp fun w hw => (Instance.mem_senses.1 hw).1

theorem safe_pass (wf : net.Sound) (hc : net.chip? id = some c)
    (he : ∀ p ∈ c.parts, evaluateChild.Safe (Framed net p.chip) E) :
    (pass net evaluateChild c).Safe (Framed net id) E := by
  refine Action.safe_all fun a ha => ?_
  obtain ⟨i, p, hp, rfl⟩ := exists_visit (wf.chips id c hc).partsPlaced ha
  exact safe_visitPart wf hc hp (he p (Array.mem_of_getElem? hp))

/-! ## Passes run out -/

/-- The failure of a chip with parts, the one at `id` or one inside it, that has not settled. -/
def Unsteady (net : Netlist) (limits : Limits) (id : Nat) (e : SimError) : Prop :=
  ∃ chip c, e = .noConvergence chip limits.maxPasses ∧ net.chip? chip = some c ∧
    c.kind = .composite ∧ Relation.ReflTransGen net.Instantiates id chip

theorem Unsteady.outside {inner : Nat} {e : SimError} (h : Unsteady net limits inner e)
    (hi : net.Instantiates id inner) : Unsteady net limits id e := by
  obtain ⟨chip, c, he, hc, hk, hreach⟩ := h
  exact ⟨chip, c, he, hc, hk, .head hi hreach⟩

/-- **Settling fails only where passes run out**, if there are levels enough. -/
theorem safe_settleWithin (wf : net.Sound) (limits : Limits) {levels depth : Nat}
    (hwithin : net.Within levels id) (hdepth : levels ≤ depth) :
    (settleWithin net limits depth).Safe (Framed net id) (Unsteady net limits id) := by
  induction levels generalizing id depth with
  | zero => cases hwithin
  | succ levels ih =>
    obtain ⟨depth, rfl⟩ := Nat.exists_eq_succ_of_ne_zero (by omega : depth ≠ 0)
    -- a part has a level less, and its failures are failures of this chip
    have hinside (c : Chip) (hc : net.chip? id = some c) : ∀ p ∈ c.parts,
        (settleWithin net limits depth).Safe (Framed net p.chip) (Unsteady net limits id) := by
      intro p hp
      have hinner : net.Instantiates id p.chip := ⟨c, hc, p, hp, rfl⟩
      have hchild := ih (hwithin p.chip hinner) (Nat.le_of_succ_le_succ hdepth)
      exact ⟨hchild.keeps, fun t ht e he => (hchild.fails t ht e he).outside hinner⟩
    have hsettle (s : State) (hs : Framed net id s) :
        Framed net id (settleWithin net limits (depth + 1) s).2 ∧
          ∀ e, (settleWithin net limits (depth + 1) s).1 = .error e → Unsteady net limits id e := by
      obtain ⟨c, hc⟩ := hs.chip?
      have hc' : net.chip? s.chip = some c := hs.chip_eq ▸ hc
      cases hk : c.kind with
      | gate g =>
        rw [settleWithin_gate hc' hk]
        exact ⟨hs.set _ _, fun e he => by cases he⟩
      | composite =>
        rw [settleWithin_composite hc' hk]
        have hself : Unsteady net limits id (.noConvergence s.chip limits.maxPasses) :=
          ⟨s.chip, c, rfl, hs.chip_eq ▸ hc, hk, hs.chip_eq ▸ .refl⟩
        have hsafe := (safe_pass wf hc (hinside c hc)).untilSteady hself limits.maxPasses
        exact ⟨hsafe.keeps s hs, hsafe.fails s hs⟩
    exact ⟨fun s hs => (hsettle s hs).1, fun s hs => (hsettle s hs).2⟩

theorem Framed.safe_settleWithin (h : Framed net id s) (wf : net.Sound) (limits : Limits)
    {depth : Nat} (hdepth : net.size ≤ depth) :
    (settleWithin net limits depth).Safe (Framed net id) (Unsteady net limits id) := by
  obtain ⟨c, hc⟩ := h.chip?
  exact State.safe_settleWithin wf limits (wf.within_size hc) hdepth

/-! ## States with any values -/

/-- A call on a state, or on the state of a part, that may copy any wire. -/
inductive FreeCall (net : Netlist) : State → State → Prop
  | call {s s' : State} (call : Call net s s') : FreeCall net s s'
  | assign {s : State} (part : Nat) (w : Wire) : FreeCall net s (assign net part w s).2
  | inPart {s child child' : State} {part : Nat} (found : s.childOrFresh net part = .ok child)
    (call : FreeCall net child child') : FreeCall net s (s.putChild part child')

/-- The states of a chip that calls lead to when any wire may be copied. -/
inductive FreelyReached (net : Netlist) (id : Nat) : State → Prop
  | fresh {s : State} : fresh? net id = .ok s → FreelyReached net id s
  | call {s s' : State} : FreelyReached net id s → FreeCall net s s' → FreelyReached net id s'

theorem Reached.freely (h : Reached net id s) : FreelyReached net id s := by
  induction h with
  | fresh hf => exact .fresh hf
  | call _ hcall ih => exact .call ih (.call hcall)

theorem Framed.evaluate (h : Framed net id s) (wf : net.Sound) (limits : Limits) :
    Framed net id (s.evaluate net limits).2 :=
  (h.safe_settleWithin wf limits (Nat.le_add_right _ _)).keeps s h

theorem Call.framed {s' : State} (hcall : Call net s s') (wf : net.Sound)
    (h : Framed net id s) : Framed net id s' := by
  induction hcall generalizing id with
  | set pin value => exact h.set pin value
  | setRange pin value range => exact h.setRange pin value range
  | setNamed name value => exact h.setNamed name value
  | trySet pin value => exact h.trySet pin value
  | assign => exact h.assign wf _ _
  | evaluate limits => exact h.evaluate wf limits
  | reset => exact h.reset
  | @ask s part =>
    cases hchild : s.childOrFresh net part with
    | error e =>
      rw [State.inPart, hchild]
      exact h
    | ok child =>
      obtain ⟨c, p, hc, hp, hframe⟩ := h.of_childOrFresh wf hchild
      rw [State.inPart, hchild]
      exact h.putChild hc hp hframe
  | inPart found _ ih =>
    obtain ⟨c, p, hc, hp, hframe⟩ := h.of_childOrFresh wf found
    exact h.putChild hc hp (ih hframe)

theorem FreeCall.framed {s' : State} (hcall : FreeCall net s s') (wf : net.Sound)
    (h : Framed net id s) : Framed net id s' := by
  induction hcall generalizing id with
  | call hcall => exact hcall.framed wf h
  | assign part w => exact h.assign wf part w
  | inPart found _ ih =>
    obtain ⟨c, p, hc, hp, hframe⟩ := h.of_childOrFresh wf found
    exact h.putChild hc hp (ih hframe)

/-- **Whatever was copied, a state keeps its frame.** -/
theorem FreelyReached.framed (h : FreelyReached net id s) (wf : net.Sound) :
    Framed net id s := by
  induction h with
  | fresh hf => exact (shaped_fresh hf).framed
  | call _ hcall ih => exact hcall.framed wf ih

/-- **Evaluation fails only where passes run out**, whatever the bound on levels. -/
theorem FreelyReached.evaluate_fails_only {session : Session} (hsession : session.Reachable)
    {top : Nat} (hf : (session.freeze top).1 = .ok (some net)) (h : FreelyReached net id s)
    (limits : Limits) :
    (∀ depth, net.size ≤ depth → settleWithin net limits depth s = s.evaluate net limits) ∧
      ∀ e, (s.evaluate net limits).1 = .error e →
        ∃ chip c, e = .noConvergence chip limits.maxPasses ∧ net.chip? chip = some c ∧
          c.kind = .composite ∧ Relation.ReflTransGen net.Instantiates id chip := by
  have wf := hsession.sound.netlist_sound hf
  have hs := h.framed wf
  have hbound : net.size ≤ net.depthBound := Nat.le_add_right _ _
  have hends : Action.Ends (settleWithin net limits net.size s) := by
    intro chip hcut
    obtain ⟨_, _, heq, -⟩ := (hs.safe_settleWithin wf limits le_rfl).fails s hs _ hcut
    cases heq
  have hsame {depth : Nat} (hle : net.size ≤ depth) := agrees_settleWithin net limits hle s hends
  refine ⟨fun depth hle => ?_, (hs.safe_settleWithin wf limits hbound).fails s hs⟩
  rw [hsame hle, evaluate, hsame hbound]

/-- One pass is too few for the chip inside. -/
theorem FreelyReached.evaluate_fails_only_crossed :
    settleWithin Session.crossedNet ⟨1, 16⟩ 3 crossedStart =
        crossedStart.evaluate Session.crossedNet ⟨1, 16⟩ ∧
      (crossedStart.evaluate Session.crossedNet ⟨1, 16⟩).1 = .error (.noConvergence 1 1) ∧
      (∃ c, Session.crossedNet.chip? 1 = some c ∧ c.kind = .composite) ∧
      Relation.ReflTransGen Session.crossedNet.Instantiates 0 1 := by
  have hruns : Session.crossedNet.size ≤ 3 ∧
      (crossedStart.evaluate Session.crossedNet ⟨1, 16⟩).1 = .error (.noConvergence 1 1) := by
    decide +kernel
  obtain ⟨hdepth, hfails⟩ := reached_crossedStart.freely.evaluate_fails_only
    Session.reachable_crossed Session.freeze_crossed ⟨1, 16⟩
  obtain ⟨chip, c, he, hc, hk, hreach⟩ := hfails _ hruns.2
  cases he
  exact ⟨hdepth 3 hruns.1, hruns.2, ⟨c, hc, hk⟩, hreach⟩

end State

end ChipLogic
