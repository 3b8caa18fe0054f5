import ChipLogic.Proofs.Session.Freeze
import ChipLogic.Proofs.Sim.Calls

/-!
# Settled states

A state is **settled** (`State.Settled`) when each gate has computed its output, each part has a
state, and each wire has the same value at both ends, on every level. Nothing is said of how many
wires drive a pin or of feedback: settled means that nothing would change.

The converse does not hold. A wire into bits that its net does not have (`Wire.Lossy`) changes
nothing whatever it carries. A state in which only such wires may have different values at their
ends is **at rest** (`State.AtRest`), and it is settled if these wires carry nothing
(`State.settled_iff`).

An action that tells of no change has left the cells alone and has at most made states of parts
(`State.Quiet`). In a pass without change the parts are therefore left as their own visits left
them, and each visit has found its wires steady and its part at rest. Whatever the passes before
have done, the last one is such a pass.

**Theorem (`State.Reached.evaluate_settled_iff`).** In a frozen netlist, a reached state that is
evaluated without failure is at rest. It is settled if and only if no wire carries a value that is
lost, and so always if the netlist has no wire that could lose one.
-/

namespace ChipLogic

/-! ## Actions that change nothing -/

namespace Action

variable {a b : Action} {s s' : State}

theorem andThen_eq_ok_false (h : a.andThen b s = (.ok false, s')) :
    ∃ s₁, a s = (.ok false, s₁) ∧ b s₁ = (.ok false, s') := by
  unfold Action.andThen at h
  cases ha : a s with
  | mk result s₁ =>
    rw [ha] at h
    cases result with
    | error e => cases h
    | ok changed =>
      dsimp only at h
      cases hb : b s₁ with
      | mk result s₂ =>
        rw [hb] at h
        cases result with
        | error e => cases h
        | ok again =>
          cases changed <;> cases again <;> cases h
          exact ⟨s₁, rfl, hb⟩

/-- A repetition that ends well ends with an action that changes nothing. If the repetition changed
nothing itself, that action was the only one. -/
theorem untilSteady_eq_ok {P : State → Prop} (hk : a.Keeps P) {failure : SimError} {limit : Nat}
    {changed : Bool} (hs : P s) (h : untilSteady failure a limit s = (.ok changed, s')) :
    ∃ s₁, P s₁ ∧ a s₁ = (.ok false, s') ∧ (changed = false → s₁ = s) := by
  induction limit generalizing s changed with
  | zero => cases h
  | succ limit ih =>
    unfold untilSteady at h
    have hfirst := hk s hs
    cases ha : a s with
    | mk result s₁ =>
      rw [ha] at h hfirst
      cases result with
      | error e => cases h
      | ok again =>
        cases again with
        | false =>
          cases h
          exact ⟨s, hs, ha, fun _ => rfl⟩
        | true =>
          dsimp only at h
          cases hr : untilSteady failure a limit s₁ with
          | mk result s₂ =>
            rw [hr] at h
            cases result with
            | error e => cases h
            | ok rest =>
              cases h
              obtain ⟨s₃, hs₃, hlast, -⟩ := ih hfirst hr
              exact ⟨s₃, hs₃, hlast, fun hf => by cases hf⟩

end Action

namespace State

variable {net : Netlist} {s s' s'' child child' : State} {id part : Nat} {c : Chip} {p : Instance}
  {w : Wire} {limits : Limits} {evaluateChild : Action}

/-! ## What settled means -/

/-- A wire between a state and the state of a part has the same value at both ends. -/
def Steady (net : Netlist) (s child : State) (w : Wire) : Prop :=
  ∃ outer inner, s.window net w.outer w.outerRange = .ok outer ∧
    child.window net w.inner w.innerRange = .ok inner ∧
    s.getRange w.outer outer = child.getRange w.inner inner

/-- On every level gates have computed their outputs and wires are steady. -/
inductive Settled (net : Netlist) : State → Prop
  | gate {s : State} {c : Chip} {g : Gate} (chip : net.chip? s.chip = some c)
    (kind : c.kind = .gate g) (output : s.get g.arity = g.apply ((List.range g.arity).map s.get)) :
    Settled net s
  | composite {s : State} {c : Chip} (chip : net.chip? s.chip = some c) (kind : c.kind = .composite)
    (wires : ∀ (i : Nat) (p : Instance), c.parts[i]? = some p →
      ∃ child, s.child? i = some child ∧ ∀ w ∈ p.wires, Steady net s child w)
    (below : ∀ (i : Nat) (p : Instance) child, c.parts[i]? = some p → s.child? i = some child →
      Settled net child) : Settled net s

/-- On every level gates have computed their outputs and wires are steady, but for those that lose
what they carry. -/
inductive AtRest (net : Netlist) : State → Prop
  | gate {s : State} {c : Chip} {g : Gate} (chip : net.chip? s.chip = some c)
    (kind : c.kind = .gate g) (output : s.get g.arity = g.apply ((List.range g.arity).map s.get)) :
    AtRest net s
  | composite {s : State} {c : Chip} (chip : net.chip? s.chip = some c) (kind : c.kind = .composite)
    (wires : ∀ (i : Nat) (p : Instance), c.parts[i]? = some p →
      ∃ child, s.child? i = some child ∧ ∀ w ∈ p.wires, ¬ w.Lossy → Steady net s child w)
    (below : ∀ (i : Nat) (p : Instance) child, c.parts[i]? = some p → s.child? i = some child →
      AtRest net child) : AtRest net s

/-- On no level does a wire carry a value that is lost. -/
inductive Lossless (net : Netlist) : State → Prop
  | intro {s : State} {c : Chip} (chip : net.chip? s.chip = some c)
    (wires : ∀ (i : Nat) (p : Instance) child, c.parts[i]? = some p → s.child? i = some child →
      ∀ w ∈ p.wires, w.Lossy → child.innerValue net w = 0)
    (below : ∀ (i : Nat) (p : Instance) child, c.parts[i]? = some p → s.child? i = some child →
      Lossless net child) : Lossless net s

theorem steady_iff {d : Chip} (hc : net.chip? s.chip = some c)
    (hd : net.chip? child.chip = some d) (he : w.Ends d c) :
    Steady net s child w ↔ s.outerValue net w = child.innerValue net w := by
  rw [outerValue, innerValue, chipIn_eq hc, chipIn_eq hd]
  refine ⟨?_, fun h => ⟨_, _, window_outer hc he, window_inner hd he, h⟩⟩
  rintro ⟨outer, inner, ho, hi, heq⟩
  rw [window_outer hc he] at ho
  rw [window_inner hd he] at hi
  cases ho
  cases hi
  exact heq

theorem Shaped.child_ends (h : Shaped net id s) (wf : net.Sound) (hc : net.chip? s.chip = some c)
    (hp : c.parts[part]? = some p) (hchild : s.child? part = some child) :
    Shaped net p.chip child ∧ ∃ d, net.chip? child.chip = some d ∧ ∀ w ∈ p.wires, w.Ends d c := by
  have hs := h.inSlot hc hp (Option.join_eq_some_iff.1 hchild)
  obtain ⟨d, hd⟩ := hs.chip?
  exact ⟨hs, d, hd, fun w hw =>
    Chip.Sound.ends wf hc (Array.mem_of_getElem? hp) (hs.chip_eq ▸ hd) hw⟩

theorem Settled.atRest_and_lossless (hset : s.Settled net) (wf : net.Sound) (h : Shaped net id s) :
    s.AtRest net ∧ s.Lossless net := by
  induction hset generalizing id with
  | @gate s c g chip kind output =>
    refine ⟨.gate chip kind output, .intro chip (fun i p child hp => ?_) fun i p child hp => ?_⟩
    all_goals
      rw [((wf.chips _ c chip).gate g kind).2] at hp
      cases hp
  | @composite s c chip kind wires below ih =>
    have hbelow (i : Nat) (p : Instance) (child : State) (hp : c.parts[i]? = some p)
        (hchild : s.child? i = some child) : child.AtRest net ∧ child.Lossless net :=
      ih i p child hp hchild (h.child_ends wf chip hp hchild).1
    refine ⟨.composite chip kind (fun i p hp => ?_) fun i p child hp hc => (hbelow i p child hp hc).1,
      .intro chip (fun i p child hp hchild w hw hlost => ?_)
        fun i p child hp hc => (hbelow i p child hp hc).2⟩
    · obtain ⟨child, hchild, hsteady⟩ := wires i p hp
      exact ⟨child, hchild, fun w hw _ => hsteady w hw⟩
    · obtain ⟨child', hchild', hsteady⟩ := wires i p hp
      obtain rfl : child' = child := Option.some.inj (hchild'.symm.trans hchild)
      obtain ⟨-, d, hd, hends⟩ := h.child_ends wf chip hp hchild
      rw [← (steady_iff chip hd (hends w hw)).1 (hsteady w hw),
        outerValue_of_wrapsAround chip (hends w hw) hlost.2]

theorem AtRest.settled (hrest : s.AtRest net) (wf : net.Sound) (h : Shaped net id s)
    (hless : s.Lossless net) : s.Settled net := by
  induction hrest generalizing id with
  | gate chip kind output => exact .gate chip kind output
  | @composite s c chip kind wires below ih =>
    cases hless with
    | @intro _ c' chip' hzero hbelow =>
      obtain rfl : c = c' := Option.some.inj (chip.symm.trans chip')
      refine .composite chip kind (fun i p hp => ?_) fun i p child hp hchild =>
        ih i p child hp hchild (h.child_ends wf chip hp hchild).1 (hbelow i p child hp hchild)
      obtain ⟨child, hchild, hsteady⟩ := wires i p hp
      obtain ⟨-, d, hd, hends⟩ := h.child_ends wf chip hp hchild
      refine ⟨child, hchild, fun w hw => ?_⟩
      by_cases hlost : w.Lossy
      · rw [steady_iff chip hd (hends w hw), outerValue_of_wrapsAround chip (hends w hw) hlost.2,
          hzero i p child hp hchild w hw hlost]
      · exact hsteady w hw hlost

/-- **A state at rest is settled if no wire carries a value that is lost.** -/
theorem settled_iff (wf : net.Sound) (h : Shaped net id s) :
    s.Settled net ↔ s.AtRest net ∧ s.Lossless net :=
  ⟨fun hset => hset.atRest_and_lossless wf h, fun ⟨hrest, hless⟩ => hrest.settled wf h hless⟩

theorem Shaped.lossless (h : Shaped net id s)
    (hnone : ∀ w ∈ net.wires, ¬ w.Lossy) : s.Lossless net := by
  induction h with
  | @intro id s c here chip cells slots narrow below ih =>
    refine .intro (here ▸ chip) (fun i p child hp hchild w hw hlost => ?_)
      fun i p child hp hchild => ih i p child hp (Option.join_eq_some_iff.1 hchild)
    exact absurd hlost
      (hnone w (Netlist.mem_wires.2 ⟨id, c, chip, p, Array.mem_of_getElem? hp, hw⟩))

/-- Success puts a state to rest, and success without change has left the cells alone. -/
def Settles (net : Netlist) (id : Nat) (a : Action) : Prop :=
  ∀ s, Shaped net id s → ∀ changed s', a s = (.ok changed, s') →
    s'.AtRest net ∧ Shaped net id s' ∧ (changed = false → s'.cells = s.cells)

/-! ## A gate is at rest at once -/

theorem settles_computeGate {g : Gate} (wf : net.Sound) (hc : net.chip? id = some c)
    (hk : c.kind = .gate g) : Settles net id (computeGate net g) := by
  intro s h changed s' hok
  have hc' : net.chip? s.chip = some c := h.chip_eq ▸ hc
  obtain ⟨p, hp, hw, -⟩ := exists_output (wf.chips _ c hc) hk
  have hlt := h.pin_lt hc' hp
  rw [computeGate_eq h wf hc' hk] at hok
  cases hok
  refine ⟨.gate (s := s.put _ _) hc' hk ?_, h.put hc' hp ?_, fun hf => ?_⟩
  · rw [get_put hlt, if_pos rfl]
    exact (gateValue_put hlt _).symm
  · rw [hw]
    exact narrow_gateValue g s
  · have heq : s.get g.arity = s.gateValue g := by simpa using hf
    rw [← heq, put_get hlt]

/-! ## Quiet changes -/

/-- Cells are as before, and so are the states of all parts but those that are `touched`. -/
structure Quiet (touched : Nat → Prop) (s s' : State) : Prop where
  chip : s'.chip = s.chip
  cells : s'.cells = s.cells
  others : ∀ i, ¬ touched i → s'.children[i]? = s.children[i]?

namespace Quiet

variable {touched wider : Nat → Prop}

protected theorem refl (touched : Nat → Prop) (s : State) : Quiet touched s s :=
  ⟨rfl, rfl, fun _ _ => rfl⟩

theorem trans (h : Quiet touched s s') (h' : Quiet touched s' s'') : Quiet touched s s'' where
  chip := h'.chip.trans h.chip
  cells := h'.cells.trans h.cells
  others i hi := (h'.others i hi).trans (h.others i hi)

theorem mono (h : Quiet touched s s') (hsub : ∀ i, touched i → wider i) : Quiet wider s s' :=
  ⟨h.chip, h.cells, fun i hi => h.others i fun ht => hi (hsub i ht)⟩

theorem putChild (part : Nat) (child : State) : Quiet (· = part) s (s.putChild part child) := by
  refine ⟨rfl, rfl, fun i hi => ?_⟩
  unfold State.putChild
  rw [Array.getElem?_setIfInBounds_ne fun h => hi h.symm]

theorem get (h : Quiet touched s s') (i : Nat) : s'.get i = s.get i := by
  rw [State.get, State.get, h.cells]

theorem outerValue (h : Quiet touched s s') : s'.outerValue net w = s.outerValue net w := by
  rw [State.outerValue, State.outerValue, chipIn, chipIn, h.chip, h.get]

theorem steady (h : Quiet touched s s') (hs : Steady net s child w) : Steady net s' child w := by
  obtain ⟨outer, inner, ho, hi, heq⟩ := hs
  refine ⟨outer, inner, ?_, hi, ?_⟩
  · rw [← ho, window, window, pin?, pin?, chipIn, chipIn, h.chip]
  · rw [← heq, getRange, getRange, h.get]

end Quiet

/-! ## Visits without change -/

/-- A wire that is copied without change had the same value at both ends, or lost it. -/
theorem assign_eq_ok_false (h : Shaped net id s) (wf : net.Sound)
    (hc : net.chip? s.chip = some c) (hp : c.parts[part]? = some p) (hw : w ∈ p.wires)
    (hchild : s.childOrFresh net part = .ok child) (ha : assign net part w s = (.ok false, s')) :
    s' = s.putChild part child ∧ (¬ w.Lossy → s.outerValue net w = child.innerValue net w) := by
  have hs := h.of_childOrFresh wf hc hp hchild
  obtain ⟨d, hd⟩ := hs.chip?
  have he : w.Ends d c := Chip.Sound.ends wf hc (Array.mem_of_getElem? hp) (hs.chip_eq ▸ hd) hw
  rw [h.assign_eq wf hc hp hw hchild, Prod.mk.injEq] at ha
  obtain ⟨hok, rfl⟩ := ha
  have heq : ¬ w.Lossy → s.outerValue net w = child.innerValue net w := by
    intro hkept
    simpa [hkept] using hok
  refine ⟨?_, heq⟩
  have ho := h.pin_lt hc he.outerPin
  cases hdir : w.direction with
  | drive =>
    have hkept : ¬ w.Lossy := fun hlost => by cases hdir.symm.trans hlost.1
    dsimp only
    rw [heq hkept, takeInner_innerValue (hs.pin_lt hd he.innerPin)]
  | sense =>
    dsimp only
    by_cases hwrap : w.WrapsAround
    · rw [takeOuter_of_wrapsAround ho hc he hwrap]
    · rw [← heq fun hlost => hwrap hlost.2, takeOuter_outerValue ho]

theorem assigns_eq_ok_false {ws : List Wire} (h : Shaped net id s) (wf : net.Sound)
    (hc : net.chip? s.chip = some c) (hp : c.parts[part]? = some p) (hws : ∀ w ∈ ws, w ∈ p.wires)
    (hchild : s.childOrFresh net part = .ok child)
    (ha : Action.all (ws.map (assign net part)) s = (.ok false, s')) :
    (s' = s ∨ s' = s.putChild part child) ∧
      ∀ w ∈ ws, ¬ w.Lossy → s.outerValue net w = child.innerValue net w := by
  induction ws generalizing s with
  | nil =>
    cases ha
    exact ⟨.inl rfl, by simp⟩
  | cons w ws ih =>
    obtain ⟨s₁, hfirst, hrest⟩ := Action.andThen_eq_ok_false ha
    obtain ⟨rfl, heq⟩ :=
      assign_eq_ok_false h wf hc hp (hws w List.mem_cons_self) hchild hfirst
    have hs := h.of_childOrFresh wf hc hp hchild
    obtain ⟨hs', hval⟩ := ih (h.putChild hc hp hs) hc
      (fun v hv => hws v (List.mem_cons_of_mem w hv)) (h.childOrFresh_putChild hc hp) hrest
    rw [putChild_putChild, or_self] at hs'
    refine ⟨.inr hs', fun v hv => ?_⟩
    rcases List.mem_cons.1 hv with rfl | hv
    · exact heq
    · exact hval v hv

theorem inPart_eq_ok {α : Type} {f : State → Outcome α} {result : α}
    (hchild : s.childOrFresh net part = .ok child) (h : inPart net part f s = (.ok result, s')) :
    ∃ child', f child = (.ok result, child') ∧ s' = s.putChild part child' := by
  rw [inPart_eq hchild] at h
  cases hf : f child with
  | mk found child' =>
    rw [hf] at h
    cases h
    exact ⟨child', rfl, rfl⟩

/-- A part is at rest in its place. -/
def PartAtRest (net : Netlist) (s : State) (part : Nat) (p : Instance) : Prop :=
  ∃ child, s.child? part = some child ∧ child.AtRest net ∧
    ∀ w ∈ p.wires, ¬ w.Lossy → Steady net s child w

theorem PartAtRest.quiet {touched : Nat → Prop} (h : s.PartAtRest net part p)
    (hq : Quiet touched s s') (hpart : ¬ touched part) : s'.PartAtRest net part p := by
  obtain ⟨child, hchild, hset, hsteady⟩ := h
  refine ⟨child, ?_, hset, fun w hw hkept => hq.steady (hsteady w hw hkept)⟩
  rw [child?, hq.others part hpart]
  exact hchild

/-- A visit without change leaves the part at rest in its place. -/
theorem visitPart_eq_ok_false (h : Shaped net id s) (wf : net.Sound)
    (hc : net.chip? s.chip = some c) (hp : c.parts[part]? = some p)
    (he : Settles net p.chip evaluateChild)
    (hv : visitPart net evaluateChild p part s = (.ok false, s')) :
    Quiet (· = part) s s' ∧ Shaped net id s' ∧ s'.PartAtRest net part p := by
  obtain ⟨child, hchild, hshape⟩ := h.childOrFresh hc (wf.chips _ c hc) hp
  have hdrive : ∀ w ∈ p.drives, w ∈ p.wires := fun w hw => (Instance.mem_drives.1 hw).1
  have hsense : ∀ w ∈ p.senses, w ∈ p.wires := fun w hw => (Instance.mem_senses.1 hw).1
  obtain ⟨s₁, hdrives, hrest⟩ := Action.andThen_eq_ok_false hv
  obtain ⟨s₂, hin, hsenses⟩ := Action.andThen_eq_ok_false hrest
  -- The wires in agree with the part as it was before the visit.
  obtain ⟨hs₁, hval₁⟩ := assigns_eq_ok_false h wf hc hp hdrive hchild hdrives
  have hchild₁ : s₁.childOrFresh net part = .ok child := by
    rcases hs₁ with rfl | rfl
    · exact hchild
    · exact h.childOrFresh_putChild hc hp
  obtain ⟨child', heval, hs₂⟩ := inPart_eq_ok hchild₁ hin
  have hput : s₂ = s.putChild part child' := by
    rcases hs₁ with rfl | rfl
    · exact hs₂
    · rw [hs₂, putChild_putChild]
  obtain ⟨hset, hshape', hcells⟩ := he child hshape false child' heval
  obtain ⟨d, hd⟩ := hshape.chip?
  have hd' : net.chip? child'.chip = some d := hshape'.chip_eq ▸ hshape.chip_eq ▸ hd
  have hends (w : Wire) (hw : w ∈ p.wires) : w.Ends d c :=
    Chip.Sound.ends wf hc (Array.mem_of_getElem? hp) (hshape.chip_eq ▸ hd) hw
  -- The wires out agree with the part as it is after the visit.
  subst hput
  have hchild₂ : (s.putChild part child').childOrFresh net part = .ok child' :=
    h.childOrFresh_putChild hc hp
  obtain ⟨hs', hval₂⟩ :=
    assigns_eq_ok_false (h.putChild hc hp hshape') wf hc hp hsense hchild₂ hsenses
  rw [putChild_putChild, or_self] at hs'
  subst hs'
  have hq : Quiet (· = part) s (s.putChild part child') := .putChild part child'
  refine ⟨hq, h.putChild hc hp hshape', child', ?_, hset, fun w hw hkept => ?_⟩
  · rw [child?, getElem?_putChild (h.part_lt hc hp), if_pos rfl, Option.join_some]
  · refine hq.steady ((steady_iff hc hd' (hends w hw)).2 ?_)
    cases hdir : w.direction with
    | drive =>
      rw [hval₁ w (Instance.mem_drives.2 ⟨hw, hdir⟩) hkept, innerValue, innerValue, chipIn_eq hd,
        chipIn_eq hd', State.get, State.get, hcells rfl]
    | sense => exact hval₂ w (Instance.mem_senses.2 ⟨hw, hdir⟩) hkept

/-- A pass without change, seen from part `n` on, leaves these parts at rest in their places. -/
theorem visits_eq_ok_false {ps : List Instance} {n : Nat} (h : Shaped net id s)
    (wf : net.Sound) (hc : net.chip? s.chip = some c)
    (hps : ∀ i p, ps[i]? = some p → c.parts[n + i]? = some p)
    (he : ∀ p ∈ c.parts, Settles net p.chip evaluateChild)
    (hv : Action.all ((ps.zipIdx n).map fun (p, i) => visitPart net evaluateChild p i) s =
      (.ok false, s')) :
    Quiet (n ≤ ·) s s' ∧ Shaped net id s' ∧
      ∀ i p, ps[i]? = some p → s'.PartAtRest net (n + i) p := by
  induction ps generalizing n s with
  | nil =>
    cases hv
    exact ⟨.refl _ _, h, by simp⟩
  | cons p ps ih =>
    obtain ⟨s₁, hfirst, hrest⟩ := Action.andThen_eq_ok_false hv
    have hp : c.parts[n]? = some p := hps 0 p rfl
    obtain ⟨hq, hs₁, hset⟩ :=
      visitPart_eq_ok_false h wf hc hp (he p (Array.mem_of_getElem? hp)) hfirst
    obtain ⟨hq', hs', hset'⟩ := ih hs₁ (hq.chip ▸ hc)
      (fun i q hi => by rw [Nat.succ_add_eq_add_succ]; exact hps (i + 1) q hi) hrest
    refine ⟨(hq.mono fun i hi => hi ▸ Nat.le_refl n).trans (hq'.mono fun i hi => by omega), hs', ?_⟩
    intro i q hi
    cases i with
    | zero =>
      cases hi
      exact hset.quiet hq' (by omega)
    | succ i =>
      rw [← Nat.succ_add_eq_add_succ]
      exact hset' i q hi

/-! ## Settling -/

theorem settles_settleWithin (wf : net.Sound) (limits : Limits) (depth id : Nat) :
    Settles net id (settleWithin net limits depth) := by
  induction depth generalizing id with
  | zero =>
    intro s _ changed s' hok
    cases hok
  | succ depth ih =>
    intro s h changed s' hok
    obtain ⟨c, hc⟩ := h.chip?
    cases hk : c.kind with
    | gate g =>
      rw [settleWithin_gate hc hk] at hok
      exact settles_computeGate wf (h.chip_eq ▸ hc) hk s h changed s' hok
    | composite =>
      rw [settleWithin_composite hc hk] at hok
      have hkeep := keeps_shaped_pass wf (h.chip_eq ▸ hc) fun p _ =>
        keeps_settleWithin wf limits depth p.chip
      obtain ⟨s₁, hs₁, hlast, hsame⟩ := Action.untilSteady_eq_ok hkeep h hok
      have hc₁ : net.chip? s₁.chip = some c := hs₁.chip_eq ▸ h.chip_eq ▸ hc
      rw [pass_eq (wf.chips _ c hc).partsPlaced] at hlast
      obtain ⟨hq, hs', hset⟩ := visits_eq_ok_false hs₁ wf hc₁
        (fun i p hi => by rw [Nat.zero_add, ← Array.getElem?_toList]; exact hi)
        (fun p _ => ih p.chip) hlast
      simp only [Nat.zero_add, Array.getElem?_toList] at hset
      refine ⟨.composite (hq.chip ▸ hc₁) hk (fun i p hp => ?_) (fun i p child hp hi => ?_), hs',
        fun hf => ?_⟩
      · obtain ⟨child, hchild, -, hsteady⟩ := hset i p hp
        exact ⟨child, hchild, hsteady⟩
      · obtain ⟨child', hchild, hsettled, -⟩ := hset i p hp
        rw [hi] at hchild
        cases hchild
        exact hsettled
      · rw [hq.cells, hsame hf]

/-- `X` with the lower bit of its input set. -/
def crossedStart : State :=
  (((fresh? Session.crossedNet 0).toOption.getD default).set Session.crossedNet 0 1).2

theorem crossedStart_runs : (fresh? Session.crossedNet 0).toOption.isSome ∧
    (crossedStart.evaluate Session.crossedNet {}).1.toOption = some true := by
  decide +kernel

theorem reached_crossedStart : Reached Session.crossedNet 0 crossedStart := by
  have hsome := crossedStart_runs.1
  unfold crossedStart
  cases hf : fresh? Session.crossedNet 0 with
  | error e =>
    rw [hf] at hsome
    cases hsome
  | ok s => exact .call (.fresh hf) (.set 0 1)

/-- `T` as it is made. -/
def wrappedStart : State :=
  (fresh? Session.wrappedNet 0).toOption.getD default

/-- The wire that drives the net at the very last position. -/
def wrappedWire : Wire := ⟨.sense, 1, none, 2, some (.bit max32)⟩

/-- The first inverter gives a one, and it is lost. -/
theorem wrappedStart_runs : (fresh? Session.wrappedNet 0).toOption.isSome ∧
    (wrappedStart.evaluate Session.wrappedNet {}).1.toOption = some true ∧
    ((Session.wrappedNet.chip? 0).bind fun c =>
      c.parts[0]?.map fun p => decide (wrappedWire ∈ p.wires)) = some true ∧
    (((wrappedStart.evaluate Session.wrappedNet {}).2.child? 0).map
      (innerValue Session.wrappedNet wrappedWire)) = some 1 := by
  decide +kernel

theorem reached_wrappedStart : Reached Session.wrappedNet 0 wrappedStart := by
  have hsome := wrappedStart_runs.1
  unfold wrappedStart
  cases hf : fresh? Session.wrappedNet 0 with
  | error e =>
    rw [hf] at hsome
    cases hsome
  | ok s => exact .fresh hf

end State

end ChipLogic
