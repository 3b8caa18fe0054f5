import ChipLogic.Proofs.Sim.Failure
import ChipLogic.Proofs.Sim.Nodes

/-!
# States with the same values

The states of parts are made when they are asked for, so a state can be missing where another one
has a state in which all is zero. What counts are the values: a cell is addressed by a path of parts
and the position of a pin, and cells of states that have not been made read as zero
(`State.cellAt`). Two states are **alike** if all their cells are (`State.Alike`).

**Twins** (`State.Twins`) are alike states of one chip. An action that starts from either of two
twins gives the same answer or fails in the same way, and ends in twins (`State.Respects`). This
holds of copying a wire and of computing a gate, of passes (`State.pass_induction`) and repetitions,
and so of settling (`State.respects_settleWithin`).

**Honest actions** (`State.Honest`). An action that ends well and tells of no change has changed no
value; at most it has made states of parts.
-/

namespace ChipLogic

namespace State

variable {net : Netlist} {s s' t child : State} {id pin part : Nat} {path : List Nat}

/-! ## Cells of a tree -/

/-- The value of a cell of the state at the end of a path of parts. A state that has not been made
is all zero. -/
def cellAt (s : State) (path : List Nat) (pin : Nat) : UInt64 :=
  ((s.node? path).map (·.get pin)).getD 0

theorem cellAt_nil (s : State) (pin : Nat) : s.cellAt [] pin = s.get pin := rfl

theorem cellAt_cons (s : State) (part : Nat) (path : List Nat) (pin : Nat) :
    s.cellAt (part :: path) pin = ((s.child? part).map (·.cellAt path pin)).getD 0 := by
  rw [cellAt, node?]
  cases s.child? part <;> rfl

theorem cellAt_fresh (h : fresh? net id = .ok s) (path : List Nat) (pin : Nat) :
    s.cellAt path pin = 0 := by
  cases path with
  | nil => exact get_fresh h pin
  | cons part path =>
    have hnone : s.child? part = none := by
      unfold fresh? at h
      split at h
      · cases h
        rw [child?, Array.getElem?_replicate]
        split <;> rfl
      · cases h
    rw [cellAt_cons, hnone]
    rfl

/-- Asking for the state of a part does not change its values. -/
theorem cellAt_childOrFresh (h : s.childOrFresh net part = .ok child) (path : List Nat)
    (pin : Nat) : child.cellAt path pin = s.cellAt (part :: path) pin := by
  rw [cellAt_cons, child?]
  unfold childOrFresh at h
  split at h
  · next p slot _ hslot =>
    rw [hslot]
    cases slot with
    | some c =>
      cases h
      rfl
    | none => exact cellAt_fresh h path pin
  · cases h

theorem lt_of_childOrFresh (h : s.childOrFresh net part = .ok child) :
    part < s.children.size := by
  unfold childOrFresh at h
  split at h
  · next hslot => exact (Array.getElem?_eq_some_iff.1 hslot).1
  · cases h

theorem cellAt_put (h : pin < s.cells.size) (value : UInt64) (path : List Nat) (i : Nat) :
    (s.put pin value).cellAt path i = if path = [] ∧ pin = i then value else s.cellAt path i := by
  cases path with
  | nil => simp [cellAt_nil, get_put h]
  | cons part path =>
    rw [if_neg (by simp), cellAt_cons, cellAt_cons]
    rfl

theorem cellAt_putChild (h : part < s.children.size) (child : State) (i : Nat) (path : List Nat)
    (pin : Nat) : (s.putChild part child).cellAt (i :: path) pin =
      if part = i then child.cellAt path pin else s.cellAt (i :: path) pin := by
  rw [cellAt_cons, cellAt_cons, child?, getElem?_putChild h]
  split <;> rfl

/-! ## Alike states -/

/-- Two states have the same values. -/
def Alike (s t : State) : Prop :=
  ∀ path pin, s.cellAt path pin = t.cellAt path pin

namespace Alike

protected theorem refl (s : State) : Alike s s := fun _ _ => rfl

theorem symm (h : Alike s t) : Alike t s := fun path pin => (h path pin).symm

theorem trans (h : Alike s s') (h' : Alike s' t) : Alike s t :=
  fun path pin => (h path pin).trans (h' path pin)

theorem get (h : Alike s t) (pin : Nat) : s.get pin = t.get pin := h [] pin

theorem childOrFresh {child' : State} (h : Alike s t) (hs : s.childOrFresh net part = .ok child)
    (ht : t.childOrFresh net part = .ok child') : Alike child child' := by
  intro path pin
  rw [cellAt_childOrFresh hs, cellAt_childOrFresh ht, h]

theorem put (h : Alike s t) (hs : pin < s.cells.size) (ht : pin < t.cells.size)
    (value : UInt64) : Alike (s.put pin value) (t.put pin value) := by
  intro path i
  rw [cellAt_put hs, cellAt_put ht, h]

theorem putChild {child' : State} (h : Alike s t) (hs : part < s.children.size)
    (ht : part < t.children.size) (hc : Alike child child') :
    Alike (s.putChild part child) (t.putChild part child') := by
  intro path pin
  cases path with
  | nil => exact h [] pin
  | cons i path => rw [cellAt_putChild hs, cellAt_putChild ht, h, hc]

/-- Making the state of a part changes no value. -/
theorem make (h : s.childOrFresh net part = .ok child) : Alike s (s.putChild part child) := by
  intro path pin
  cases path with
  | nil => rfl
  | cons i path =>
    rw [cellAt_putChild (lt_of_childOrFresh h)]
    split
    · next hi => rw [← hi, cellAt_childOrFresh h]
    · rfl

end Alike

/-! ## Twins -/

/-- Two states of a chip have the same values. -/
structure Twins (net : Netlist) (id : Nat) (s t : State) : Prop where
  left : Framed net id s
  right : Framed net id t
  alike : Alike s t

namespace Twins

variable {c : Chip} {p : Instance}

protected theorem refl (h : Framed net id s) : Twins net id s s := ⟨h, h, .refl s⟩

theorem symm (h : Twins net id s t) : Twins net id t s := ⟨h.right, h.left, h.alike.symm⟩

theorem trans (h : Twins net id s s') (h' : Twins net id s' t) : Twins net id s t :=
  ⟨h.left, h'.right, h.alike.trans h'.alike⟩

theorem chip_eq (h : Twins net id s t) : s.chip = t.chip :=
  h.left.chip_eq.trans h.right.chip_eq.symm

theorem chipIn (h : Twins net id s t) : s.chipIn net = t.chipIn net := by
  rw [State.chipIn, State.chipIn, h.chip_eq]

theorem pin? (h : Twins net id s t) (pin : Nat) : s.pin? net pin = t.pin? net pin := by
  rw [State.pin?, State.pin?, h.chipIn, h.chip_eq]

theorem window (h : Twins net id s t) (pin : Nat) (range : Option BitRange) :
    s.window net pin range = t.window net pin range := by
  rw [State.window, State.window, h.pin?]

theorem cells_size (h : Twins net id s t) : s.cells.size = t.cells.size := by
  obtain ⟨c, hc⟩ := h.left.chip?
  rw [h.left.cells_size hc, h.right.cells_size hc]

/-- Either both have the state of a part, and then twins, or both fail. -/
theorem childOrFresh (h : Twins net id s t) (wf : net.Sound) (part : Nat) :
    (∃ e, s.childOrFresh net part = .error e ∧ t.childOrFresh net part = .error e) ∨
      ∃ c p child child', net.chip? id = some c ∧ c.parts[part]? = some p ∧
        s.childOrFresh net part = .ok child ∧ t.childOrFresh net part = .ok child' ∧
        Twins net p.chip child child' := by
  obtain ⟨c, hc⟩ := h.left.chip?
  cases hp : c.parts[part]? with
  | some p =>
    obtain ⟨child, hchild, hframe⟩ := h.left.childOrFresh wf hc hp
    obtain ⟨child', hchild', hframe'⟩ := h.right.childOrFresh wf hc hp
    exact .inr ⟨c, p, child, child', hc, hp, hchild, hchild',
      hframe, hframe', h.alike.childOrFresh hchild hchild'⟩
  | none =>
    refine .inl ⟨.invalidPart id part, ?_, ?_⟩
    · rw [State.childOrFresh, chipIn_eq (h.left.chip_eq ▸ hc), hp, h.left.chip_eq]
    · rw [State.childOrFresh, chipIn_eq (h.right.chip_eq ▸ hc), hp, h.right.chip_eq]

theorem putChild {child' : State} (h : Twins net id s t) (hc : net.chip? id = some c)
    (hp : c.parts[part]? = some p) (hchild : Twins net p.chip child child') :
    Twins net id (s.putChild part child) (t.putChild part child') where
  left := h.left.putChild hc hp hchild.left
  right := h.right.putChild hc hp hchild.right
  alike := h.alike.putChild (h.left.part_lt hc hp) (h.right.part_lt hc hp) hchild.alike

/-- Making the state of a part gives a twin. -/
theorem make (h : Framed net id s) (wf : net.Sound)
    (hchild : s.childOrFresh net part = .ok child) : Twins net id s (s.putChild part child) := by
  obtain ⟨c, p, hc, hp, hframe⟩ := h.of_childOrFresh wf hchild
  exact ⟨h, h.putChild hc hp hframe, .make hchild⟩

end Twins

/-! ## Passes -/

/-- **What holds of copying a wire and of evaluating a part** holds of a pass, if it holds of doing
nothing and of one action after another. -/
theorem pass_induction {Φ : Action → Prop} {evaluateChild : Action} (hnone : Φ Action.none)
    (hthen : ∀ {a b}, Φ a → Φ b → Φ (a.andThen b))
    (hassign : ∀ part w, Φ (assign net part w))
    (hpart : ∀ part, Φ (inPart net part evaluateChild)) (c : Chip) :
    Φ (pass net evaluateChild c) := by
  have hall (as : List Action) (h : ∀ a ∈ as, Φ a) : Φ (Action.all as) := by
    induction as with
    | nil => exact hnone
    | cons a as ih =>
      obtain ⟨ha, hrest⟩ := List.forall_mem_cons.1 h
      exact hthen ha (ih hrest)
  have hwires (ws : List Wire) (part : Nat) : Φ (Action.all (ws.map (assign net part))) := by
    refine hall _ fun a ha => ?_
    obtain ⟨w, -, rfl⟩ := List.mem_map.1 ha
    exact hassign part w
  refine hall _ fun a ha => ?_
  obtain ⟨⟨part, p⟩, -, rfl⟩ := List.mem_map.1 ha
  exact hthen (hwires _ part) (hthen (hpart part) (hwires _ part))

/-! ## Twins do the same -/

/-- From twins the outcome is the same, up to twins. -/
def Respects {α : Type} (net : Netlist) (id : Nat) (f : State → Outcome α) : Prop :=
  ∀ s t, Twins net id s t → (f s).1 = (f t).1 ∧ Twins net id (f s).2 (f t).2

theorem Respects.outcome {α : Type} {f : State → Outcome α} (hf : Respects net id f)
    (h : Twins net id s t) :
    ∃ result s₁ t₁, f s = (result, s₁) ∧ f t = (result, t₁) ∧ Twins net id s₁ t₁ := by
  obtain ⟨hresult, htwins⟩ := hf s t h
  exact ⟨(f s).1, (f s).2, (f t).2, rfl, Prod.ext hresult.symm rfl, htwins⟩

section Actions

variable {a b : Action}

theorem respects_none : Respects net id Action.none :=
  fun _ _ h => ⟨rfl, h⟩

theorem Respects.andThen (ha : Respects net id a) (hb : Respects net id b) :
    Respects net id (a.andThen b) := by
  intro s t h
  obtain ⟨result, s₁, t₁, hs, ht, htwins⟩ := ha.outcome h
  unfold Action.andThen
  rw [hs, ht]
  cases result with
  | error e => exact ⟨rfl, htwins⟩
  | ok changed =>
    obtain ⟨result, s₂, t₂, hs', ht', htwins'⟩ := hb.outcome htwins
    dsimp only
    rw [hs', ht']
    cases result <;> exact ⟨rfl, htwins'⟩

theorem Respects.untilSteady (ha : Respects net id a) (failure : SimError) (limit : Nat) :
    Respects net id (Action.untilSteady failure a limit) := by
  induction limit with
  | zero => exact fun _ _ h => ⟨rfl, h⟩
  | succ limit ih =>
    intro s t h
    obtain ⟨result, s₁, t₁, hs, ht, htwins⟩ := ha.outcome h
    unfold Action.untilSteady
    rw [hs, ht]
    cases result with
    | error e => exact ⟨rfl, htwins⟩
    | ok changed =>
      cases changed with
      | false => exact ⟨rfl, htwins⟩
      | true =>
        obtain ⟨result, s₂, t₂, hs', ht', htwins'⟩ := ih.outcome htwins
        dsimp only
        rw [hs', ht']
        cases result <;> exact ⟨rfl, htwins'⟩

end Actions

theorem Twins.write (h : Twins net id s t) (pin : Nat) (value : UInt64) :
    (s.write pin value).1 = (t.write pin value).1 ∧
      Twins net id (s.write pin value).2 (t.write pin value).2 := by
  have hleft := h.left.write pin value
  have hright := h.right.write pin value
  by_cases hlt : pin < s.cells.size
  · have hlt' : pin < t.cells.size := h.cells_size ▸ hlt
    rw [write_eq hlt] at hleft ⊢
    rw [write_eq hlt'] at hright ⊢
    exact ⟨by rw [h.alike.get], hleft, hright, h.alike.put hlt hlt' value⟩
  · have hout (u : State) (hu : u.cells.size ≤ pin) : u.write pin value = (false, u) := by
      rw [State.write, Array.getElem?_eq_none hu]
    rw [hout s (Nat.le_of_not_lt hlt), hout t (h.cells_size ▸ Nat.le_of_not_lt hlt)]
    exact ⟨rfl, h⟩

theorem Twins.set (h : Twins net id s t) (pin : Nat) (value : UInt64) :
    (s.set net pin value).1 = (t.set net pin value).1 ∧
      Twins net id (s.set net pin value).2 (t.set net pin value).2 := by
  unfold State.set
  rw [h.pin?]
  split
  · exact h.write _ _
  · exact ⟨rfl, h⟩

theorem respects_computeGate (net : Netlist) (id : Nat) (g : Gate) :
    Respects net id (computeGate net g) := by
  intro s t h
  have hinputs : (List.range g.arity).map s.get = (List.range g.arity).map t.get :=
    List.map_congr_left fun i _ => h.alike.get i
  obtain ⟨hresult, htwins⟩ := h.set g.arity (g.apply ((List.range g.arity).map s.get))
  unfold computeGate
  rw [← hinputs]
  exact ⟨congrArg Except.ok hresult, htwins⟩

theorem respects_inPart {α : Type} {f : State → Outcome α} (wf : net.Sound)
    (hf : ∀ c p, net.chip? id = some c → c.parts[part]? = some p → Respects net p.chip f) :
    Respects net id (inPart net part f) := by
  intro s t h
  unfold inPart
  rcases h.childOrFresh wf part with ⟨e, hs, ht⟩ | ⟨c, p, child, child', hc, hp, hs, ht, hchild⟩
  · rw [hs, ht]
    exact ⟨rfl, h⟩
  · obtain ⟨hresult, htwins⟩ := hf c p hc hp child child' hchild
    rw [hs, ht]
    exact ⟨hresult, h.putChild hc hp htwins⟩

theorem respects_assign (wf : net.Sound) (part : Nat) (w : Wire) :
    Respects net id (assign net part w) := by
  intro s t h
  unfold assign
  rw [h.window]
  cases t.window net w.outer w.outerRange with
  | error e => exact ⟨rfl, h⟩
  | ok outer =>
    dsimp only
    rcases h.childOrFresh wf part with ⟨e, hs, ht⟩ | ⟨c, p, child, child', hc, hp, hs, ht, hchild⟩
    · rw [hs, ht]
      exact ⟨rfl, h⟩
    · rw [hs, ht]
      dsimp only
      rw [hchild.window]
      cases child'.window net w.inner w.innerRange with
      | error e => exact ⟨rfl, h.putChild hc hp hchild⟩
      | ok inner =>
        have houter : s.getRange w.outer outer = t.getRange w.outer outer := by
          rw [getRange, getRange, h.alike.get]
        have hinner : child.getRange w.inner inner = child'.getRange w.inner inner := by
          rw [getRange, getRange, hchild.alike.get]
        dsimp only
        rw [houter, hinner]
        split
        · exact ⟨rfl, h.putChild hc hp hchild⟩
        · unfold accept
          split
          · obtain ⟨hresult, htwins⟩ := hchild.write w.inner
              (inner.insert (child.get w.inner) (t.getRange w.outer outer))
            rw [← hchild.alike.get]
            exact ⟨congrArg Except.ok hresult, h.putChild hc hp htwins⟩
          · obtain ⟨hresult, htwins⟩ := h.write w.outer
              (outer.insert (s.get w.outer) (child'.getRange w.inner inner))
            rw [← h.alike.get]
            exact ⟨congrArg Except.ok hresult, htwins.putChild hc hp hchild⟩

theorem respects_pass (wf : net.Sound) {evaluateChild : Action}
    (he : ∀ id, Respects net id evaluateChild) (c : Chip) :
    Respects net id (pass net evaluateChild c) :=
  pass_induction respects_none .andThen (respects_assign wf)
    (fun _ => respects_inPart wf fun _ p _ _ => he p.chip) c

/-- **Twins settle alike.** -/
theorem respects_settleWithin (wf : net.Sound) (limits : Limits) (depth id : Nat) :
    Respects net id (settleWithin net limits depth) := by
  induction depth generalizing id with
  | zero =>
    intro s t h
    exact ⟨congrArg (fun chip => Except.error (SimError.endless chip)) h.chip_eq, h⟩
  | succ depth ih =>
    intro s t h
    unfold settleWithin
    dsimp only
    rw [h.chipIn]
    cases (t.chipIn net).kind with
    | gate g => exact respects_computeGate net id g s t h
    | composite =>
      dsimp only
      rw [h.chip_eq]
      exact (respects_pass wf ih _).untilSteady _ _ s t h

theorem respects_evaluate (wf : net.Sound) (limits : Limits) (id : Nat) :
    Respects net id (evaluate net limits) :=
  respects_settleWithin wf limits _ id

/-! ## Honest actions -/

/-- An action that tells of no change leaves a twin behind. -/
def Honest (net : Netlist) (id : Nat) (a : Action) : Prop :=
  ∀ s s', Framed net id s → a s = (.ok false, s') → Twins net id s s'

section Actions

variable {a b : Action}

theorem honest_none : Honest net id Action.none := by
  intro s s' hs h
  cases h
  exact .refl hs

theorem Honest.andThen (ha : Honest net id a) (hb : Honest net id b) :
    Honest net id (a.andThen b) := by
  intro s s' hs h
  obtain ⟨s₁, h₁, h₂⟩ := Action.andThen_eq_ok_false h
  have hfirst := ha s s₁ hs h₁
  exact hfirst.trans (hb s₁ s' hfirst.right h₂)

/-- A repetition that tells of no change was over after one turn. -/
theorem Honest.untilSteady (ha : Honest net id a) (failure : SimError) (limit : Nat) :
    Honest net id (Action.untilSteady failure a limit) := by
  intro s s' hs h
  obtain ⟨s₁, -, hlast, hsame⟩ := Action.untilSteady_eq_ok (P := fun _ => True)
    (fun _ _ => trivial) trivial h
  obtain rfl := hsame rfl
  exact ha s₁ s' hs hlast

end Actions

/-- A write that tells of no change is none. -/
theorem write_eq_false {value : UInt64} (h : s.write pin value = (false, s')) : s' = s := by
  unfold write at h
  split at h
  · cases h
    rfl
  · split at h
    · cases h
      rfl
    · cases h

theorem set_eq_false {value : UInt64} (h : s.set net pin value = (false, s')) : s' = s := by
  unfold set at h
  split at h
  · exact write_eq_false h
  · cases h
    rfl

theorem honest_computeGate (net : Netlist) (id : Nat) (g : Gate) :
    Honest net id (computeGate net g) := by
  intro s s' hs h
  have hset : s.set net g.arity (g.apply ((List.range g.arity).map s.get)) = (false, s') := by
    unfold computeGate at h
    dsimp only at h
    rw [Prod.mk.injEq, Except.ok.injEq] at h
    exact Prod.ext h.1 h.2
  obtain rfl := set_eq_false hset
  exact .refl hs

theorem honest_inPart {a : Action} (wf : net.Sound) (ha : ∀ id, Honest net id a) :
    Honest net id (inPart net part a) := by
  intro s s' hs h
  cases hchild : s.childOrFresh net part with
  | error e =>
    rw [inPart, hchild] at h
    cases h
  | ok child =>
    obtain ⟨child', hf, rfl⟩ := inPart_eq_ok hchild h
    obtain ⟨c, p, hc, hp, hframe⟩ := hs.of_childOrFresh wf hchild
    have htwins := ha p.chip child child' hframe hf
    have hmade := Twins.make hs wf hchild
    refine hmade.trans ⟨hmade.right, hs.putChild hc hp htwins.right, ?_⟩
    exact (Alike.refl s).putChild (hs.part_lt hc hp) (hs.part_lt hc hp) htwins.alike

theorem honest_assign (wf : net.Sound) (part : Nat) (w : Wire) :
    Honest net id (assign net part w) := by
  intro s s' hs h
  unfold assign at h
  split at h
  · cases h
  · next outer _ =>
    dsimp only at h
    split at h
    · cases h
    · next child hchild =>
      have hmade := Twins.make hs wf hchild
      split at h
      · cases h
      · next inner _ =>
        split at h
        · cases h
          exact hmade
        · split at h
          · cases hw : child.accept w.inner inner (s.getRange w.outer outer) with
            | mk changed child' =>
              rw [hw] at h
              cases h
              rw [write_eq_false hw]
              exact hmade
          · cases hw : s.accept w.outer outer (child.getRange w.inner inner) with
            | mk changed s₁ =>
              rw [hw] at h
              cases h
              rw [write_eq_false hw]
              exact hmade

theorem honest_pass (wf : net.Sound) {evaluateChild : Action}
    (he : ∀ id, Honest net id evaluateChild) (c : Chip) :
    Honest net id (pass net evaluateChild c) :=
  pass_induction honest_none .andThen (honest_assign wf) (fun _ => honest_inPart wf he) c

/-- **Settling is honest.** -/
theorem honest_settleWithin (wf : net.Sound) (limits : Limits) (depth id : Nat) :
    Honest net id (settleWithin net limits depth) := by
  induction depth generalizing id with
  | zero =>
    intro s s' _ h
    cases h
  | succ depth ih =>
    intro s s' hs h
    unfold settleWithin at h
    dsimp only at h
    split at h
    · exact honest_computeGate net id _ s s' hs h
    · exact (honest_pass wf ih _).untilSteady _ _ s s' hs h

theorem honest_evaluate (wf : net.Sound) (limits : Limits) (id : Nat) :
    Honest net id (evaluate net limits) :=
  honest_settleWithin wf limits _ id

end State

end ChipLogic
