import ChipLogic.Proofs.Sim.Shape
import ChipLogic.Sim.Settle

/-!
# Calls on states

Users of a state write pins, copy wires, settle and start over, on the state itself or on the state
of a part, or of a part of a part (`State.Call`). `State.Reached` are the states that calls lead to
from a fresh one, in any order and with any limits, also when calls fail.

A call keeps a state shaped, so every reached state is (`State.Reached.shaped`). For an action this
says that it keeps a property whether it fails or not (`Action.Keeps`); settling is put together
from actions by rows and repetition, and these keep what their actions keep.
-/

namespace ChipLogic

/-! ## What actions keep -/

namespace Action

variable {P : State → Prop} {a b : Action}

/-- The property survives the action, also when the action fails. -/
def Keeps (P : State → Prop) (a : Action) : Prop :=
  ∀ s, P s → P (a s).2

theorem keeps_none : Keeps P none := fun _ h => h

theorem Keeps.andThen (ha : a.Keeps P) (hb : b.Keeps P) : (a.andThen b).Keeps P := by
  intro s hs
  have hfirst := ha s hs
  unfold Action.andThen
  cases h : a s with
  | mk result s₁ =>
    rw [h] at hfirst
    cases result with
    | error e => exact hfirst
    | ok changed =>
      have hsecond := hb s₁ hfirst
      dsimp only
      cases h' : b s₁ with
      | mk result s₂ =>
        rw [h'] at hsecond
        cases result <;> exact hsecond

theorem keeps_all {as : List Action} (h : ∀ a ∈ as, a.Keeps P) : (all as).Keeps P := by
  induction as with
  | nil => exact keeps_none
  | cons a as ih =>
    exact (h a List.mem_cons_self).andThen (ih fun b hb => h b (List.mem_cons_of_mem a hb))

theorem Keeps.untilSteady (ha : a.Keeps P) (failure : SimError) (limit : Nat) :
    (untilSteady failure a limit).Keeps P := by
  induction limit with
  | zero => exact fun _ h => h
  | succ limit ih =>
    intro s hs
    have hfirst := ha s hs
    unfold Action.untilSteady
    cases h : a s with
    | mk result s₁ =>
      rw [h] at hfirst
      cases result with
      | error e => exact hfirst
      | ok changed =>
        cases changed with
        | false => exact hfirst
        | true =>
          have hrest := ih s₁ hfirst
          dsimp only
          cases h' : Action.untilSteady failure a limit s₁ with
          | mk result s₂ =>
            rw [h'] at hrest
            cases result <;> exact hrest

end Action

namespace State

variable {net : Netlist} {s s' : State} {id part : Nat} {c : Chip} {p : Instance}
  {limits : Limits} {evaluateChild : Action}

/-! ## Gates -/

theorem exists_output {g : Gate} (wf : c.Sound net) (hk : c.kind = .gate g) :
    ∃ p, c.pins[g.arity]? = some p ∧ p.width = 1 ∧ p.kind = .output := by
  obtain ⟨hpre, -⟩ := wf.gate g hk
  cases g <;> exact ⟨_, getElem?_of_toList_prefix hpre rfl, rfl, rfl⟩

theorem apply_and_lowMask (g : Gate) (inputs : List UInt64) :
    g.apply inputs &&& lowMask 1 = g.apply inputs := by
  unfold Gate.apply
  dsimp only
  split <;> decide

/-- The value that a gate computes. -/
def gateValue (g : Gate) (s : State) : UInt64 :=
  g.apply ((List.range g.arity).map s.get)

theorem narrow_gateValue (g : Gate) (s : State) : Narrow 1 (s.gateValue g) := by
  rw [gateValue, ← apply_and_lowMask]
  exact narrow_and_lowMask _ _

theorem computeGate_of_lt {g : Gate} (wf : net.Sound) (hc : net.chip? s.chip = some c)
    (hk : c.kind = .gate g) (hlt : g.arity < s.cells.size) :
    computeGate net g s = (.ok (decide (s.get g.arity ≠ s.gateValue g)),
      s.put g.arity (s.gateValue g)) := by
  obtain ⟨p, hp, hw, -⟩ := exists_output (wf.chips _ c hc) hk
  unfold computeGate State.set
  rw [pin?_eq hc hp]
  dsimp only
  rw [hw, apply_and_lowMask, write_eq hlt]
  rfl

theorem computeGate_eq {g : Gate} (h : Shaped net id s) (wf : net.Sound)
    (hc : net.chip? s.chip = some c) (hk : c.kind = .gate g) :
    computeGate net g s = (.ok (decide (s.get g.arity ≠ s.gateValue g)),
      s.put g.arity (s.gateValue g)) := by
  obtain ⟨p, hp, -⟩ := exists_output (wf.chips _ c hc) hk
  exact computeGate_of_lt wf hc hk (h.pin_lt hc hp)

theorem settleWithin_gate {g : Gate} (hc : net.chip? s.chip = some c) (hk : c.kind = .gate g)
    (limits : Limits) (depth : Nat) :
    settleWithin net limits (depth + 1) s = computeGate net g s := by
  rw [settleWithin]
  dsimp only
  rw [chipIn_eq hc, hk]

theorem settleWithin_composite (hc : net.chip? s.chip = some c) (hk : c.kind = .composite)
    (limits : Limits) (depth : Nat) :
    settleWithin net limits (depth + 1) s =
      Action.untilSteady (.noConvergence s.chip limits.maxPasses)
        (pass net (settleWithin net limits depth) c) limits.maxPasses s := by
  rw [settleWithin]
  dsimp only
  rw [chipIn_eq hc, hk]

/-- The output of a gate is none of its inputs. -/
theorem gateValue_put {g : Gate} (h : g.arity < s.cells.size) (value : UInt64) :
    (s.put g.arity value).gateValue g = s.gateValue g := by
  unfold gateValue
  congr 1
  apply List.map_congr_left
  intro i hi
  rw [get_put h, if_neg fun heq => by rw [← heq] at hi; simp at hi]

/-- A gate that has computed its output has nothing to do. -/
theorem computeGate_again {g : Gate} (wf : net.Sound) (hc : net.chip? s.chip = some c)
    (hk : c.kind = .gate g) (hlt : g.arity < s.cells.size) :
    computeGate net g (computeGate net g s).2 = (.ok false, (computeGate net g s).2) := by
  rw [computeGate_of_lt wf hc hk hlt]
  dsimp only
  have hlt' : g.arity < (s.put g.arity (s.gateValue g)).cells.size :=
    Array.size_setIfInBounds.symm ▸ hlt
  have hout : (s.put g.arity (s.gateValue g)).get g.arity = s.gateValue g := by
    rw [get_put hlt, if_pos rfl]
  have hput := put_get hlt'
  rw [hout] at hput
  rw [computeGate_of_lt (s := s.put _ _) wf hc hk hlt', gateValue_put hlt, hout, hput]
  simp

/-! ## What settling keeps -/

section Visits

variable {P : State → Prop}

theorem keeps_all_assign {ws : List Wire} (h : ∀ w ∈ ws, Action.Keeps P (assign net part w)) :
    (Action.all (ws.map (assign net part))).Keeps P := by
  refine Action.keeps_all fun a ha => ?_
  obtain ⟨w, hw, rfl⟩ := List.mem_map.1 ha
  exact h w hw

theorem keeps_visitPart (hassign : ∀ w ∈ p.wires, Action.Keeps P (assign net part w))
    (hin : Action.Keeps P (inPart net part evaluateChild)) :
    (visitPart net evaluateChild p part).Keeps P := by
  refine (keeps_all_assign fun w hw => hassign w (Instance.mem_drives.1 hw).1).andThen ?_
  exact hin.andThen (keeps_all_assign fun w hw => hassign w (Instance.mem_senses.1 hw).1)

/-- Where parts carry the numbers of their positions, a pass visits each part at its position. -/
theorem pass_eq (hplaced : InPlace c.partSlots) : pass net evaluateChild c =
    Action.all (c.parts.toList.zipIdx.map fun (p, i) => visitPart net evaluateChild p i) :=
  congrArg Action.all (hplaced.map_toList fun p i => visitPart net evaluateChild p i)

theorem exists_visit (hplaced : InPlace c.partSlots) {a : Action}
    (ha : a ∈ c.partSlots.toList.map fun slot =>
      visitPart net evaluateChild slot.item slot.index) :
    ∃ i p, c.parts[i]? = some p ∧ a = visitPart net evaluateChild p i := by
  obtain ⟨slot, hslot, rfl⟩ := List.mem_map.1 ha
  obtain ⟨i, hi⟩ := Array.mem_iff_getElem?.1 (Array.mem_toList_iff.1 hslot)
  refine ⟨i, slot.item, ?_, by rw [hplaced i slot hi]⟩
  rw [Chip.parts, Numbered.getElem?_items, hi, Option.map_some]

theorem keeps_pass (hplaced : InPlace c.partSlots) (h : ∀ i p, c.parts[i]? = some p →
    (visitPart net evaluateChild p i).Keeps P) : (pass net evaluateChild c).Keeps P := by
  refine Action.keeps_all fun a ha => ?_
  obtain ⟨i, p, hp, rfl⟩ := exists_visit hplaced ha
  exact h i p hp

end Visits

theorem keeps_inPart (wf : net.Sound) (hc : net.chip? id = some c)
    (hp : c.parts[part]? = some p) (he : evaluateChild.Keeps (Shaped net p.chip)) :
    Action.Keeps (Shaped net id) (inPart net part evaluateChild) := by
  intro s h
  have hc' : net.chip? s.chip = some c := h.chip_eq ▸ hc
  obtain ⟨child, hchild, hs⟩ := h.childOrFresh hc' (wf.chips _ c hc') hp
  rw [inPart_eq hchild]
  exact h.putChild hc' hp (he child hs)

theorem keeps_shaped_pass (wf : net.Sound) (hc : net.chip? id = some c)
    (he : ∀ p ∈ c.parts, evaluateChild.Keeps (Shaped net p.chip)) :
    (pass net evaluateChild c).Keeps (Shaped net id) := by
  refine keeps_pass (wf.chips id c hc).partsPlaced fun i p hp =>
    keeps_visitPart (fun w hw s hs => ?_) ?_
  · exact hs.assign wf (hs.chip_eq ▸ hc) hp hw
  · exact keeps_inPart wf hc hp (he p (Array.mem_of_getElem? hp))

theorem keeps_settleWithin (wf : net.Sound) (limits : Limits) (depth id : Nat) :
    (settleWithin net limits depth).Keeps (Shaped net id) := by
  induction depth generalizing id with
  | zero => exact fun _ h => h
  | succ depth ih =>
    intro s h
    obtain ⟨c, hc⟩ := h.chip?
    cases hk : c.kind with
    | gate g =>
      rw [settleWithin_gate hc hk]
      exact h.set _ _
    | composite =>
      rw [settleWithin_composite hc hk]
      exact (keeps_shaped_pass wf (h.chip_eq ▸ hc) fun p _ => ih p.chip).untilSteady _ _ s h

theorem Shaped.evaluate (h : Shaped net id s) (wf : net.Sound) (limits : Limits) :
    Shaped net id (s.evaluate net limits).2 :=
  keeps_settleWithin wf limits _ id s h

/-! ## Reached states -/

/-- A call on a state, or on the state of a part. -/
inductive Call (net : Netlist) : State → State → Prop
  | set {s : State} (pin : Nat) (value : UInt64) : Call net s (s.set net pin value).2
  | setRange {s : State} (pin : Nat) (value : UInt64) (range : BitRange) :
    Call net s (s.setRange net pin value range).2
  | setNamed {s : State} (name : String) (value : UInt64) :
    Call net s (s.setNamed net name value).2
  | trySet {s : State} (pin : Nat) (value : UInt64) : Call net s (s.trySet net pin value).2
  /-- One of a part's own wires is copied. -/
  | assign {s : State} {c : Chip} {part : Nat} {p : Instance} {w : Wire}
    (chip : net.chip? s.chip = some c) (found : c.parts[part]? = some p) (own : w ∈ p.wires) :
    Call net s (assign net part w s).2
  | evaluate {s : State} (limits : Limits) : Call net s (s.evaluate net limits).2
  | reset {s : State} : Call net s s.reset
  /-- The state of a part is asked for. -/
  | ask {s : State} (part : Nat) : Call net s (inPart net part Action.none s).2
  | inPart {s child child' : State} {part : Nat} (found : s.childOrFresh net part = .ok child)
    (call : Call net child child') : Call net s (s.putChild part child')

/-- The states of a chip that calls lead to. -/
inductive Reached (net : Netlist) (id : Nat) : State → Prop
  | fresh {s : State} : fresh? net id = .ok s → Reached net id s
  | call {s s' : State} : Reached net id s → Call net s s' → Reached net id s'

/-- The state of a part can be asked for only if the part is there. -/
theorem part_of_childOrFresh {child : State} (hc : net.chip? s.chip = some c)
    (h : s.childOrFresh net part = .ok child) : ∃ p, c.parts[part]? = some p := by
  unfold childOrFresh at h
  rw [chipIn_eq hc] at h
  cases hp : c.parts[part]? with
  | some p => exact ⟨p, rfl⟩
  | none =>
    rw [hp] at h
    cases h

theorem Call.shaped (hcall : Call net s s') (wf : net.Sound) (h : Shaped net id s) :
    Shaped net id s' := by
  induction hcall generalizing id with
  | set pin value => exact h.set pin value
  | setRange pin value range => exact h.setRange pin value range
  | setNamed name value => exact h.setNamed name value
  | trySet pin value => exact h.trySet pin value
  | assign chip found own => exact h.assign wf chip found own
  | evaluate limits => exact h.evaluate wf limits
  | reset => exact h.reset
  | @ask s part =>
    obtain ⟨c, hc⟩ := h.chip?
    cases hchild : s.childOrFresh net part with
    | error e =>
      rw [State.inPart, hchild]
      exact h
    | ok child =>
      obtain ⟨p, hp⟩ := part_of_childOrFresh hc hchild
      exact keeps_inPart wf (h.chip_eq ▸ hc) hp Action.keeps_none s h
  | inPart found _ ih =>
    obtain ⟨c, hc⟩ := h.chip?
    obtain ⟨p, hp⟩ := part_of_childOrFresh hc found
    exact h.putChild hc hp (ih (h.of_childOrFresh wf hc hp found))

/-- **Reached states are shaped.** -/
theorem Reached.shaped (h : Reached net id s) (wf : net.Sound) : Shaped net id s := by
  induction h with
  | fresh hf => exact shaped_fresh hf
  | call _ hcall ih => exact hcall.shaped wf ih

end State

end ChipLogic
