import ChipLogic.Proofs.Sim.Change
import ChipLogic.Proofs.Sim.Tidy

/-!
# What an evaluation leaves alone

Users set inputs, and nothing keeps them from setting other pins as well. An evaluation writes to
the pins of its chip in two ways only: a gate computes its output, and a wire out of a part is
copied to its window of a pin. All other bits are **left alone** (`State.Leaves`), whatever they
were set to.

**One copy.** A wire into a part writes to the part. A wire out of a part reads the whole cell of
its outer pin and writes it back with other bits in the window, so the bits outside stay
(`State.bitAt_get_accept`). What one copy leaves alone, all visits, passes and repetitions leave
alone, and so does an evaluation that runs out of passes.

**Inputs.** Nothing inside a chip drives its inputs, so no window lies on one of them.

**Theorem (`State.FreelyReached.evaluate_keeps_unsensed_bits`).** In a frozen netlist an evaluation,
with or without success, changes no input, no bit that no wire out of a part covers, and of a gate
nothing but the pin `out`.
-/

namespace ChipLogic

/-- No gate output and no wire out of a part lies on an input. -/
theorem Chip.not_gives_of_isInput {net : Netlist} (wf : net.Sound) {id : Nat} {c : Chip}
    (hc : net.chip? id = some c) {i : Nat} (hi : c.isInput i = true) (k : Nat) :
    ¬ c.Gives i k := by
  rintro (⟨g, hk, rfl⟩ | ⟨part, w, hw, rfl, -⟩)
  · obtain ⟨p, hp, -, hkind⟩ := State.exists_output (wf.chips id c hc) hk
    rw [Chip.isInput_eq_true hp, hkind] at hi
    cases hi
  · obtain ⟨hmem, hdir⟩ := Instance.mem_senses.1 hw
    rw [(Chip.Sound.wired wf hc part w hmem).isInput_outer hdir] at hi
    cases hi

/-- The pin after the inputs of a gate is `out`. -/
theorem Gate.exists_out (g : Gate) :
    ∃ p, g.definition.pins[g.arity]? = some p ∧ p.key = "out" := by
  cases g <;> exact ⟨_, rfl, by decide +kernel⟩

theorem Chip.Sound.findPin?_out {net : Netlist} {c : Chip} (wf : c.Sound net) {g : Gate}
    (hk : c.kind = .gate g) : c.findPin? "out" = some g.arity := by
  obtain ⟨hpre, -⟩ := wf.gate g hk
  obtain ⟨p, hp, hkey⟩ := g.exists_out
  have hout : c.pins[g.arity]? = some p := getElem?_of_toList_prefix hpre hp
  rw [← hkey]
  exact wf.index g.arity p hout

namespace State

variable {net : Netlist} {s child : State} {id part : Nat} {c : Chip} {p : Instance} {w : Wire}
  {limits : Limits} {evaluateChild : Action} {x : Valuation}

/-- Taking a value into a window leaves the bits outside the window as they are. -/
theorem bitAt_get_accept (s : State) {pin i k : Nat} {window : BitRange} (value : UInt64)
    (h : pin = i → ¬ window.Covers k) :
    bitAt ((s.accept pin window value).2.get i) k = bitAt (s.get i) k := by
  unfold accept
  by_cases hlt : pin < s.cells.size
  · rw [write_eq hlt]
    exact bitAt_get_put hlt h value
  · rw [write, Array.getElem?_eq_none (Nat.le_of_not_lt hlt)]

/-- A state in its frame that has the given bits wherever the chip itself gives no value. -/
def Leaves (net : Netlist) (id : Nat) (c : Chip) (x : Valuation) (s : State) : Prop :=
  Framed net id s ∧ ∀ i k, ¬ c.Gives i k → bitAt (s.get i) k = bitAt (x i) k

theorem Leaves.putChild (h : Leaves net id c x s) (hc : net.chip? id = some c)
    (hp : c.parts[part]? = some p) (hchild : Framed net p.chip child) :
    Leaves net id c x (s.putChild part child) :=
  ⟨h.1.putChild hc hp hchild, h.2⟩

/-- A wire into a part writes to the part, and a wire out of it to bits that it gives a value. -/
theorem leaves_assign (wf : net.Sound) (hc : net.chip? id = some c)
    (hp : c.parts[part]? = some p) (hw : w ∈ p.wires) :
    Action.Keeps (Leaves net id c x) (assign net part w) := by
  rintro s ⟨hs, hx⟩
  refine ⟨hs.assign wf part w, fun i k hk => ?_⟩
  rw [← hx i k hk]
  obtain ⟨child, hchild, hframe⟩ := hs.childOrFresh wf hc hp
  obtain ⟨d, hd⟩ := hframe.chip?
  have he : w.Ends d c := Chip.Sound.ends wf hc (Array.mem_of_getElem? hp) hd hw
  unfold assign
  rw [window_outer (hs.chip_eq ▸ hc) he, hchild]
  dsimp only
  rw [window_inner (hframe.chip_eq ▸ hd) he]
  dsimp only
  split
  · rfl
  · cases hdir : w.direction with
    | drive => rfl
    | sense =>
      refine bitAt_get_accept s _ fun hpin hcov => hk (.inr ⟨part, w, ?_, hpin, hcov⟩)
      rw [Chip.partAt_eq hp]
      exact Instance.mem_senses.2 ⟨hw, hdir⟩

theorem leaves_inPart (wf : net.Sound) (hc : net.chip? id = some c)
    (hp : c.parts[part]? = some p) (he : evaluateChild.Keeps (Framed net p.chip)) :
    Action.Keeps (Leaves net id c x) (inPart net part evaluateChild) := by
  intro s hs
  obtain ⟨child, hchild, hframe⟩ := hs.1.childOrFresh wf hc hp
  rw [inPart_eq hchild]
  exact hs.putChild hc hp (he child hframe)

theorem leaves_computeGate (wf : net.Sound) (hc : net.chip? id = some c) {g : Gate}
    (hk : c.kind = .gate g) : (computeGate net g).Keeps (Leaves net id c x) := by
  rintro s ⟨hs, hx⟩
  refine ⟨hs.set _ _, fun i k hgives => ?_⟩
  obtain ⟨p, hp, -⟩ := exists_output (wf.chips id c hc) hk
  have hlt : g.arity < s.cells.size :=
    hs.cells_size hc ▸ (Array.getElem?_eq_some_iff.1 hp).1
  rw [computeGate_of_lt wf (hs.chip_eq ▸ hc) hk hlt, get_put hlt,
    if_neg fun hi => hgives (.inl ⟨g, hk, hi.symm⟩)]
  exact hx i k hgives

theorem leaves_pass (wf : net.Sound) (hc : net.chip? id = some c)
    (he : ∀ p ∈ c.parts, evaluateChild.Keeps (Framed net p.chip)) :
    (pass net evaluateChild c).Keeps (Leaves net id c x) := by
  refine keeps_pass (wf.chips id c hc).partsPlaced fun i p hp =>
    keeps_visitPart (fun w hw => leaves_assign wf hc hp hw) ?_
  exact leaves_inPart wf hc hp (he p (Array.mem_of_getElem? hp))

/-- **Settling leaves alone** whatever the chip itself gives no value to. -/
theorem leaves_settleWithin (wf : net.Sound) (limits : Limits) (depth : Nat)
    (hc : net.chip? id = some c) (x : Valuation) :
    (settleWithin net limits depth).Keeps (Leaves net id c x) := by
  intro s hs
  cases depth with
  | zero => exact hs
  | succ depth =>
    have hc' : net.chip? s.chip = some c := hs.1.chip_eq ▸ hc
    cases hk : c.kind with
    | gate g =>
      rw [settleWithin_gate hc' hk]
      exact leaves_computeGate wf hc hk s hs
    | composite =>
      rw [settleWithin_composite hc' hk]
      -- of the parts it is enough to know that they keep their frames
      refine (leaves_pass wf hc fun p _ => ?_).untilSteady _ _ s hs
      exact (respects_settleWithin wf limits depth p.chip).keeps

/-- A gate is evaluated by writing its output. -/
theorem Framed.evaluate_gate (h : Framed net id s) (wf : net.Sound)
    (hc : net.chip? id = some c) {g : Gate} (hk : c.kind = .gate g) (limits : Limits) :
    ∃ value, (s.evaluate net limits).2 =
      { s with cells := s.cells.setIfInBounds g.arity value } := by
  obtain ⟨p, hp, -⟩ := exists_output (wf.chips id c hc) hk
  have hlt : g.arity < s.cells.size := h.cells_size hc ▸ (Array.getElem?_eq_some_iff.1 hp).1
  obtain ⟨levels, hlevels⟩ : ∃ levels, net.depthBound = levels + 1 :=
    ⟨net.size + 0xfffff, rfl⟩
  have hc' : net.chip? s.chip = some c := h.chip_eq ▸ hc
  rw [State.evaluate, hlevels, settleWithin_gate hc' hk, computeGate_of_lt wf hc' hk hlt]
  exact ⟨_, rfl⟩

/-- **What an evaluation leaves alone.** Whether it succeeds or runs out of passes, it leaves the
inputs of its chip as they were, and each bit of another pin that is not in the window of a wire out
of a part; of a gate it changes nothing but `out`. -/
theorem FreelyReached.evaluate_keeps_unsensed_bits {session : Session}
    (hsession : session.Reachable) {top : Nat} (hf : (session.freeze top).1 = .ok (some net))
    (h : FreelyReached net id s) (limits : Limits) :
    ∃ c, net.chip? id = some c ∧
      (∀ i, c.isInput i = true → (s.evaluate net limits).2.get i = s.get i) ∧
      (c.kind = .composite → ∀ i k, (∀ part, ¬ c.SensedBy part i k) →
        bitAt ((s.evaluate net limits).2.get i) k = bitAt (s.get i) k) ∧
      ∀ g, c.kind = .gate g → ∃ out value, c.findPin? "out" = some out ∧
        (s.evaluate net limits).2 =
          { s with cells := s.cells.setIfInBounds out value } := by
  have wf := hsession.sound.netlist_sound hf
  have hs := h.framed wf
  obtain ⟨c, hc⟩ := hs.chip?
  have hleaves : Leaves net id c s.get (s.evaluate net limits).2 :=
    leaves_settleWithin wf limits _ hc s.get s ⟨hs, fun _ _ _ => rfl⟩
  refine ⟨c, hc, fun i hi => ?_, fun hk i k hsensed => ?_, fun g hk => ?_⟩
  · exact eq_of_bitAt fun k => hleaves.2 i k (Chip.not_gives_of_isInput wf hc hi k)
  · refine hleaves.2 i k ?_
    rintro (⟨g, hgate, -⟩ | ⟨part, hpart⟩)
    · rw [hk] at hgate
      cases hgate
    · exact hsensed part hpart
  · obtain ⟨value, heq⟩ := hs.evaluate_gate wf hc hk limits
    exact ⟨g.arity, value, (wf.chips id c hc).findPin?_out hk, heq⟩

/-- `X` settled with all inputs zero, and with the lower bit of its input set since. -/
def crossedBusy : State :=
  ((crossedStart.reset.evaluate Session.crossedNet {}).2.set Session.crossedNet 0 1).2

theorem reached_crossedBusy : Reached Session.crossedNet 0 crossedBusy :=
  ((reached_crossedStart.call .reset).call (.evaluate {})).call (.set 0 1)

/-- One pass is too few: the evaluation fails after a part has cleared the net `n`, and the input is
as it was set. -/
theorem FreelyReached.evaluate_keeps_unsensed_bits_crossed :
    (crossedBusy.evaluate Session.crossedNet ⟨1, 16⟩).1 = .error (.noConvergence 0 1) ∧
      crossedBusy.get 2 = 1 ∧ (crossedBusy.evaluate Session.crossedNet ⟨1, 16⟩).2.get 2 = 0 ∧
      crossedBusy.get 0 = 1 ∧
      (crossedBusy.evaluate Session.crossedNet ⟨1, 16⟩).2.get 0 = crossedBusy.get 0 := by
  have hruns : (crossedBusy.evaluate Session.crossedNet ⟨1, 16⟩).1 = .error (.noConvergence 0 1) ∧
      crossedBusy.get 2 = 1 ∧ (crossedBusy.evaluate Session.crossedNet ⟨1, 16⟩).2.get 2 = 0 ∧
      crossedBusy.get 0 = 1 := by
    decide +kernel
  have hinput : ((Session.crossedNet.chip? 0).map fun c => c.isInput 0) = some true := by
    decide +kernel
  obtain ⟨c, hc, hinputs, -⟩ := reached_crossedBusy.freely.evaluate_keeps_unsensed_bits
    Session.reachable_crossed Session.freeze_crossed ⟨1, 16⟩
  rw [hc] at hinput
  obtain ⟨hfails, hnet, hcleared, hset⟩ := hruns
  exact ⟨hfails, hnet, hcleared, hset, hinputs 0 (Option.some.inj hinput)⟩

end State

end ChipLogic
