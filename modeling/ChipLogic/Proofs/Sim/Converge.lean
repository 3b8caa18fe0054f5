import ChipLogic.Proofs.Netlist.Depth
import ChipLogic.Proofs.Sim.Settled
import ChipLogic.Proofs.Sim.Tidy

/-!
# Combinational designs settle

In a combinational chip, visiting a part leaves it settled in its place: its wires in share no bit
at the part, its wires out share none outside, and what it gives out is not what it reads. Later
visits disturb it only if they are to parts that feed it. So when all parts that come before it in
the order of dependency have been settled, so does it, for good (`State.visits_settle`).

**Passes.** Each pass settles at least one part more in the order of dependency, and a pass over
settled parts changes nothing. With `n` parts, `n + 1` passes are enough, whatever the state was
before.

**Theorem (`State.exists_settleWithin_ok`).** In a combinational design, settling a tidy state
succeeds if the limit of passes is greater than the number of parts of each chip.
-/

namespace ChipLogic

namespace Action

variable {a b : Action} {as : List Action} {s s₁ s₂ : State}

theorem andThen_eq_ok {first second : Bool} (ha : a s = (.ok first, s₁))
    (hb : b s₁ = (.ok second, s₂)) : a.andThen b s = (.ok (first || second), s₂) := by
  unfold Action.andThen
  rw [ha]
  dsimp only
  rw [hb]

/-- A row of actions that change nothing changes nothing. -/
theorem all_eq_of_fixed (h : ∀ a ∈ as, a s = (.ok false, s)) : all as s = (.ok false, s) := by
  induction as with
  | nil => rfl
  | cons a as ih =>
    exact andThen_eq_ok (h a List.mem_cons_self) (ih fun b hb => h b (List.mem_cons_of_mem a hb))

end Action

namespace State

variable {net : Netlist} {s s' child : State} {id part : Nat} {c d : Chip} {p : Instance}
  {w : Wire} {limits : Limits} {evaluateChild : Action}

/-! ## AtRest states stay -/

theorem children_of_child? (h : s.child? part = some child) :
    s.children[part]? = some (some child) :=
  Option.join_eq_some_iff.1 h

theorem child?_putChild (h : part < s.children.size) :
    (s.putChild part child).child? part = some child := by
  rw [child?, getElem?_putChild h, if_pos rfl, Option.join_some]

theorem childOrFresh_of_child? (hc : net.chip? s.chip = some c) (hp : c.parts[part]? = some p)
    (h : s.child? part = some child) : s.childOrFresh net part = .ok child := by
  unfold childOrFresh
  rw [chipIn_eq hc, hp, children_of_child? h]

theorem putChild_child? (h : s.child? part = some child) : s.putChild part child = s := by
  have hsame : s.children.setIfInBounds part (some child) = s.children :=
    setIfInBounds_of_getElem? (children_of_child? h)
  cases s
  exact congrArg (State.mk _ _) hsame

theorem assign_of_steady (hc : net.chip? s.chip = some c) (hp : c.parts[part]? = some p)
    (hchild : s.child? part = some child) (hw : Steady net s child w) :
    assign net part w s = (.ok false, s) := by
  obtain ⟨outer, inner, ho, hi, heq⟩ := hw
  unfold assign
  rw [ho, childOrFresh_of_child? hc hp hchild]
  dsimp only
  rw [hi]
  dsimp only
  rw [if_pos heq, putChild_child? hchild]

/-- Copying a wire changes nothing if its ends agree or its value is lost. -/
theorem assign_of_atRest (h : Shaped net id s) (wf : net.Sound) (hc : net.chip? s.chip = some c)
    (hp : c.parts[part]? = some p) (hw : w ∈ p.wires) (hchild : s.child? part = some child)
    (hsteady : ¬ w.Lossy → Steady net s child w) : assign net part w s = (.ok false, s) := by
  by_cases hlost : w.Lossy
  · obtain ⟨-, d, hd, hends⟩ := h.child_ends wf hc hp hchild
    rw [h.assign_eq wf hc hp hw (childOrFresh_of_child? hc hp hchild),
      decide_eq_false fun hne => hne.2 hlost, hlost.1]
    dsimp only
    rw [takeOuter_of_wrapsAround (h.pin_lt hc (hends w hw).outerPin) hc (hends w hw) hlost.2,
      putChild_child? hchild]
  · exact assign_of_steady hc hp hchild (hsteady hlost)

/-- A visit to a part at rest changes nothing, if evaluating it changes nothing. -/
theorem visitPart_of_atRest (h : Shaped net id s) (wf : net.Sound)
    (hc : net.chip? s.chip = some c) (hp : c.parts[part]? = some p)
    (hset : s.PartAtRest net part p)
    (he : ∀ child, s.child? part = some child → child.AtRest net →
      evaluateChild child = (.ok false, child)) :
    visitPart net evaluateChild p part s = (.ok false, s) := by
  obtain ⟨child, hchild, hsettled, hsteady⟩ := hset
  have hwires (ws : List Wire) (hws : ∀ w ∈ ws, w ∈ p.wires) :
      Action.all (ws.map (assign net part)) s = (.ok false, s) := by
    refine Action.all_eq_of_fixed fun a ha => ?_
    obtain ⟨w, hw, rfl⟩ := List.mem_map.1 ha
    exact assign_of_atRest h wf hc hp (hws w hw) hchild (hsteady w (hws w hw))
  have hin : inPart net part evaluateChild s = (.ok false, s) := by
    rw [inPart_eq (childOrFresh_of_child? hc hp hchild), he child hchild hsettled,
      putChild_child? hchild]
  refine Action.andThen_eq_ok (hwires _ fun w hw => (Instance.mem_drives.1 hw).1) ?_
  exact Action.andThen_eq_ok hin (hwires _ fun w hw => (Instance.mem_senses.1 hw).1)

theorem pass_of_atRest (h : Shaped net id s) (wf : net.Sound) (hc : net.chip? s.chip = some c)
    (hset : ∀ i p, c.parts[i]? = some p → s.PartAtRest net i p)
    (he : ∀ i p, c.parts[i]? = some p → ∀ child, s.child? i = some child → child.AtRest net →
      evaluateChild child = (.ok false, child)) :
    pass net evaluateChild c s = (.ok false, s) := by
  refine Action.all_eq_of_fixed fun a ha => ?_
  obtain ⟨i, p, hp, rfl⟩ := exists_visit (wf.chips _ c hc).partsPlaced ha
  exact visitPart_of_atRest h wf hc hp (hset i p hp) (he i p hp)

/-- **A state at rest stays as it is.** -/
theorem AtRest.settleWithin_eq (hset : s.AtRest net) (wf : net.Sound) (h : Shaped net id s)
    {levels depth : Nat} (hwithin : net.Within levels id) (hdepth : levels ≤ depth)
    (hpos : 0 < limits.maxPasses) : settleWithin net limits depth s = (.ok false, s) := by
  induction levels generalizing id s depth with
  | zero => cases hwithin
  | succ levels ih =>
    obtain ⟨depth, rfl⟩ := Nat.exists_eq_succ_of_ne_zero (by omega : depth ≠ 0)
    cases hset with
    | @gate _ c g hc hk output =>
      obtain ⟨p, hp, -⟩ := exists_output (wf.chips _ c hc) hk
      have hout : s.get g.arity = s.gateValue g := output
      rw [settleWithin_gate hc hk, computeGate_eq h wf hc hk, ← hout, put_get (h.pin_lt hc hp)]
      simp
    | @composite _ c hc hk wires below =>
      obtain ⟨passes, hpasses⟩ := Nat.exists_eq_succ_of_ne_zero (by omega : limits.maxPasses ≠ 0)
      have hpass : pass net (settleWithin net limits depth) c s = (.ok false, s) := by
        refine pass_of_atRest h wf hc (fun i p hp => ?_) fun i p hp child hchild hsettled => ?_
        · obtain ⟨child, hchild, hsteady⟩ := wires i p hp
          exact ⟨child, hchild, below i p child hp hchild, hsteady⟩
        · refine ih hsettled (h.inSlot hc hp (children_of_child? hchild)) ?_ (by omega)
          exact hwithin p.chip ⟨c, h.chip_eq ▸ hc, p, Array.mem_of_getElem? hp, rfl⟩
      rw [settleWithin_composite hc hk, hpasses]
      unfold Action.untilSteady
      rw [hpass]

/-! ## A visit settles its part -/

theorem get_takeInner (h : Shaped net id child) (hd : net.chip? child.chip = some d)
    (he : w.Ends d c) (value : UInt64) : (child.takeInner net w value).get =
      Function.update child.get w.inner ((d.innerWindow w).insert (child.get w.inner) value) := by
  funext i
  unfold takeInner
  rw [get_put (h.pin_lt hd he.innerPin), chipIn_eq hd, Function.update_apply]
  simp only [eq_comm]

theorem get_takeOuter (h : Shaped net id s) (hc : net.chip? s.chip = some c)
    (he : w.Ends d c) (value : UInt64) : (s.takeOuter net w value).get =
      Function.update s.get w.outer ((c.outerWindow w).insert (s.get w.outer) value) := by
  funext i
  unfold takeOuter
  rw [get_put (h.pin_lt hc he.outerPin), chipIn_eq hc, Function.update_apply]
  simp only [eq_comm]

/-- What the wires into a part do. -/
theorem assigns_drive {ws : List Wire} (h : Shaped net id s) (wf : net.Sound)
    (hc : net.chip? s.chip = some c) (hp : c.parts[part]? = some p) (hws : ∀ w ∈ ws, w ∈ p.drives)
    (hchild : s.childOrFresh net part = .ok child) (hd : net.chip? p.chip = some d) :
    ∃ changed s' child', Action.all (ws.map (assign net part)) s = (.ok changed, s') ∧
      (∀ other, s'.putChild part other = s.putChild part other) ∧ s'.chip = s.chip ∧
      s'.childOrFresh net part = .ok child' ∧
      child'.get =
        writeAll Wire.inner d.innerWindow (fun w => s.outerValue net w) ws child.get := by
  induction ws generalizing s child with
  | nil => exact ⟨false, s, child, rfl, fun _ => rfl, rfl, hchild, rfl⟩
  | cons w ws ih =>
    have hs := h.of_childOrFresh wf hc hp hchild
    obtain ⟨hw, hdir⟩ := Instance.mem_drives.1 (hws w List.mem_cons_self)
    have hd' : net.chip? child.chip = some d := hs.chip_eq ▸ hd
    have he : w.Ends d c := Chip.Sound.ends wf hc (Array.mem_of_getElem? hp) hd hw
    have hfirst := h.assign_eq wf hc hp hw hchild
    rw [hdir] at hfirst
    have hq : Quiet (· = part) s (s.putChild part (child.takeInner net w (s.outerValue net w))) :=
      .putChild part _
    obtain ⟨changed, s', child', hrest, hput, hchip, hfound, hget⟩ :=
      ih (h.putChild hc hp (hs.takeInner hd' he (s.outerValue net w))) hc
        (fun v hv => hws v (List.mem_cons_of_mem w hv)) (h.childOrFresh_putChild hc hp)
    refine ⟨_, s', child', Action.andThen_eq_ok hfirst hrest, fun other => ?_, hchip, hfound, ?_⟩
    · rw [hput, putChild_putChild]
    · rw [hget, get_takeInner hs hd' he]
      simp only [hq.outerValue]
      rfl

/-- What the wires out of a part do. -/
theorem assigns_sense {ws : List Wire} (h : Shaped net id s) (wf : net.Sound)
    (hc : net.chip? s.chip = some c) (hp : c.parts[part]? = some p) (hws : ∀ w ∈ ws, w ∈ p.senses)
    (hchild : s.child? part = some child) (hd : net.chip? p.chip = some d) :
    ∃ changed s', Action.all (ws.map (assign net part)) s = (.ok changed, s') ∧
      s'.chip = s.chip ∧ s'.children = s.children ∧
      s'.get = writeAll Wire.outer c.outerWindow (fun w => child.innerValue net w) ws s.get := by
  induction ws generalizing s with
  | nil => exact ⟨false, s, rfl, rfl, rfl, rfl⟩
  | cons w ws ih =>
    have hfound := childOrFresh_of_child? hc hp hchild
    obtain ⟨hw, hdir⟩ := Instance.mem_senses.1 (hws w List.mem_cons_self)
    have he : w.Ends d c := Chip.Sound.ends wf hc (Array.mem_of_getElem? hp) hd hw
    have hfirst := h.assign_eq wf hc hp hw hfound
    rw [hdir] at hfirst
    have hsame : (s.takeOuter net w (child.innerValue net w)).putChild part child =
        s.takeOuter net w (child.innerValue net w) := putChild_child? hchild
    dsimp only at hfirst
    rw [hsame] at hfirst
    obtain ⟨changed, s', hrest, hchip, hchildren, hget⟩ :=
      ih (h.takeOuter hc he _) hc (fun v hv => hws v (List.mem_cons_of_mem w hv)) hchild
    refine ⟨_, s', Action.andThen_eq_ok hfirst hrest, hchip, hchildren, ?_⟩
    rw [hget, get_takeOuter h hc he]
    rfl

/-- Evaluation succeeds on tidy states, settles them, leaves settled ones as they are, and keeps
inputs and tidiness. -/
structure Converges (net : Netlist) (id : Nat) (a : Action) : Prop where
  ok : ∀ s, Tidy net id s → ∃ changed s', a s = (.ok changed, s')
  settles : Settles net id a
  fixes : ∀ s, Shaped net id s → s.AtRest net → a s = (.ok false, s)
  keeps : ∀ x, a.Keeps (TidyOn net id x)

/-- A visit to a part has left the other parts and the bits that it does not write alone. -/
structure Visited (c : Chip) (part : Nat) (s s' : State) : Prop where
  chip : s'.chip = s.chip
  others : ∀ i, i ≠ part → s'.children[i]? = s.children[i]?
  bits : ∀ i k, ¬ c.SensedBy part i k → bitAt (s'.get i) k = bitAt (s.get i) k

theorem Visited.outerValue_eq (h : Visited c part s s') (hc : net.chip? s.chip = some c)
    (hw : ∀ k, (c.outerWindow w).Covers k → ¬ c.SensedBy part w.outer k) :
    s'.outerValue net w = s.outerValue net w := by
  rw [outerValue, outerValue, chipIn_eq hc, chipIn_eq (h.chip ▸ hc)]
  exact extract_congr fun k hk => h.bits w.outer k (hw k hk)

/-- The wires into a part bring their values, and evaluation leaves them there. -/
theorem exists_drives_ok (ht : Tidy net id s) (wf : net.Sound)
    (hc : net.chip? s.chip = some c) (hp : c.parts[part]? = some p) (hd : net.chip? p.chip = some d)
    (he : Converges net p.chip evaluateChild) :
    ∃ first second s₁ cells child, Action.all (p.drives.map (assign net part)) s = (.ok first, s₁) ∧
      inPart net part evaluateChild s₁ = (.ok second, s.putChild part child) ∧
      Shaped net p.chip child ∧ child.AtRest net ∧
      HasInputs net p.chip
        (writeAll Wire.inner d.innerWindow (fun w => s.outerValue net w) p.drives cells) child := by
  have h := ht.shaped
  obtain ⟨child, hchild, hcs⟩ := h.childOrFresh hc (wf.chips _ c hc) hp
  obtain ⟨first, s₁, child₁, hdrives, hput, hchip₁, hfound, hget₁⟩ :=
    assigns_drive h wf hc hp (fun w hw => hw) hchild hd
  have ht₁ : Tidy net id s₁ := by
    have hkeep := keeps_all_assign (fun w hw => keeps_tidy_assign wf (h.chip_eq ▸ hc) hp
      (Instance.mem_drives.1 hw).1) s ⟨ht, fun _ _ => rfl⟩
    rw [hdrives] at hkeep
    exact hkeep.1
  obtain ⟨htc₁, -⟩ := ht₁.childOrFresh (hchip₁ ▸ hc) hp hfound
  obtain ⟨second, child₂, heval⟩ := he.ok child₁ htc₁
  obtain ⟨hset, hcs₂, -⟩ := he.settles child₁ htc₁.shaped _ child₂ heval
  refine ⟨first, second, s₁, child.get, child₂, hdrives, ?_, hcs₂, hset, ?_⟩
  · rw [inPart_eq hfound, heval, hput]
  · have hkeep := he.keeps child₁.get child₁ ⟨htc₁, fun _ _ => rfl⟩
    rw [heval, hget₁] at hkeep
    exact hkeep.2

/-- **A visit settles its part in its place.** -/
theorem exists_visitPart_ok (ht : Tidy net id s) (wf : net.Sound)
    (hcomb : c.Combinational net) (hc : net.chip? s.chip = some c)
    (hp : c.parts[part]? = some p) (he : Converges net p.chip evaluateChild) :
    ∃ changed s', visitPart net evaluateChild p part s = (.ok changed, s') ∧
      Visited c part s s' ∧ s'.PartAtRest net part p := by
  have h := ht.shaped
  have hlt := h.part_lt hc hp
  have hwired := Chip.Sound.wired wf hc
  obtain rfl : c.partAt part = p := Chip.partAt_eq hp
  obtain ⟨d, hd, -⟩ := (wf.chips _ c hc).parts _ (Array.mem_of_getElem? hp)
  obtain rfl : c.innerAt net part = d := Netlist.chipAt_eq hd
  obtain ⟨_, _, s₁, cells, child, hdrives, hin, hcs, hset, hinputs⟩ :=
    exists_drives_ok ht wf hc hp hd he
  -- The wires out take what the part gives.
  obtain ⟨_, s', hsenses, hchip, hchildren, hget⟩ :=
    assigns_sense (h.putChild hc hp hcs) wf hc hp (fun w hw => hw) (child?_putChild hlt) hd
  have hd' : net.chip? child.chip = some (c.innerAt net part) := hcs.chip_eq ▸ hd
  have hout : s'.get = c.takeOutputs (c.innerAt net part) (c.partAt part) child.get s.get := by
    rw [hget, Chip.takeOutputs]
    simp only [innerValue, chipIn_eq hd']
    rfl
  have hvisited : Visited c part s s' := by
    refine ⟨hchip, fun i hi => ?_, fun i k hk => ?_⟩
    · rw [hchildren, getElem?_putChild hlt, if_neg (Ne.symm hi)]
    · rw [hout]
      exact bitAt_writeAll fun w hw hi hcovers => hk ⟨w, hw, hi, hcovers⟩
  refine ⟨_, s', Action.andThen_eq_ok hdrives (Action.andThen_eq_ok hin hsenses), hvisited,
    child, ?_, hset, fun w hw hkept => ?_⟩
  · rw [child?, hchildren]
    exact child?_putChild hlt
  · have hends : w.Ends _ c := hwired part w hw
    refine (steady_iff (hchip ▸ hc) hd' hends).2 ?_
    cases hdir : w.direction with
    | sense =>
      have hmem := Instance.mem_senses.2 ⟨hw, hdir⟩
      rw [outerValue, innerValue, chipIn_eq (hchip ▸ hc), chipIn_eq hd', hout]
      exact Chip.extract_takeOutputs hcomb hwired hmem (fun hwrap => hkept ⟨hdir, hwrap⟩) _
    | drive =>
      have hmem := Instance.mem_drives.2 ⟨hw, hdir⟩
      rw [hvisited.outerValue_eq hc fun k hk => ?_, innerValue, chipIn_eq hd',
        hinputs w.inner (hends.isInput_inner hdir)]
      · simp only [outerValue, chipIn_eq hc]
        exact (Chip.extract_takeInputs hcomb hwired hmem _).symm
      · rintro ⟨v, hv, hvw, hk'⟩
        refine hcomb.acyclic part (.single ⟨v, hv, w, hmem, hvw, ?_⟩)
        exact BitRange.overlaps_iff.2 ⟨k, hk', hk⟩

/-! ## Passes -/

/-- The parts at these positions are settled in their places. -/
def PartsAtRest (net : Netlist) (c : Chip) (parts : List Nat) (s : State) : Prop :=
  ∀ j ∈ parts, ∀ p, c.parts[j]? = some p → s.PartAtRest net j p

/-- A visit to a part does not disturb another one that it does not feed. -/
theorem PartAtRest.visited {j : Nat} {q : Instance} (h : s.PartAtRest net j q)
    (hs : Shaped net id s) (wf : net.Sound) (hcomb : c.Combinational net)
    (hc : net.chip? s.chip = some c) (hq : c.parts[j]? = some q) (hv : Visited c part s s')
    (hne : j ≠ part) (hfeeds : ¬ c.Feeds part j) : s'.PartAtRest net j q := by
  obtain ⟨child, hchild, hsettled, hsteady⟩ := h
  have hcs := hs.inSlot hc hq (children_of_child? hchild)
  obtain ⟨d, hd⟩ := hcs.chip?
  refine ⟨child, ?_, hsettled, fun w hw hkept => ?_⟩
  · rw [child?, hv.others j hne]
    exact hchild
  · have he : w.Ends d c :=
      Chip.Sound.ends wf hc (Array.mem_of_getElem? hq) (hcs.chip_eq ▸ hd) hw
    obtain rfl : c.partAt j = q := Chip.partAt_eq hq
    rw [steady_iff (hv.chip ▸ hc) hd he, ← (steady_iff hc hd he).1 (hsteady w hw hkept)]
    refine hv.outerValue_eq hc fun k hk => ?_
    rintro ⟨v, hmem, hvw, hk'⟩
    have hmeet : c.MeetOutside v w := ⟨hvw, BitRange.overlaps_iff.2 ⟨k, hk', hk⟩⟩
    cases hdir : w.direction with
    | drive => exact hfeeds ⟨v, hmem, w, Instance.mem_drives.2 ⟨hw, hdir⟩, hmeet⟩
    | sense => exact hcomb.senses_apart hne.symm hmem (Instance.mem_senses.2 ⟨hw, hdir⟩) hmeet

section Passes

variable (wf : net.Sound) (hcomb : c.Combinational net) (hc : net.chip? id = some c)

include wf hcomb hc

/-- A visit settles its part, and keeps those settled that it does not feed. -/
theorem visit_settles (ht : Tidy net id s) (hp : c.parts[part]? = some p)
    (he : Converges net p.chip evaluateChild) :
    ∃ changed s', visitPart net evaluateChild p part s = (.ok changed, s') ∧ Tidy net id s' ∧
      ∀ parts, c.Closed parts → PartsAtRest net c parts s →
        PartsAtRest net c (part :: parts) s' := by
  have hc' : net.chip? s.chip = some c := ht.shaped.chip_eq ▸ hc
  obtain ⟨changed, s', hvisit, hvisited, hpart⟩ := exists_visitPart_ok ht wf hcomb hc' hp he
  refine ⟨changed, s', hvisit, ?_, fun parts hclosed hset j hj q hq => ?_⟩
  · have hkeep := keeps_visitPart (fun w hw => keeps_tidy_assign wf hc hp hw)
      (keeps_tidy_inPart wf hc hp he.keeps) s ⟨ht, fun _ _ => rfl⟩
    rw [hvisit] at hkeep
    exact hkeep.1
  · by_cases hmem : part ∈ parts
    · have hsame := visitPart_of_atRest ht.shaped wf hc' hp (hset part hmem p hp)
        fun child hchild hsettled =>
          he.fixes child (ht.shaped.inSlot hc' hp (children_of_child? hchild)) hsettled
      rw [hsame] at hvisit
      cases hvisit
      rcases List.mem_cons.1 hj with rfl | hj
      · exact hset j hmem q hq
      · exact hset j hj q hq
    · rcases List.mem_cons.1 hj with rfl | hj
      · rw [hp] at hq
        cases hq
        exact hpart
      · exact (hset j hj q hq).visited ht.shaped wf hcomb hc' hq hvisited (fun h => hmem (h ▸ hj))
          fun hfeeds => hmem (hclosed j hj part hfeeds)

/-- **Visits in any order** keep parts settled, and settle those that are fed by settled ones. -/
theorem visits_settle {visits : List (Instance × Nat)} (ht : Tidy net id s)
    (hvisits : ∀ q ∈ visits, c.parts[q.2]? = some q.1)
    (he : ∀ p ∈ c.parts, Converges net p.chip evaluateChild) :
    ∃ changed s', Action.all (visits.map fun (p, i) => visitPart net evaluateChild p i) s =
        (.ok changed, s') ∧ Tidy net id s' ∧
      ∀ parts, c.Closed parts → PartsAtRest net c parts s → PartsAtRest net c parts s' ∧
        ∀ q ∈ visits, (∀ i, c.Feeds i q.2 → i ∈ parts) → PartsAtRest net c (q.2 :: parts) s' := by
  induction visits generalizing s with
  | nil => exact ⟨false, s, rfl, ht, fun parts _ hset => ⟨hset, fun q hq => by cases hq⟩⟩
  | cons visit visits ih =>
    have hp := hvisits visit List.mem_cons_self
    obtain ⟨_, s₁, hfirst, ht₁, hset₁⟩ :=
      visit_settles wf hcomb hc ht hp (he _ (Array.mem_of_getElem? hp))
    obtain ⟨_, s', hrest, ht', hset'⟩ := ih ht₁ fun q hq => hvisits q (List.mem_cons_of_mem _ hq)
    refine ⟨_, s', Action.andThen_eq_ok hfirst hrest, ht', fun parts hclosed hset => ?_⟩
    have hfirst' := hset₁ parts hclosed hset
    obtain ⟨hkept, hnew⟩ := hset' parts hclosed fun j hj => hfirst' j (List.mem_cons_of_mem _ hj)
    refine ⟨hkept, fun q hq hfed => ?_⟩
    rcases List.mem_cons.1 hq with rfl | hq
    · exact (hset' _ (hclosed.cons hfed) hfirst').1
    · exact hnew q hq hfed

/-- One part more is settled for good by each pass. -/
theorem exists_untilSteady_ok {before after : List Nat} (ht : Tidy net id s)
    (he : ∀ p ∈ c.parts, Converges net p.chip evaluateChild)
    (horder : c.dependencyOrder = before ++ after) (hset : PartsAtRest net c before s)
    (failure : SimError) {limit : Nat} (hlimit : after.length < limit) :
    ∃ changed s', Action.untilSteady failure (pass net evaluateChild c) limit s =
      (.ok changed, s') := by
  induction after generalizing before s limit with
  | nil =>
    obtain ⟨limit, rfl⟩ := Nat.exists_eq_succ_of_ne_zero (Nat.ne_of_gt hlimit)
    have hc' : net.chip? s.chip = some c := ht.shaped.chip_eq ▸ hc
    have hpass : pass net evaluateChild c s = (.ok false, s) := by
      refine pass_of_atRest ht.shaped wf hc' (fun i p hp => ?_) fun i p hp child hchild hsettled => ?_
      · refine hset i ?_ p hp
        have hi := hcomb.mem_order.2 (Array.getElem?_eq_some_iff.1 hp).1
        rwa [horder, List.append_nil] at hi
      · exact (he p (Array.mem_of_getElem? hp)).fixes child
          (ht.shaped.inSlot hc' hp (children_of_child? hchild)) hsettled
    refine ⟨false, s, ?_⟩
    unfold Action.untilSteady
    rw [hpass]
  | cons j after ih =>
    obtain ⟨limit, rfl⟩ := Nat.exists_eq_succ_of_ne_zero (by omega : limit ≠ 0)
    have hvisits : ∀ q ∈ c.parts.toList.zipIdx, c.parts[q.2]? = some q.1 := by
      intro q hq
      rw [← Array.getElem?_toList]
      exact List.mk_mem_zipIdx_iff_getElem?.1 hq
    obtain ⟨changed, s₁, hpass, ht₁, hset₁⟩ := visits_settle wf hcomb hc ht hvisits he
    have hj : j < c.parts.size := by
      rw [← hcomb.mem_order, horder]
      simp
    have hset' : PartsAtRest net c (before ++ [j]) s₁ := by
      obtain ⟨-, hnew⟩ := hset₁ before (hcomb.closed_before horder) hset
      have hmem : (c.parts[j], j) ∈ c.parts.toList.zipIdx := by
        rw [List.mk_mem_zipIdx_iff_getElem?, Array.getElem?_toList, Array.getElem?_eq_getElem hj]
      intro k hk
      refine hnew _ hmem (fun i hfeeds => hcomb.feeder_before horder hfeeds) k ?_
      simpa [or_comm] using hk
    rw [← pass_eq (wf.chips id c hc).partsPlaced] at hpass
    unfold Action.untilSteady
    rw [hpass]
    cases changed with
    | false => exact ⟨false, s₁, rfl⟩
    | true =>
      have horder' : c.dependencyOrder = (before ++ [j]) ++ after := by
        rw [horder, List.append_assoc, List.singleton_append]
      have hlimit' : after.length < limit := Nat.lt_of_succ_lt_succ hlimit
      obtain ⟨_, s', hrest⟩ := ih ht₁ horder' hset' hlimit'
      refine ⟨true, s', ?_⟩
      dsimp only
      rw [hrest]

end Passes

/-! ## Settling succeeds -/

/-- The limit on passes is greater than the number of parts of every chip inside a chip. -/
def PassesSuffice (net : Netlist) (limits : Limits) (id : Nat) : Prop :=
  ∀ inner c, Relation.ReflTransGen net.Instantiates id inner → net.chip? inner = some c →
    c.kind = .composite → c.parts.size < limits.maxPasses

theorem PassesSuffice.inside (h : PassesSuffice net limits id) {inner : Nat}
    (hi : net.Instantiates id inner) : PassesSuffice net limits inner :=
  fun inner' c hreach => h inner' c (.head hi hreach)

/-- **A combinational design settles** from every tidy state. -/
theorem exists_settleWithin_ok (wf : net.Sound) (hcomb : net.Combinational)
    {levels depth : Nat} (hwithin : net.Within levels id) (hdepth : levels ≤ depth)
    (hpasses : PassesSuffice net limits id) (ht : Tidy net id s) :
    ∃ changed s', settleWithin net limits depth s = (.ok changed, s') := by
  induction levels generalizing id s depth with
  | zero => cases hwithin
  | succ levels ih =>
    obtain ⟨depth, rfl⟩ := Nat.exists_eq_succ_of_ne_zero (by omega : depth ≠ 0)
    obtain ⟨c, hc⟩ := ht.shaped.chip?
    have hc' : net.chip? id = some c := ht.shaped.chip_eq ▸ hc
    cases hk : c.kind with
    | gate g =>
      rw [settleWithin_gate hc hk]
      exact ⟨_, _, computeGate_eq ht.shaped wf hc hk⟩
    | composite =>
      rw [settleWithin_composite hc hk]
      have hcomb' := hcomb id c hc' hk
      have hlimit := hpasses id c .refl hc' hk
      refine exists_untilSteady_ok wf hcomb' hc' ht (fun p hp => ?_)
        (List.nil_append _).symm (fun j hj => by cases hj) _ ?_
      · have hinner : net.Instantiates id p.chip := ⟨c, hc', p, hp, rfl⟩
        have hlevels := hwithin p.chip hinner
        exact {
          ok := fun s hs => ih hlevels (by omega) (hpasses.inside hinner) hs
          settles := settles_settleWithin wf limits depth p.chip
          fixes := fun s hs hset => hset.settleWithin_eq wf hs hlevels (by omega) (by omega)
          keeps := keeps_tidy_settleWithin wf limits depth p.chip }
      · rw [hcomb'.order_perm.length_eq, List.length_range]
        exact hlimit

end State

end ChipLogic
