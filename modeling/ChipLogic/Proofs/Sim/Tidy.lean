import ChipLogic.Proofs.Sim.Calls
import ChipLogic.Proofs.Sim.Meaning

/-!
# Tidy states

Users who write only inputs and settle leave no traces in other places: a bit that neither is part
of an input nor is given a value by a gate or by a wire stays zero, and so does an input bit of a
part that no wire brings a value to (`State.Tidy`). Settling keeps that, also when it fails, and
leaves the inputs as they are (`State.keeps_tidy_settleWithin`).

`State.Driven` are the states that such users reach, whatever the limits and results of the
evaluations on the way. All of them are tidy (`State.Driven.tidy`).
-/

namespace ChipLogic

theorem Chip.isInput_eq_true {c : Chip} {i : Nat} {p : Pin} (hp : c.pins[i]? = some p) :
    c.isInput i = true ↔ p.kind = .input := by
  rw [isInput, hp, Option.any_some, beq_iff_eq]

theorem Wire.Ends.isInput_inner {w : Wire} {inner outer : Chip} (h : w.Ends inner outer)
    (hdir : w.direction = .drive) : inner.isInput w.inner = true :=
  (Chip.isInput_eq_true h.innerPin).2 (h.joins.drive_iff.1 hdir)

theorem Wire.Ends.isInput_outer {w : Wire} {inner outer : Chip} (h : w.Ends inner outer)
    (hdir : w.direction = .sense) : outer.isInput w.outer = false := by
  rw [← Bool.not_eq_true, Chip.isInput_eq_true h.outerPin]
  exact h.joins.sense_outer hdir

/-- The chip itself gives the bit of a pin its value. -/
def Chip.Gives (c : Chip) (i k : Nat) : Prop :=
  (∃ g, c.kind = .gate g ∧ i = g.arity) ∨ ∃ part, c.SensedBy part i k

/-- No wire brings a value to the input bit of a part. -/
def Instance.LeavesOut (p : Instance) (inner : Chip) (i k : Nat) : Prop :=
  ∀ w ∈ p.drives, w.inner = i → ¬ (inner.innerWindow w).Covers k

namespace State

variable {net : Netlist} {s s' child : State} {id pin part : Nat} {c d : Chip} {p : Instance}
  {w : Wire} {value : UInt64} {x : Valuation} {limits : Limits} {evaluateChild : Action}

/-- The input bits that no wire brings a value to are zero. -/
def Clear (p : Instance) (inner : Chip) (child : State) : Prop :=
  ∀ i k, inner.isInput i = true → p.LeavesOut inner i k → bitAt (child.get i) k = false

/-- Every bit that nothing gives a value to is zero, and so on for the parts. -/
inductive Tidy (net : Netlist) : Nat → State → Prop
  | intro {id : Nat} {s : State} {c : Chip} (shaped : Shaped net id s)
    (chip : net.chip? id = some c)
    (idle : ∀ i k, c.isInput i = false → ¬ c.Gives i k → bitAt (s.get i) k = false)
    (clear : ∀ (i : Nat) (p : Instance) child, c.parts[i]? = some p →
      s.children[i]? = some (some child) → Clear p (net.chipAt p.chip) child)
    (below : ∀ (i : Nat) (p : Instance) child, c.parts[i]? = some p →
      s.children[i]? = some (some child) → Tidy net p.chip child) : Tidy net id s

theorem get_fresh (h : fresh? net id = .ok s) (i : Nat) : s.get i = 0 := by
  unfold fresh? at h
  split at h
  · cases h
    unfold get
    rw [Array.getElem?_replicate]
    split <;> rfl
  · cases h

theorem tidy_fresh (h : fresh? net id = .ok s) : Tidy net id s := by
  have hs := shaped_fresh h
  obtain ⟨c, hc⟩ := hs.chip?
  have hnone (i : Nat) (child : State) : s.children[i]? ≠ some (some child) := by
    unfold fresh? at h
    split at h
    · cases h
      rw [Array.getElem?_replicate]
      split <;> simp
    · cases h
  refine .intro hs (hs.chip_eq ▸ hc) (fun i k _ _ => ?_) ?_ ?_
  · rw [get_fresh h, bitAt_zero]
  · exact fun i p child _ hchild => absurd hchild (hnone i child)
  · exact fun i p child _ hchild => absurd hchild (hnone i child)

namespace Tidy

theorem shaped (h : Tidy net id s) : Shaped net id s := by
  cases h with
  | intro shaped => exact shaped

theorem idle (h : Tidy net id s) (hc : net.chip? s.chip = some c) {i k : Nat}
    (hi : c.isInput i = false) (hk : ¬ c.Gives i k) : bitAt (s.get i) k = false := by
  cases h with
  | intro shaped chip idle =>
    rw [shaped.chip_eq, chip] at hc
    cases hc
    exact idle i k hi hk

theorem inSlot (h : Tidy net id s) (hc : net.chip? s.chip = some c)
    (hp : c.parts[part]? = some p) (hs : s.children[part]? = some (some child)) :
    Tidy net p.chip child ∧ Clear p (net.chipAt p.chip) child := by
  cases h with
  | intro shaped chip idle clear below =>
    rw [shaped.chip_eq, chip] at hc
    cases hc
    exact ⟨below part p child hp hs, clear part p child hp hs⟩

theorem childOrFresh (h : Tidy net id s) (hc : net.chip? s.chip = some c)
    (hp : c.parts[part]? = some p) (hchild : s.childOrFresh net part = .ok child) :
    Tidy net p.chip child ∧ Clear p (net.chipAt p.chip) child := by
  unfold State.childOrFresh at hchild
  rw [chipIn_eq hc, hp] at hchild
  cases hs : s.children[part]? with
  | none =>
    rw [hs] at hchild
    cases hchild
  | some slot =>
    rw [hs] at hchild
    cases slot with
    | some child' =>
      cases hchild
      exact h.inSlot hc hp hs
    | none =>
      dsimp only at hchild
      refine ⟨tidy_fresh hchild, fun i k _ _ => ?_⟩
      rw [get_fresh hchild, bitAt_zero]

theorem put (h : Tidy net id s) (hc : net.chip? s.chip = some c) {q : Pin}
    (hq : c.pins[pin]? = some q) (hv : Narrow q.width value)
    (hidle : c.isInput pin = false → ∀ k, ¬ c.Gives pin k → bitAt value k = false) :
    Tidy net id (s.put pin value) := by
  refine .intro (h.shaped.put hc hq hv) (h.shaped.chip_eq ▸ hc) (fun i k hi hk => ?_)
    (fun i p child hp hs => (h.inSlot hc hp hs).2) fun i p child hp hs => (h.inSlot hc hp hs).1
  rw [get_put (h.shaped.pin_lt hc hq)]
  split
  · next heq =>
    subst heq
    exact hidle hi k hk
  · exact h.idle hc hi hk

theorem putChild (h : Tidy net id s) (hc : net.chip? s.chip = some c)
    (hp : c.parts[part]? = some p) (ht : Tidy net p.chip child)
    (hclear : Clear p (net.chipAt p.chip) child) : Tidy net id (s.putChild part child) := by
  have hslot (i : Nat) (q : Instance) (other : State) (hq : c.parts[i]? = some q)
      (hother : (s.putChild part child).children[i]? = some (some other)) :
      Tidy net q.chip other ∧ Clear q (net.chipAt q.chip) other := by
    rw [getElem?_putChild (h.shaped.part_lt hc hp)] at hother
    split at hother
    · next heq =>
      subst heq
      rw [hp] at hq
      cases hq
      cases hother
      exact ⟨ht, hclear⟩
    · exact h.inSlot hc hq hother
  exact .intro (h.shaped.putChild hc hp ht.shaped) (h.shaped.chip_eq ▸ hc)
    (fun i k hi hk => h.idle hc hi hk) (fun i q other hq ho => (hslot i q other hq ho).2)
    fun i q other hq ho => (hslot i q other hq ho).1

theorem takeOuter (h : Tidy net id s) (hc : net.chip? s.chip = some c) (he : w.Ends d c)
    (hw : w ∈ (c.partAt part).senses) (value : UInt64) : Tidy net id (s.takeOuter net w value) := by
  have hs := h.shaped
  refine h.put hc he.outerPin ?_ fun hi k hk => ?_
  · rw [chipIn_eq hc]
    exact (hs.narrow hc he.outerPin).insert_outer he value
  · rw [chipIn_eq hc, BitRange.bitAt_insert_of_not_covers
      fun hin => hk (.inr ⟨part, w, hw, rfl, hin⟩)]
    exact h.idle hc hi hk

theorem takeInner (h : Tidy net id child) (hd : net.chip? child.chip = some d) (he : w.Ends d c)
    (hdir : w.direction = .drive) (value : UInt64) : Tidy net id (child.takeInner net w value) := by
  refine h.put hd he.innerPin ?_ fun hi => ?_
  · rw [chipIn_eq hd]
    exact (h.shaped.narrow hd he.innerPin).insert he.inner_last value
  · rw [he.isInput_inner hdir] at hi
    cases hi

end Tidy

/-! ## Settling keeps states tidy -/

/-- The inputs have the given values. -/
def HasInputs (net : Netlist) (id : Nat) (x : Valuation) (s : State) : Prop :=
  ∀ i, (net.chipAt id).isInput i = true → s.get i = x i

/-- A tidy state with the given inputs. -/
def TidyOn (net : Netlist) (id : Nat) (x : Valuation) (s : State) : Prop :=
  Tidy net id s ∧ HasInputs net id x s

theorem keeps_tidy_assign (wf : net.Sound) (hc : net.chip? id = some c)
    (hp : c.parts[part]? = some p) (hw : w ∈ p.wires) :
    Action.Keeps (TidyOn net id x) (assign net part w) := by
  rintro s ⟨ht, hx⟩
  have hs := ht.shaped
  have hc' : net.chip? s.chip = some c := hs.chip_eq ▸ hc
  obtain ⟨child, hchild, hcs⟩ := hs.childOrFresh hc' (wf.chips _ c hc') hp
  obtain ⟨htc, hclear⟩ := ht.childOrFresh hc' hp hchild
  obtain ⟨d, hd⟩ := hcs.chip?
  have hd' : net.chip? p.chip = some d := hcs.chip_eq ▸ hd
  have he : w.Ends d c := Chip.Sound.ends wf hc (Array.mem_of_getElem? hp) hd' hw
  rw [hs.assign_eq wf hc' hp hw hchild]
  cases hdir : w.direction with
  | drive =>
    refine ⟨ht.putChild hc' hp (htc.takeInner hd he hdir _) fun i k hi hk => ?_, hx⟩
    rw [takeInner, chipIn_eq hd, bitAt_get_put (hcs.pin_lt hd he.innerPin) fun hwi => ?_]
    · exact hclear i k hi hk
    · rw [Netlist.chipAt_eq hd'] at hk
      exact hk w (Instance.mem_drives.2 ⟨hw, hdir⟩) hwi
  | sense =>
    have hmem : w ∈ (c.partAt part).senses := by
      rw [Chip.partAt_eq hp]
      exact Instance.mem_senses.2 ⟨hw, hdir⟩
    refine ⟨(ht.takeOuter hc' he hmem _).putChild hc' hp htc hclear, fun i hi => ?_⟩
    rw [get_putChild, State.takeOuter, get_put (hs.pin_lt hc' he.outerPin), if_neg fun heq => ?_]
    · exact hx i hi
    · rw [Netlist.chipAt_eq hc, ← heq, he.isInput_outer hdir] at hi
      cases hi

theorem keeps_tidy_inPart (wf : net.Sound) (hc : net.chip? id = some c)
    (hp : c.parts[part]? = some p) (he : ∀ y, evaluateChild.Keeps (TidyOn net p.chip y)) :
    Action.Keeps (TidyOn net id x) (inPart net part evaluateChild) := by
  rintro s ⟨ht, hx⟩
  have hc' : net.chip? s.chip = some c := ht.shaped.chip_eq ▸ hc
  obtain ⟨child, hchild, -⟩ := ht.shaped.childOrFresh hc' (wf.chips _ c hc') hp
  obtain ⟨htc, hclear⟩ := ht.childOrFresh hc' hp hchild
  obtain ⟨ht', hsame⟩ := he child.get child ⟨htc, fun _ _ => rfl⟩
  rw [inPart_eq hchild]
  refine ⟨ht.putChild hc' hp ht' fun i k hi hk => ?_, hx⟩
  rw [hsame i hi]
  exact hclear i k hi hk

theorem keeps_tidy_computeGate (wf : net.Sound) (hc : net.chip? id = some c) {g : Gate}
    (hk : c.kind = .gate g) : (computeGate net g).Keeps (TidyOn net id x) := by
  rintro s ⟨ht, hx⟩
  have hs := ht.shaped
  have hc' : net.chip? s.chip = some c := hs.chip_eq ▸ hc
  obtain ⟨p, hp, hw, hkind⟩ := exists_output (wf.chips _ c hc) hk
  rw [computeGate_eq hs wf hc' hk]
  refine ⟨ht.put hc' hp ?_ fun _ k hgives => ?_, fun i hi => ?_⟩
  · rw [hw]
    exact narrow_gateValue g s
  · exact absurd (.inl ⟨g, hk, rfl⟩) hgives
  · rw [get_put (hs.pin_lt hc' hp), if_neg fun heq => ?_]
    · exact hx i hi
    · rw [Netlist.chipAt_eq hc, ← heq, Chip.isInput_eq_true hp, hkind] at hi
      cases hi

theorem keeps_tidy_pass (wf : net.Sound) (hc : net.chip? id = some c)
    (he : ∀ p ∈ c.parts, ∀ y, evaluateChild.Keeps (TidyOn net p.chip y)) :
    (pass net evaluateChild c).Keeps (TidyOn net id x) := by
  refine keeps_pass (wf.chips id c hc).partsPlaced fun i p hp =>
    keeps_visitPart (fun w hw => ?_) ?_
  · exact keeps_tidy_assign wf hc hp hw
  · exact keeps_tidy_inPart wf hc hp (he p (Array.mem_of_getElem? hp))

/-- Settling keeps a state tidy and its inputs as they are. -/
theorem keeps_tidy_settleWithin (wf : net.Sound) (limits : Limits) (depth id : Nat)
    (x : Valuation) : (settleWithin net limits depth).Keeps (TidyOn net id x) := by
  induction depth generalizing id x with
  | zero => exact fun _ h => h
  | succ depth ih =>
    intro s h
    obtain ⟨c, hc⟩ := h.1.shaped.chip?
    have hc' : net.chip? id = some c := h.1.shaped.chip_eq ▸ hc
    cases hk : c.kind with
    | gate g =>
      rw [settleWithin_gate hc hk]
      exact keeps_tidy_computeGate wf hc' hk s h
    | composite =>
      rw [settleWithin_composite hc hk]
      exact (keeps_tidy_pass wf hc' fun p _ => ih p.chip).untilSteady _ _ s h

/-! ## Driven states -/

theorem Tidy.writeInput (h : Tidy net id s) (hpin : (net.chipAt id).isInput pin = true) {q : Pin}
    (hq : s.pin? net pin = .ok q) (value : UInt64) :
    Tidy net id (s.write pin (value &&& lowMask q.width)).2 := by
  obtain ⟨c, hc⟩ := h.shaped.chip?
  have hq := of_pin?_eq_ok hc hq
  rw [write_eq (h.shaped.pin_lt hc hq)]
  refine h.put hc hq (narrow_and_lowMask _ _) fun hi => ?_
  rw [Netlist.chipAt_eq (h.shaped.chip_eq ▸ hc), hi] at hpin
  cases hpin

theorem Tidy.set (h : Tidy net id s) (hpin : (net.chipAt id).isInput pin = true)
    (value : UInt64) : Tidy net id (s.set net pin value).2 := by
  unfold State.set
  split
  · next q hq => exact h.writeInput hpin hq value
  · exact h

theorem Tidy.setRange (h : Tidy net id s) (hpin : (net.chipAt id).isInput pin = true)
    (value : UInt64) (range : BitRange) : Tidy net id (s.setRange net pin value range).2 := by
  unfold State.setRange
  split
  · next q hq => exact h.writeInput hpin hq _
  · exact h

/-- The states of a chip that writing its inputs and evaluating it lead to. -/
inductive Driven (net : Netlist) (id : Nat) : State → Prop
  | fresh {s : State} : fresh? net id = .ok s → Driven net id s
  | set {s : State} {pin : Nat} (input : (net.chipAt id).isInput pin = true) (value : UInt64) :
    Driven net id s → Driven net id (s.set net pin value).2
  | setRange {s : State} {pin : Nat} (input : (net.chipAt id).isInput pin = true) (value : UInt64)
    (range : BitRange) : Driven net id s → Driven net id (s.setRange net pin value range).2
  | trySet {s : State} {pin : Nat} (input : (net.chipAt id).isInput pin = true) (value : UInt64) :
    Driven net id s → Driven net id (s.trySet net pin value).2
  | setNamed {s : State} {pin : Nat} {name : String} (named : s.pinNamed net name = .ok pin)
    (input : (net.chipAt id).isInput pin = true) (value : UInt64) :
    Driven net id s → Driven net id (s.setNamed net name value).2
  | evaluate {s : State} (limits : Limits) :
    Driven net id s → Driven net id (s.evaluate net limits).2

/-- **Driven states are tidy.** -/
theorem Driven.tidy (h : Driven net id s) (wf : net.Sound) : Tidy net id s := by
  induction h with
  | fresh hf => exact tidy_fresh hf
  | set input value _ ih => exact ih.set input value
  | setRange input value range _ ih => exact ih.setRange input value range
  | @trySet s pin input value _ ih =>
    unfold State.trySet
    split
    · exact ih.set input value
    · exact ih
  | @setNamed s pin name named input value _ ih =>
    unfold State.setNamed
    rw [named]
    dsimp only
    split
    · exact ih
    · exact ih.set input value
  | @evaluate s limits _ ih =>
    exact (keeps_tidy_settleWithin wf limits _ id s.get s ⟨ih, fun _ _ => rfl⟩).1

end State

end ChipLogic
