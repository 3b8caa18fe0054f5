import ChipLogic.Proofs.Sim.Window
import ChipLogic.Sim.State

/-!
# The shape of a state

A state of a chip has a cell for each pin, in which no bit is set beyond the width of the pin, a
slot for each part, and in a slot that is filled a state of the part's chip (`State.Shaped`). A
fresh state is shaped, and in a sound netlist every operation on values keeps it shaped.

In a shaped state no position leads nowhere, so copying a wire cannot fail, and both ways of copying
have one description (`State.assign_eq`): the window at the target takes the value of the
window at the source, and the answer tells whether the two differed. The one exception is a wire
into bits that its net does not have (`Wire.Lossy`): nothing is taken, and nothing is told.
-/

namespace ChipLogic

/-! ## Narrow cells -/

/-- No bit is set beyond the width. -/
def Narrow (width : Nat) (cell : UInt64) : Prop :=
  ∀ i, width ≤ i → bitAt cell i = false

theorem narrow_zero (width : Nat) : Narrow width 0 := fun i _ => bitAt_zero i

theorem narrow_and_lowMask (width : Nat) (cell : UInt64) :
    Narrow width (cell &&& lowMask width) := by
  intro i hi
  rw [bitAt_and, bitAt_lowMask, decide_eq_false (by omega), Bool.and_false]

/-- A value put into a window inside the pin leaves the pin narrow. -/
theorem Narrow.insert {width : Nat} {cell : UInt64} (h : Narrow width cell) {r : BitRange}
    (hr : r.last < width) (value : UInt64) : Narrow width (r.insert cell value) := by
  intro i hi
  rw [BitRange.bitAt_insert_of_not_covers fun hc => by have := hc.2; omega]
  exact h i hi

/-- So does a value that comes over a wire to its outer end. -/
theorem Narrow.insert_outer {w : Wire} {inner outer : Chip} {cell : UInt64}
    (h : Narrow (outer.pinAt w.outer).width cell) (he : w.Ends inner outer) (value : UInt64) :
    Narrow (outer.pinAt w.outer).width ((outer.outerWindow w).insert cell value) := by
  by_cases hw : w.WrapsAround
  · rwa [BitRange.insert_of_beyond (he.outer_beyond hw)]
  · exact h.insert (he.outer_last hw) value

theorem setIfInBounds_of_getElem? {α : Type} {xs : Array α} {i : Nat} {x : α}
    (h : xs[i]? = some x) : xs.setIfInBounds i x = xs := by
  obtain ⟨hlt, rfl⟩ := Array.getElem?_eq_some_iff.1 h
  simp [Array.setIfInBounds, hlt]

namespace State

/-! ## Cells and slots -/

/-- The state with a value in a cell. -/
def put (s : State) (pin : Nat) (value : UInt64) : State :=
  { s with cells := s.cells.setIfInBounds pin value }

variable {net : Netlist} {s : State} {pin part : Nat} {value : UInt64} {child : State}

@[simp] theorem get_putChild (i : Nat) : (s.putChild part child).get i = s.get i := rfl

theorem get_put (h : pin < s.cells.size) (i : Nat) :
    (s.put pin value).get i = if pin = i then value else s.get i := by
  unfold get put
  rw [Array.getElem?_setIfInBounds]
  by_cases hi : pin = i
  · rw [if_pos hi, if_pos hi, if_pos (hi ▸ h), Option.getD_some]
  · rw [if_neg hi, if_neg hi]

theorem put_get (h : pin < s.cells.size) : s.put pin (s.get pin) = s := by
  have hcells : s.cells.setIfInBounds pin (s.get pin) = s.cells := by
    apply setIfInBounds_of_getElem?
    rw [get, Array.getElem?_eq_getElem h, Option.getD_some]
  cases s
  exact congrArg (State.mk _ · _) hcells

theorem write_eq (h : pin < s.cells.size) (value : UInt64) :
    s.write pin value = (decide (s.get pin ≠ value), s.put pin value) := by
  have hget : s.cells[pin]? = some (s.get pin) := by
    rw [get, Array.getElem?_eq_getElem h, Option.getD_some]
  unfold write
  rw [hget]
  by_cases hv : s.get pin = value
  · subst hv
    rw [put_get h]
    simp
  · simp [hv, put]

theorem getElem?_putChild (h : part < s.children.size) (i : Nat) :
    (s.putChild part child).children[i]? =
      if part = i then some (some child) else s.children[i]? := by
  unfold putChild
  rw [Array.getElem?_setIfInBounds]
  by_cases hi : part = i
  · rw [if_pos hi, if_pos hi, if_pos (hi ▸ h)]
  · rw [if_neg hi, if_neg hi]

theorem putChild_putChild (first second : State) :
    (s.putChild part first).putChild part second = s.putChild part second := by
  unfold putChild
  simp

/-- What is done in a part is done to its state. -/
theorem inPart_eq {α : Type} (h : s.childOrFresh net part = .ok child)
    (f : State → Outcome α) :
    inPart net part f s = ((f child).1, s.putChild part (f child).2) := by
  rw [inPart, h]

theorem chipIn_eq {c : Chip} (h : net.chip? s.chip = some c) : s.chipIn net = c := by
  rw [chipIn, h, Option.getD_some]

theorem pin?_eq {c : Chip} (h : net.chip? s.chip = some c) {p : Pin} (hp : c.pins[pin]? = some p) :
    s.pin? net pin = .ok p := by
  rw [pin?, chipIn_eq h, hp]

theorem of_pin?_eq_ok {c : Chip} (h : net.chip? s.chip = some c) {p : Pin}
    (hp : s.pin? net pin = .ok p) : c.pins[pin]? = some p := by
  unfold pin? at hp
  rw [chipIn_eq h] at hp
  split at hp
  · next hq => cases hp; exact hq
  · cases hp

/-! ## Shaped states -/

/-- The state is one of the chip at `id`, and so on for the parts. -/
inductive Shaped (net : Netlist) : Nat → State → Prop
  | intro {id : Nat} {s : State} {c : Chip} (here : s.chip = id) (chip : net.chip? id = some c)
      (cells : s.cells.size = c.pins.size) (slots : s.children.size = c.parts.size)
      (narrow : ∀ (i : Nat) (p : Pin), c.pins[i]? = some p → Narrow p.width (s.get i))
      (below : ∀ (i : Nat) (p : Instance) child, c.parts[i]? = some p →
        s.children[i]? = some (some child) → Shaped net p.chip child) : Shaped net id s

theorem shaped_fresh {id : Nat} (h : fresh? net id = .ok s) : Shaped net id s := by
  unfold fresh? at h
  split at h
  · next c hc =>
    cases h
    refine .intro rfl hc Array.size_replicate Array.size_replicate (fun i p _ => ?_) ?_
    · unfold get
      rw [Array.getElem?_replicate]
      split <;> exact narrow_zero _
    · intro i p child _ hchild
      rw [Array.getElem?_replicate] at hchild
      split at hchild <;> cases hchild
  · cases h

namespace Shaped

variable {id : Nat} {c : Chip}

theorem chip_eq (h : Shaped net id s) : s.chip = id := by
  cases h with
  | intro here => exact here

theorem chip? (h : Shaped net id s) : ∃ c, net.chip? s.chip = some c := by
  cases h with
  | intro here chip => exact ⟨_, here ▸ chip⟩

theorem cells_size (h : Shaped net id s) (hc : net.chip? s.chip = some c) :
    s.cells.size = c.pins.size := by
  cases h with
  | intro here chip cells =>
    rw [here, chip] at hc
    cases hc
    exact cells

theorem slots_size (h : Shaped net id s) (hc : net.chip? s.chip = some c) :
    s.children.size = c.parts.size := by
  cases h with
  | intro here chip cells slots =>
    rw [here, chip] at hc
    cases hc
    exact slots

theorem narrow (h : Shaped net id s) (hc : net.chip? s.chip = some c) {p : Pin}
    (hp : c.pins[pin]? = some p) : Narrow p.width (s.get pin) := by
  cases h with
  | intro here chip cells slots narrow =>
    rw [here, chip] at hc
    cases hc
    exact narrow pin p hp

theorem inSlot (h : Shaped net id s) (hc : net.chip? s.chip = some c) {p : Instance}
    (hp : c.parts[part]? = some p) (hs : s.children[part]? = some (some child)) :
    Shaped net p.chip child := by
  cases h with
  | intro here chip cells slots narrow below =>
    rw [here, chip] at hc
    cases hc
    exact below part p child hp hs

theorem pin_lt (h : Shaped net id s) (hc : net.chip? s.chip = some c) {p : Pin}
    (hp : c.pins[pin]? = some p) : pin < s.cells.size := by
  rw [h.cells_size hc]
  exact (Array.getElem?_eq_some_iff.1 hp).1

theorem part_lt (h : Shaped net id s) (hc : net.chip? s.chip = some c) {p : Instance}
    (hp : c.parts[part]? = some p) : part < s.children.size := by
  rw [h.slots_size hc]
  exact (Array.getElem?_eq_some_iff.1 hp).1

theorem put (h : Shaped net id s) (hc : net.chip? s.chip = some c) {p : Pin}
    (hp : c.pins[pin]? = some p) (hv : Narrow p.width value) : Shaped net id (s.put pin value) := by
  refine .intro h.chip_eq (h.chip_eq ▸ hc) ?_ (h.slots_size hc) (fun i q hq => ?_)
    fun i q child hq hchild => h.inSlot hc hq hchild
  · rw [← h.cells_size hc]
    exact Array.size_setIfInBounds
  · rw [get_put (h.pin_lt hc hp)]
    split
    · next hi =>
      subst hi
      rw [hp] at hq
      cases hq
      exact hv
    · exact h.narrow hc hq

theorem putChild (h : Shaped net id s) (hc : net.chip? s.chip = some c) {p : Instance}
    (hp : c.parts[part]? = some p) (hchild : Shaped net p.chip child) :
    Shaped net id (s.putChild part child) := by
  refine .intro h.chip_eq (h.chip_eq ▸ hc) (h.cells_size hc) ?_ (fun i q hq => h.narrow hc hq) ?_
  · rw [← h.slots_size hc]
    exact Array.size_setIfInBounds
  · intro i q other hq hother
    rw [getElem?_putChild (h.part_lt hc hp)] at hother
    split at hother
    · next hi =>
      subst hi
      rw [hp] at hq
      cases hq
      cases hother
      exact hchild
    · exact h.inSlot hc hq hother

/-- A part has a state, fresh if nobody asked for it before. -/
theorem childOrFresh (h : Shaped net id s) (hc : net.chip? s.chip = some c)
    (wf : c.Sound net) {p : Instance} (hp : c.parts[part]? = some p) :
    ∃ child, s.childOrFresh net part = .ok child ∧ Shaped net p.chip child := by
  unfold State.childOrFresh
  rw [chipIn_eq hc, hp, Array.getElem?_eq_getElem (h.part_lt hc hp)]
  dsimp only
  have hlt := h.part_lt hc hp
  cases hs : s.children[part] with
  | some child =>
    refine ⟨child, rfl, h.inSlot hc hp ?_⟩
    rw [Array.getElem?_eq_getElem (h.part_lt hc hp), hs]
  | none =>
    obtain ⟨d, hd, -⟩ := wf.parts p (Array.mem_of_getElem? hp)
    dsimp only
    cases hf : fresh? net p.chip with
    | ok child => exact ⟨child, rfl, shaped_fresh hf⟩
    | error e =>
      rw [fresh?, hd] at hf
      cases hf

/-! ## Operations -/

theorem set (h : Shaped net id s) (pin : Nat) (value : UInt64) :
    Shaped net id (s.set net pin value).2 := by
  obtain ⟨c, hc⟩ := h.chip?
  unfold State.set
  split
  · next p hp =>
    have hp := of_pin?_eq_ok hc hp
    rw [write_eq (h.pin_lt hc hp)]
    exact h.put hc hp (narrow_and_lowMask _ _)
  · exact h

theorem setRange (h : Shaped net id s) (pin : Nat) (value : UInt64) (range : BitRange) :
    Shaped net id (s.setRange net pin value range).2 := by
  obtain ⟨c, hc⟩ := h.chip?
  unfold State.setRange
  split
  · next p hp =>
    have hp := of_pin?_eq_ok hc hp
    rw [write_eq (h.pin_lt hc hp)]
    exact h.put hc hp (narrow_and_lowMask _ _)
  · exact h

theorem trySet (h : Shaped net id s) (pin : Nat) (value : UInt64) :
    Shaped net id (s.trySet net pin value).2 := by
  unfold State.trySet
  split
  · exact h.set pin value
  · exact h

theorem setNamed (h : Shaped net id s) (name : String) (value : UInt64) :
    Shaped net id (s.setNamed net name value).2 := by
  unfold State.setNamed
  split
  · exact h
  · dsimp only
    split
    · exact h
    · exact h.set _ value

theorem reset (h : Shaped net id s) : Shaped net id s.reset := by
  obtain ⟨c, hc⟩ := h.chip?
  refine .intro h.chip_eq (h.chip_eq ▸ hc) ?_ ?_ (fun i p _ => ?_) ?_
  · rw [← h.cells_size hc]
    exact Array.size_map
  · rw [← h.slots_size hc]
    exact Array.size_map
  · unfold get State.reset
    rw [Array.getElem?_map]
    cases s.cells[i]? <;> exact narrow_zero _
  · intro i p child _ hchild
    unfold State.reset at hchild
    rw [Array.getElem?_map] at hchild
    cases hi : s.children[i]? <;> rw [hi] at hchild <;> cases hchild

end Shaped

/-! ## Wires -/

/-- The value of a wire at its outer end. -/
def outerValue (net : Netlist) (w : Wire) (s : State) : UInt64 :=
  ((s.chipIn net).outerWindow w).extract (s.get w.outer)

/-- The value of a wire at its inner end. -/
def innerValue (net : Netlist) (w : Wire) (child : State) : UInt64 :=
  ((child.chipIn net).innerWindow w).extract (child.get w.inner)

/-- The state with a value at the outer end of a wire. -/
def takeOuter (net : Netlist) (w : Wire) (value : UInt64) (s : State) : State :=
  s.put w.outer (((s.chipIn net).outerWindow w).insert (s.get w.outer) value)

/-- The state with a value at the inner end of a wire. -/
def takeInner (net : Netlist) (w : Wire) (value : UInt64) (child : State) : State :=
  child.put w.inner (((child.chipIn net).innerWindow w).insert (child.get w.inner) value)

section Wires

variable {c d : Chip} {w : Wire}

theorem outerValue_eq (hc : net.chip? s.chip = some c) :
    s.outerValue net w = (c.outerWindow w).extract (s.get w.outer) := by
  rw [outerValue, chipIn_eq hc]

theorem innerValue_eq (hd : net.chip? s.chip = some d) :
    s.innerValue net w = (d.innerWindow w).extract (s.get w.inner) := by
  rw [innerValue, chipIn_eq hd]

theorem takeOuter_eq (hc : net.chip? s.chip = some c) (value : UInt64) :
    s.takeOuter net w value =
      s.put w.outer ((c.outerWindow w).insert (s.get w.outer) value) := by
  rw [takeOuter, chipIn_eq hc]

theorem takeInner_eq (hd : net.chip? s.chip = some d) (value : UInt64) :
    s.takeInner net w value =
      s.put w.inner ((d.innerWindow w).insert (s.get w.inner) value) := by
  rw [takeInner, chipIn_eq hd]

theorem window_outer (hc : net.chip? s.chip = some c) (he : w.Ends d c) :
    s.window net w.outer w.outerRange = .ok (c.outerWindow w) := by
  rw [window, pin?_eq hc he.outerPin]
  rfl

theorem window_inner (hd : net.chip? child.chip = some d) (he : w.Ends d c) :
    child.window net w.inner w.innerRange = .ok (d.innerWindow w) := by
  rw [window, pin?_eq hd he.innerPin]
  rfl

/-- Bits outside the window stay as they are. -/
theorem bitAt_get_put (h : pin < s.cells.size) {window : BitRange} {i k : Nat}
    (hk : pin = i → ¬ window.Covers k) (value : UInt64) :
    bitAt ((s.put pin (window.insert (s.get pin) value)).get i) k = bitAt (s.get i) k := by
  rw [get_put h]
  split
  · next hi =>
    rw [BitRange.bitAt_insert_of_not_covers (hk hi), hi]
  · rfl

theorem innerValue_takeInner (hi : w.inner < child.cells.size)
    (hd : net.chip? child.chip = some d) (hc : net.chip? s.chip = some c) (he : w.Ends d c) :
    (child.takeInner net w (s.outerValue net w)).innerValue net w = s.outerValue net w := by
  rw [innerValue_eq (s := child.takeInner net w _) hd, takeInner_eq hd, outerValue_eq hc,
    get_put hi, if_pos rfl]
  exact BitRange.extract_insert_extract he.inner_last_lt he.width_eq.symm _ _

theorem outerValue_takeOuter (ho : w.outer < s.cells.size) (hc : net.chip? s.chip = some c)
    (hd : net.chip? child.chip = some d) (he : w.Ends d c) (hw : ¬ w.WrapsAround) :
    (s.takeOuter net w (child.innerValue net w)).outerValue net w = child.innerValue net w := by
  rw [outerValue_eq (s := s.takeOuter net w _) hc, takeOuter_eq hc, innerValue_eq hd,
    get_put ho, if_pos rfl]
  exact BitRange.extract_insert_extract (he.outer_last_lt hw) he.width_eq _ _

theorem takeInner_innerValue (hi : w.inner < child.cells.size) :
    child.takeInner net w (child.innerValue net w) = child := by
  unfold takeInner innerValue
  rw [BitRange.insert_extract, put_get hi]

theorem takeOuter_outerValue (ho : w.outer < s.cells.size) :
    s.takeOuter net w (s.outerValue net w) = s := by
  unfold takeOuter outerValue
  rw [BitRange.insert_extract, put_get ho]

/-- A net does not take what is carried to bits beyond it. -/
theorem takeOuter_of_wrapsAround (ho : w.outer < s.cells.size) (hc : net.chip? s.chip = some c)
    (he : w.Ends d c) (hw : w.WrapsAround) (value : UInt64) : s.takeOuter net w value = s := by
  rw [takeOuter_eq hc, BitRange.insert_of_beyond (he.outer_beyond hw), put_get ho]

theorem outerValue_of_wrapsAround (hc : net.chip? s.chip = some c) (he : w.Ends d c)
    (hw : w.WrapsAround) : s.outerValue net w = 0 := by
  rw [outerValue_eq hc, BitRange.extract_of_beyond (he.outer_beyond hw)]

/-- **Copying a wire** makes its target agree with its source, and tells whether they differed, if
the target has the bits. -/
theorem assign_eq (hc : net.chip? s.chip = some c) (hchild : s.childOrFresh net part = .ok child)
    (hd : net.chip? child.chip = some d) (he : w.Ends d c) (ho : w.outer < s.cells.size)
    (hi : w.inner < child.cells.size) :
    assign net part w s =
      (.ok (decide (s.outerValue net w ≠ child.innerValue net w ∧ ¬ w.Lossy)),
        match w.direction with
        | .drive => s.putChild part (child.takeInner net w (s.outerValue net w))
        | .sense => (s.takeOuter net w (child.innerValue net w)).putChild part child) := by
  have hov : s.getRange w.outer (c.outerWindow w) = s.outerValue net w := (outerValue_eq hc).symm
  have hiv : child.getRange w.inner (d.innerWindow w) = child.innerValue net w :=
    (innerValue_eq hd).symm
  unfold assign
  rw [window_outer hc he, hchild]
  dsimp only
  rw [window_inner hd he]
  dsimp only
  rw [hov, hiv]
  by_cases heq : s.outerValue net w = child.innerValue net w
  · rw [if_pos heq, decide_eq_false fun h => h.1 heq]
    cases w.direction with
    | drive =>
      dsimp only
      rw [heq, takeInner_innerValue hi]
    | sense =>
      dsimp only
      rw [← heq, takeOuter_outerValue ho]
  · rw [if_neg heq]
    cases hdir : w.direction with
    | drive =>
      have hkept : ¬ w.Lossy := fun h => by cases hdir.symm.trans h.1
      have hput := innerValue_takeInner hi hd hc he
      rw [takeInner_eq hd] at hput ⊢
      have hne : child.get w.inner ≠
          (d.innerWindow w).insert (child.get w.inner) (s.outerValue net w) := by
        intro hsame
        rw [← hsame, put_get hi] at hput
        exact heq hput.symm
      dsimp only
      rw [accept, write_eq hi, decide_eq_true hne, decide_eq_true ⟨heq, hkept⟩]
    | sense =>
      dsimp only
      by_cases hwrap : w.WrapsAround
      · -- the value would go to bits that no cell has
        rw [accept, BitRange.insert_of_beyond (he.outer_beyond hwrap), write_eq ho, put_get ho,
          takeOuter_of_wrapsAround ho hc he hwrap, decide_eq_false (not_not_intro rfl),
          decide_eq_false fun h => h.2 ⟨hdir, hwrap⟩]
      · have hput := outerValue_takeOuter ho hc hd he hwrap
        rw [takeOuter_eq hc] at hput ⊢
        have hne : s.get w.outer ≠
            (c.outerWindow w).insert (s.get w.outer) (child.innerValue net w) := by
          intro hsame
          rw [← hsame, put_get ho] at hput
          exact heq hput
        rw [accept, write_eq ho, decide_eq_true hne, decide_eq_true ⟨heq, fun h => hwrap h.2⟩]

end Wires

namespace Shaped

variable {id : Nat} {c d : Chip} {p : Instance} {w : Wire}

theorem of_childOrFresh (h : Shaped net id s) (wf : net.Sound)
    (hc : net.chip? s.chip = some c) (hp : c.parts[part]? = some p)
    (hchild : s.childOrFresh net part = .ok child) : Shaped net p.chip child := by
  obtain ⟨child', hchild', hs⟩ := h.childOrFresh hc (wf.chips _ c hc) hp
  rw [hchild] at hchild'
  cases hchild'
  exact hs

theorem childOrFresh_putChild (h : Shaped net id s) (hc : net.chip? s.chip = some c)
    (hp : c.parts[part]? = some p) : (s.putChild part child).childOrFresh net part = .ok child := by
  unfold State.childOrFresh
  rw [chipIn_eq (s := s.putChild part child) hc, hp, getElem?_putChild (h.part_lt hc hp),
    if_pos rfl]

theorem takeOuter (h : Shaped net id s) (hc : net.chip? s.chip = some c) (he : w.Ends d c)
    (value : UInt64) : Shaped net id (s.takeOuter net w value) := by
  refine h.put hc he.outerPin ?_
  rw [chipIn_eq hc]
  exact (h.narrow hc he.outerPin).insert_outer he value

theorem takeInner (h : Shaped net id child) (hd : net.chip? child.chip = some d) (he : w.Ends d c)
    (value : UInt64) : Shaped net id (child.takeInner net w value) := by
  refine h.put hd he.innerPin ?_
  rw [chipIn_eq hd]
  exact (h.narrow hd he.innerPin).insert he.inner_last value

/-- Copying one of a part's own wires does not fail. -/
theorem assign_eq (h : Shaped net id s) (wf : net.Sound) (hc : net.chip? s.chip = some c)
    (hp : c.parts[part]? = some p) (hw : w ∈ p.wires)
    (hchild : s.childOrFresh net part = .ok child) :
    assign net part w s =
      (.ok (decide (s.outerValue net w ≠ child.innerValue net w ∧ ¬ w.Lossy)),
        match w.direction with
        | .drive => s.putChild part (child.takeInner net w (s.outerValue net w))
        | .sense => (s.takeOuter net w (child.innerValue net w)).putChild part child) := by
  have hs := h.of_childOrFresh wf hc hp hchild
  obtain ⟨d, hd⟩ := hs.chip?
  have he : w.Ends d c := Chip.Sound.ends wf hc (Array.mem_of_getElem? hp) (hs.chip_eq ▸ hd) hw
  exact State.assign_eq hc hchild hd he (h.pin_lt hc he.outerPin) (hs.pin_lt hd he.innerPin)

/-- Copying one of a part's own wires keeps a state shaped. -/
theorem assign (h : Shaped net id s) (wf : net.Sound) (hc : net.chip? s.chip = some c)
    (hp : c.parts[part]? = some p) (hw : w ∈ p.wires) :
    Shaped net id (State.assign net part w s).2 := by
  obtain ⟨child, hchild, hs⟩ := h.childOrFresh hc (wf.chips _ c hc) hp
  obtain ⟨d, hd⟩ := hs.chip?
  have he : w.Ends d c := Chip.Sound.ends wf hc (Array.mem_of_getElem? hp) (hs.chip_eq ▸ hd) hw
  rw [h.assign_eq wf hc hp hw hchild]
  cases w.direction with
  | drive => exact h.putChild hc hp (hs.takeInner hd he _)
  | sense => exact (h.takeOuter hc he _).putChild hc hp hs

end Shaped

end State

end ChipLogic
