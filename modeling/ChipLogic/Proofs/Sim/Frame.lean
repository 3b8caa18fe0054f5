import ChipLogic.Proofs.Sim.Calls

/-!
# The frame of a state

Whoever holds a state can copy any wire to a part, not only one that the part has. That can put bits
where a pin has no room for them. What it cannot do is to change how many cells there are, or which
chips the parts have: the **frame** of a state (`State.Framed`), which is its shape without the
values.

Every operation keeps the frame. In a frame a part's own wires have both their ends, so copying one
of them does not fail (`State.Framed.exists_assign_ok`).
-/

namespace ChipLogic

namespace State

variable {net : Netlist} {s child : State} {id part : Nat} {c : Chip} {p : Instance} {w : Wire}

/-- The state has the cells and slots of the chip at `id`, and so on for the parts. -/
inductive Framed (net : Netlist) : Nat → State → Prop
  | intro {id : Nat} {s : State} {c : Chip} (here : s.chip = id) (chip : net.chip? id = some c)
      (cells : s.cells.size = c.pins.size) (slots : s.children.size = c.parts.size)
      (below : ∀ (i : Nat) (p : Instance) child, c.parts[i]? = some p →
        s.children[i]? = some (some child) → Framed net p.chip child) : Framed net id s

/-- A shape is a frame with values in it. -/
theorem Shaped.framed (h : Shaped net id s) : Framed net id s := by
  induction h with
  | intro here chip cells slots _ _ ih => exact .intro here chip cells slots ih

namespace Framed

theorem chip_eq (h : Framed net id s) : s.chip = id := by
  cases h with
  | intro here => exact here

theorem chip? (h : Framed net id s) : ∃ c, net.chip? id = some c := by
  cases h with
  | intro _ chip => exact ⟨_, chip⟩

theorem cells_size (h : Framed net id s) (hc : net.chip? id = some c) :
    s.cells.size = c.pins.size := by
  cases h with
  | intro _ chip cells =>
    rw [chip] at hc
    cases hc
    exact cells

theorem slots_size (h : Framed net id s) (hc : net.chip? id = some c) :
    s.children.size = c.parts.size := by
  cases h with
  | intro _ chip _ slots =>
    rw [chip] at hc
    cases hc
    exact slots

theorem part_lt (h : Framed net id s) (hc : net.chip? id = some c) (hp : c.parts[part]? = some p) :
    part < s.children.size := by
  rw [h.slots_size hc]
  exact (Array.getElem?_eq_some_iff.1 hp).1

theorem inSlot (h : Framed net id s) (hc : net.chip? id = some c) (hp : c.parts[part]? = some p)
    (hs : s.children[part]? = some (some child)) : Framed net p.chip child := by
  cases h with
  | intro _ chip _ _ below =>
    rw [chip] at hc
    cases hc
    exact below part p child hp hs

/-- The values are of no account. -/
theorem of_cells (h : Framed net id s) {cells : Array UInt64} (hsize : cells.size = s.cells.size) :
    Framed net id { s with cells } := by
  cases h with
  | intro here chip cells slots below => exact .intro here chip (hsize.trans cells) slots below

theorem putChild (h : Framed net id s) (hc : net.chip? id = some c) (hp : c.parts[part]? = some p)
    (hchild : Framed net p.chip child) : Framed net id (s.putChild part child) := by
  have hlt := h.part_lt hc hp
  cases h with
  | intro here chip cells slots below =>
    rw [chip] at hc
    cases hc
    refine .intro here chip cells (Array.size_setIfInBounds.trans slots)
      fun i q other hq hother => ?_
    rw [getElem?_putChild hlt] at hother
    split at hother
    · next hi =>
      subst hi
      rw [hp] at hq
      cases hq
      cases hother
      exact hchild
    · exact below i q other hq hother

/-- A part has a state, fresh if nobody asked for it before. -/
theorem childOrFresh (h : Framed net id s) (wf : net.Sound) (hc : net.chip? id = some c)
    (hp : c.parts[part]? = some p) :
    ∃ child, s.childOrFresh net part = .ok child ∧ Framed net p.chip child := by
  have hlt := h.part_lt hc hp
  unfold State.childOrFresh
  rw [chipIn_eq (h.chip_eq ▸ hc), hp, Array.getElem?_eq_getElem hlt]
  dsimp only
  cases hs : s.children[part] with
  | some child =>
    refine ⟨child, rfl, h.inSlot hc hp ?_⟩
    rw [Array.getElem?_eq_getElem hlt, hs]
  | none =>
    obtain ⟨d, hd, -⟩ := (wf.chips _ c hc).parts p (Array.mem_of_getElem? hp)
    cases hf : fresh? net p.chip with
    | ok child => exact ⟨child, rfl, (shaped_fresh hf).framed⟩
    | error e =>
      rw [fresh?, hd] at hf
      cases hf

/-- The state of a part is that of a part that is there. -/
theorem of_childOrFresh (h : Framed net id s) (wf : net.Sound)
    (hchild : s.childOrFresh net part = .ok child) :
    ∃ c p, net.chip? id = some c ∧ c.parts[part]? = some p ∧ Framed net p.chip child := by
  obtain ⟨c, hc⟩ := h.chip?
  obtain ⟨p, hp⟩ := part_of_childOrFresh (h.chip_eq ▸ hc) hchild
  obtain ⟨child', hchild', hframe⟩ := h.childOrFresh wf hc hp
  rw [hchild] at hchild'
  cases hchild'
  exact ⟨c, p, hc, hp, hframe⟩

/-! ## Operations -/

theorem write (h : Framed net id s) (pin : Nat) (value : UInt64) :
    Framed net id (s.write pin value).2 := by
  unfold State.write
  split
  · exact h
  · split
    · exact h
    · exact h.of_cells Array.size_setIfInBounds

theorem set (h : Framed net id s) (pin : Nat) (value : UInt64) :
    Framed net id (s.set net pin value).2 := by
  unfold State.set
  split
  · exact h.write _ _
  · exact h

theorem setRange (h : Framed net id s) (pin : Nat) (value : UInt64) (range : BitRange) :
    Framed net id (s.setRange net pin value range).2 := by
  unfold State.setRange
  split
  · exact h.write _ _
  · exact h

theorem trySet (h : Framed net id s) (pin : Nat) (value : UInt64) :
    Framed net id (s.trySet net pin value).2 := by
  unfold State.trySet
  split
  · exact h.set pin value
  · exact h

theorem setNamed (h : Framed net id s) (name : String) (value : UInt64) :
    Framed net id (s.setNamed net name value).2 := by
  unfold State.setNamed
  split
  · exact h
  · dsimp only
    split
    · exact h
    · exact h.set _ value

theorem reset (h : Framed net id s) : Framed net id s.reset := by
  cases h with
  | intro here chip cells slots below =>
    refine .intro here chip (Array.size_map.trans cells) (Array.size_map.trans slots)
      fun i p child _ hchild => ?_
    unfold State.reset at hchild
    rw [Array.getElem?_map] at hchild
    cases hi : s.children[i]? <;> rw [hi] at hchild <;> cases hchild

/-- Whatever the wire, copying it keeps the frame. -/
theorem assign (h : Framed net id s) (wf : net.Sound) (part : Nat) (w : Wire) :
    Framed net id (State.assign net part w s).2 := by
  unfold State.assign
  split
  · exact h
  · next outerWindow _ =>
    dsimp only
    split
    · exact h
    · next child hchild =>
      obtain ⟨c, p, hc, hp, hframe⟩ := h.of_childOrFresh wf hchild
      split
      · exact h.putChild hc hp hframe
      · split
        · exact h.putChild hc hp hframe
        · split
          · exact h.putChild hc hp (hframe.write _ _)
          · exact (h.write _ _).putChild hc hp hframe

/-- Copying one of a part's own wires does not fail. -/
theorem exists_assign_ok (h : Framed net id s) (wf : net.Sound) (hc : net.chip? id = some c)
    (hp : c.parts[part]? = some p) (hw : w ∈ p.wires) :
    ∃ changed, (State.assign net part w s).1 = .ok changed := by
  have hc' : net.chip? s.chip = some c := h.chip_eq ▸ hc
  obtain ⟨child, hchild, hframe⟩ := h.childOrFresh wf hc hp
  obtain ⟨d, hd⟩ := hframe.chip?
  have hd' : net.chip? child.chip = some d := hframe.chip_eq ▸ hd
  have he : w.Ends d c := Chip.Sound.ends wf hc (Array.mem_of_getElem? hp) hd hw
  unfold State.assign
  rw [window_outer hc' he, hchild]
  dsimp only
  rw [window_inner hd' he]
  dsimp only
  split
  · exact ⟨false, rfl⟩
  · cases w.direction with
    | drive => exact ⟨_, rfl⟩
    | sense => exact ⟨_, rfl⟩

end Framed

end State

end ChipLogic
