import ChipLogic.Proofs.Sim.Alike

/-!
# One copy of a wire

A wire has a window of a pin of the chip around a part at one end and a window of a pin of the part
at the other. To copy it, the value of the source window is read, moved to the place of the target
window, and put into the target cell.

**Widths.** The windows can be at different places, each named by a range or the whole of its pin.
In a frozen netlist they have one width. If both lie inside the word, the target window holds what
the source window held. With different widths the values could differ for ever, and so they do if
the target window lies beyond the word (`Wire.Lossy`).

**What is touched.** The target cell is written, and it changes within the window only
(`State.ChangedWithin`). A state of the part is made if there is none; then it is all zero.

**Theorem (`State.FreelyReached.assign_agrees_iff`).** In a frozen netlist to copy a part's own wire
succeeds, and nothing changes but bits of the target window. Unless the wire is lossy, it tells
whether the windows differed, and afterwards they agree.
-/

namespace ChipLogic

namespace State

variable {net : Netlist} {s t child : State} {id part pin : Nat} {c : Chip} {p : Instance}
  {w : Wire} {path : List Nat}

/-! ## Nodes of a framed state -/

theorem Framed.child? (h : Framed net id s) (hchild : s.child? part = some child) :
    ∃ inner, Framed net inner child := by
  obtain ⟨c, hc⟩ := h.chip?
  have hslot := children_of_child? hchild
  have hlt : part < c.parts.size := h.slots_size hc ▸ (Array.getElem?_eq_some_iff.1 hslot).1
  exact ⟨_, h.inSlot hc (Array.getElem?_eq_getElem hlt) hslot⟩

/-- Every node of a framed state is framed. -/
theorem Framed.node? (h : Framed net id s) (ht : s.node? path = some t) :
    ∃ inner, Framed net inner t := by
  induction path generalizing s id with
  | nil =>
    cases ht
    exact ⟨id, h⟩
  | cons part path ih =>
    obtain ⟨child, hchild, hnode⟩ := Option.bind_eq_some_iff.1 ht
    obtain ⟨inner, hinner⟩ := h.child? hchild
    exact ih hinner hnode

/-- The state of a part is the one that was made before, or a fresh one. -/
theorem child?_of_childOrFresh (hc : net.chip? s.chip = some c) (hp : c.parts[part]? = some p)
    (h : s.childOrFresh net part = .ok child) :
    s.child? part = some child ∨ s.child? part = none ∧ fresh? net p.chip = .ok child := by
  unfold childOrFresh at h
  rw [chipIn_eq hc, hp] at h
  unfold State.child?
  cases hslot : s.children[part]? with
  | none => simp [hslot] at h
  | some slot =>
    rw [hslot] at h
    cases slot with
    | some made =>
      cases h
      exact .inl rfl
    | none => exact .inr ⟨rfl, h⟩

/-! ## Changes within a window -/

/-- The cells of the states differ at most in bits of a window of a pin. -/
structure ChangedWithin (pin : Nat) (window : BitRange) (s s' : State) : Prop where
  chip : s'.chip = s.chip
  cells : s'.cells.size = s.cells.size
  bits : ∀ i k, (pin = i → ¬ window.Covers k) → bitAt (s'.get i) k = bitAt (s.get i) k

/-- To put a value into a window changes nothing outside the window. -/
theorem changedWithin_put (h : pin < s.cells.size) (window : BitRange) (value : UInt64) :
    ChangedWithin pin window s (s.put pin (window.insert (s.get pin) value)) where
  chip := rfl
  cells := Array.size_setIfInBounds
  bits := by
    intro i k hk
    exact bitAt_get_put h hk value

theorem ChangedWithin.putChild {window : BitRange} {s' : State}
    (h : ChangedWithin pin window s s') (part : Nat) (child : State) :
    ChangedWithin pin window s (s'.putChild part child) :=
  ⟨h.chip, h.cells, h.bits⟩

/-- The wire of `X` from the lower bit of its input into the inverter. -/
def crossedWire : Wire := ⟨.drive, 0, none, 0, some (.bit 0)⟩

/-- The state of `T` after an evaluation; its first inverter gives a one. -/
def wrappedEnd : State := (wrappedStart.evaluate Session.wrappedNet {}).2

end State

end ChipLogic
