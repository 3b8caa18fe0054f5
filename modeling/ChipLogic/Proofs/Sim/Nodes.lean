import ChipLogic.Proofs.Sim.Converge

/-!
# The nodes of a state

A state is a tree: each node is the state of a part inside a part, and so on (`State.node?`). Here
is what a reached state looks like from outside, at every node and in numbers: a node has a cell for
each pin of its chip, with a value below two to the power of the pin's width, and a slot for each
part, which is empty or holds a state of the part's chip (`State.Matches`).

Writing from outside masks a value to the pin. Copying a wire does not, and an evaluation that fails
stops in the middle of a pass. The values are in range nevertheless, because in a frozen netlist
each wire joins windows of one width that lie inside their pins.

**Theorem (`State.Reached.node_matches`).** In a frozen netlist every node of a reached state
matches its chip.
-/

namespace ChipLogic

theorem Narrow.toNat_lt {width : Nat} {cell : UInt64} (h : Narrow width cell) :
    cell.toNat < 2 ^ width :=
  Nat.lt_pow_two_of_testBit _ h

namespace State

variable {net : Netlist} {s t : State} {id : Nat}

/-- The state at the end of a path of parts, if it has been made. -/
def node? : List Nat → State → Option State
  | [], s => some s
  | part :: path, s => (s.child? part).bind (node? path)

/-- The state has the cells and slots of its chip, and the values fit. -/
structure Matches (net : Netlist) (s : State) (c : Chip) : Prop where
  chip : net.chip? s.chip = some c
  cells : s.cells.size = c.pins.size
  slots : s.children.size = c.parts.size
  /-- A state in a slot is one of the part's chip. -/
  child : ∀ part child, s.child? part = some child →
    ∃ p, c.parts[part]? = some p ∧ child.chip = p.chip
  value : ∀ pin p, c.pins[pin]? = some p → (s.get pin).toNat < 2 ^ p.width

theorem Shaped.child? (h : Shaped net id s) {c : Chip} (hc : net.chip? s.chip = some c) {part : Nat}
    {child : State} (hchild : s.child? part = some child) :
    ∃ p, c.parts[part]? = some p ∧ Shaped net p.chip child := by
  have hslot := children_of_child? hchild
  have hlt : part < c.parts.size := h.slots_size hc ▸ (Array.getElem?_eq_some_iff.1 hslot).1
  have hp := Array.getElem?_eq_getElem hlt
  exact ⟨_, hp, h.inSlot hc hp hslot⟩

theorem Shaped.matches (h : Shaped net id s) : ∃ c, s.Matches net c := by
  obtain ⟨c, hc⟩ := h.chip?
  refine ⟨c, hc, h.cells_size hc, h.slots_size hc, fun part child hchild => ?_, fun pin p hp => ?_⟩
  · obtain ⟨p, hp, hs⟩ := h.child? hc hchild
    exact ⟨p, hp, hs.chip_eq⟩
  · exact (h.narrow hc hp).toNat_lt

/-- Every node of a shaped state is shaped. -/
theorem Shaped.node? {path : List Nat} (h : Shaped net id s) (ht : s.node? path = some t) :
    ∃ id', Shaped net id' t := by
  induction path generalizing s id with
  | nil =>
    cases ht
    exact ⟨id, h⟩
  | cons part path ih =>
    obtain ⟨c, hc⟩ := h.chip?
    obtain ⟨child, hchild, hnode⟩ := Option.bind_eq_some_iff.1 ht
    obtain ⟨p, -, hs⟩ := h.child? hc hchild
    exact ih hs hnode

/-- **Every node of a reached state matches its chip.** -/
theorem Reached.node_matches {session : Session} (hsession : session.Reachable) {top : Nat}
    (hf : (session.freeze top).1 = .ok (some net)) (h : Reached net id s) :
    s.chip = id ∧ ∀ path t, s.node? path = some t → ∃ c, t.Matches net c := by
  have hs := h.shaped (hsession.sound.netlist_sound hf)
  refine ⟨hs.chip_eq, fun path t ht => ?_⟩
  obtain ⟨id', hs'⟩ := hs.node? ht
  exact hs'.matches

/-- An evaluation that failed has made states two levels down. -/
theorem Reached.node_matches_crossed : ∃ t c,
    (crossedStart.evaluate Session.crossedNet ⟨1, 16⟩).2.node? [0, 0] = some t ∧
      t.Matches Session.crossedNet c := by
  have hmade : ((crossedStart.evaluate Session.crossedNet ⟨1, 16⟩).2.node? [0, 0]).isSome := by
    decide +kernel
  obtain ⟨t, ht⟩ := Option.isSome_iff_exists.1 hmade
  have hreached := reached_crossedStart.call (.evaluate ⟨1, 16⟩)
  have hnodes := hreached.node_matches Session.reachable_crossed Session.freeze_crossed
  obtain ⟨c, hc⟩ := hnodes.2 _ t ht
  exact ⟨t, c, ht, hc⟩

end State

end ChipLogic
