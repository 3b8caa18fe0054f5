import ChipLogic.Proofs.Chip.Derived
import ChipLogic.Proofs.Chip.Pins
import ChipLogic.Proofs.Hdl.Spelling

/-!
# Building chips from what was printed

A chip built from a text without faults has just the pins that were declared, so it can be printed
(`Definition.printable_ofNode`). Built from its own text, it is the same bare chip again
(`Definition.ofNode_of_bare_eq`).
-/

namespace ChipLogic

namespace Definition

/-! ## Declaring pins -/

theorem declare_of_faultless {d : Definition} {ps : List Pin} (h : (d.declare ps).2 = []) :
    (d.declare ps).1 = { d with pinTable := ps.foldl PinTable.push d.pinTable } := by
  induction ps generalizing d with
  | nil => simp [declare]
  | cons p ps ih =>
    unfold declare at h ⊢
    cases ha : d.addPin p with
    | error r => simp [ha] at h
    | ok d' =>
      rw [ha] at h
      obtain ⟨-, rfl⟩ := addPin_eq_ok_iff.1 ha
      exact ih h

/-- Pins that make a sound table are all taken. -/
theorem declare_faultless {d : Definition} {ps : List Pin}
    (hkeys : ((d.pins.toList ++ ps).map Pin.key).Nodup)
    (hwidth : ∀ p ∈ ps, 0 < p.width ∧ p.width ≤ maxWidth) : (d.declare ps).2 = [] := by
  induction ps generalizing d with
  | nil => rfl
  | cons p ps ih =>
    obtain ⟨hp, hps⟩ := List.forall_mem_cons.1 hwidth
    have hnew : ∀ q ∈ d.pins, q.key ≠ p.key := by
      intro q hq
      rw [List.map_append, List.nodup_append] at hkeys
      exact hkeys.2.2 q.key (List.mem_map_of_mem (Array.mem_toList_iff.2 hq)) p.key
        List.mem_cons_self
    have ha : d.addPin p = .ok (d.push p) :=
      addPin_eq_ok_iff.2 ⟨refusal?_eq_none_iff.2 ⟨hnew, hp⟩, rfl⟩
    rw [declare, ha]
    exact ih (by simpa using hkeys) hps

theorem ofNode_of_faultless {node : Hdl.ChipNode} (h : (ofNode node).2 = []) :
    (ofNode node).1 =
      { name := node.name, span := node.nameSpan, pinTable := .ofPins node.pins.toArray
        partSlots := numbered (node.parts.map Hdl.PartNode.part).toArray } := by
  rw [ofNode, declare_of_faultless h]
  rfl

end Definition

/-! ## Built chips are printable -/

namespace Hdl

theorem RefNode.Plain.printable {r : RefNode} (h : r.Plain IsName) : r.reference.Printable := by
  refine ⟨h.1, fun range hr => ?_⟩
  obtain ⟨node, hnode, rfl⟩ := Option.map_eq_some_iff.1 hr
  exact h.2 node hnode

theorem PartNode.Plain.printable {p : PartNode} (h : p.Plain IsName) : p.part.Printable := by
  refine ⟨h.1, fun c hc => ?_⟩
  obtain ⟨b, hb, rfl⟩ := List.mem_map.1 hc
  exact ⟨(h.2 b hb).1.printable, (h.2 b hb).2.printable⟩

/-- The names in the chips of a text are names. -/
theorem isName_parse (file : Option Nat) (text : String) :
    ∀ node ∈ (parse file text).document.chips, node.Plain IsName := by
  refine plain_items fun t ht hk => ?_
  obtain ⟨word, hword, hname⟩ := spells_lex file text t ht hk
  exact hname ▸ Piece.isName_of_mem_split hword

variable {kind : PinKind} {q : Pin → Bool}

theorem filter_pins_eq_self (nodes : List PinNode) (h : ∀ n : PinNode, q (n.pin kind) = true) :
    (nodes.map (·.pin kind)).filter q = nodes.map (·.pin kind) := by
  simp [h]

theorem filter_pins_eq_nil (nodes : List PinNode) (h : ∀ n : PinNode, q (n.pin kind) = false) :
    (nodes.map (·.pin kind)).filter q = [] := by
  simp [h]

theorem ChipNode.pinsOf_input (c : ChipNode) :
    c.pins.filter (·.kind == .input) = c.inputs.map (·.pin .input) := by
  rw [pins, List.filter_append, filter_pins_eq_self _ fun _ => rfl,
    filter_pins_eq_nil _ fun _ => rfl, List.append_nil]

theorem ChipNode.pinsOf_output (c : ChipNode) :
    c.pins.filter (·.kind == .output) = c.outputs.map (·.pin .output) := by
  rw [pins, List.filter_append, filter_pins_eq_nil _ fun _ => rfl,
    filter_pins_eq_self _ fun _ => rfl, List.nil_append]

theorem ChipNode.terminals_pins (c : ChipNode) : c.pins.filter Pin.isTerminal = c.pins := by
  rw [pins, List.filter_append, filter_pins_eq_self _ fun _ => rfl,
    filter_pins_eq_self _ fun _ => rfl]

end Hdl

namespace Definition

theorem printable_ofNode {node : Hdl.ChipNode} (h : node.Plain Hdl.IsName)
    (hf : (ofNode node).2 = []) : (ofNode node).1.Printable := by
  rw [ofNode_of_faultless hf]
  refine ⟨rfl, h.name, fun p hp _ => ?_, ?_, fun p hp => ?_⟩
  · rw [pins_mk, List.mem_toArray] at hp
    rcases List.mem_append.1 hp with hp | hp
    · obtain ⟨n, hn, rfl⟩ := List.mem_map.1 hp
      exact (h.inputs n hn).1
    · obtain ⟨n, hn, rfl⟩ := List.mem_map.1 hp
      exact (h.outputs n hn).1
  · simp only [terminals, pinsOf, pins_mk]
    rw [node.terminals_pins, node.pinsOf_input, node.pinsOf_output]
    rfl
  · rw [parts_mk, List.mem_toArray] at hp
    obtain ⟨n, hn, rfl⟩ := List.mem_map.1 hp
    exact (h.parts n hn).printable

/-! ## Built again -/

theorem map_pin_of_bare_eq {nodes : List Hdl.PinNode} {ps : List Pin} {kind : PinKind}
    (h : nodes.map Hdl.PinNode.bare = ps.map Pin.node) (hk : ∀ p ∈ ps, p.kind = kind) :
    (nodes.map (·.pin kind)).map Pin.bare = ps.map Pin.bare := by
  have hnodes : (nodes.map (·.pin kind)).map Pin.bare =
      (nodes.map Hdl.PinNode.bare).map (·.pin kind) := by
    rw [List.map_map, List.map_map]
    rfl
  rw [hnodes, h, List.map_map]
  refine List.map_congr_left fun p hp => ?_
  -- the width is one bit if it is not written
  by_cases hw : p.width = 1 <;>
    simp [Pin.node, Pin.bare, Hdl.PinNode.pin, Hdl.PinNode.bits, hk p hp, hw]

theorem map_part_of_bare_eq {nodes : List Hdl.PartNode} {ps : List Part}
    (h : nodes.map Hdl.PartNode.bare = ps.map Part.node) :
    (nodes.map Hdl.PartNode.part).map Part.bare = ps.map Part.bare := by
  have hnodes : (nodes.map Hdl.PartNode.part).map Part.bare =
      (nodes.map Hdl.PartNode.bare).map Hdl.PartNode.part := by
    simp [Hdl.PartNode.part, Part.bare, Hdl.PartNode.bare, Hdl.BindingNode.connection,
      Hdl.BindingNode.bare, Connection.bare, Hdl.RefNode.reference, Hdl.RefNode.bare,
      Reference.bare, Hdl.RangeNode.bare, Function.comp_def]
  rw [hnodes, h, List.map_map]
  refine List.map_congr_left fun p _ => ?_
  simp [Part.node, Part.bare, Hdl.PartNode.part, Connection.node, Connection.bare,
    Hdl.BindingNode.connection, Reference.node, Reference.bare, Hdl.RefNode.reference,
    Function.comp_def]

/-- **A chip is built again from its own text.** -/
theorem ofNode_of_bare_eq {node : Hdl.ChipNode} {d : Definition} (h : node.bare = d.node)
    (hd : d.Printable) (hs : Pins.Sound d.pins) :
    (ofNode node).2 = [] ∧ (ofNode node).1.bare = d.bare := by
  have hpins : node.pins.map Pin.bare = d.terminals.map Pin.bare := by
    rw [hd.order, Hdl.ChipNode.pins, List.map_append, List.map_append,
      map_pin_of_bare_eq (congrArg Hdl.ChipNode.inputs h)
        fun p hp => eq_of_beq (List.mem_filter.1 hp).2,
      map_pin_of_bare_eq (congrArg Hdl.ChipNode.outputs h)
        fun p hp => eq_of_beq (List.mem_filter.1 hp).2]
  have hkeys : node.pins.map Pin.key = d.terminals.map Pin.key := by
    have := congrArg (List.map Pin.key) hpins
    rwa [List.map_map, List.map_map] at this
  have hfaultless : (ofNode node).2 = [] := by
    refine declare_faultless ?_ fun p hp => ?_
    · rw [show (pins _).toList = [] from rfl, List.nil_append, hkeys]
      exact (List.filter_sublist.map _).nodup hs.nodup
    · have hb := List.mem_map_of_mem (f := Pin.bare) hp
      rw [hpins] at hb
      obtain ⟨q, hq, he⟩ := List.mem_map.1 hb
      have hw : q.width = p.width := by simpa [Pin.bare] using congrArg Pin.width he
      have hq := Array.mem_toList_iff.1 (List.mem_filter.1 hq).1
      exact hw ▸ ⟨hs.width_pos q hq, hs.width_le q hq⟩
  refine ⟨hfaultless, ?_⟩
  have hparts : (node.parts.map Hdl.PartNode.part).map Part.bare = (d.parts.map Part.bare).toList := by
    rw [Array.toList_map]
    exact map_part_of_bare_eq (congrArg Hdl.ChipNode.parts h)
  have hname : node.name = d.name := congrArg Hdl.ChipNode.name h
  rw [ofNode_of_faultless hfaultless]
  simp only [bare, terminals, pins_mk, parts_mk, node.terminals_pins, hpins, List.map_toArray, hparts,
    hname, hd.gate]

end Definition

end ChipLogic
