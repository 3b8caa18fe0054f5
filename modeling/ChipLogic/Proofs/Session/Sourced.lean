import ChipLogic.Proofs.Session.Printed

/-!
# Where chips come from

As long as nobody adds a pin from outside, a chip is one that a text without faults declares, or a
gate (`Session.Sourced`), whatever has been added to it by linking. So each chip that is no gate can
be printed. The part of a chip leads to a chip of its name (`Session.Reachable.titled`).
-/

namespace ChipLogic

namespace Definition

/-- A bare chip that a text declares, or a gate. -/
def Sourced (b : Definition) : Prop :=
  b.Printable ∨ ∃ g, b = (Gate.definition g).bare

/-- The pins of gates have names. -/
theorem isName_of_mem_gate {g : Gate} {p : Pin} (hp : p ∈ g.definition.terminals) :
    Hdl.IsName p.name := by
  have hnames : p.name ∈ ["a", "b", "in", "out"] := by
    revert p
    cases g <;> decide
  have hname : ∀ name ∈ ["a", "b", "in", "out"], name.toList.all Hdl.isWordStart = true ∧
      name.toList ≠ [] ∧ Hdl.Kind.ofWord name.toList = .identifier := by decide
  obtain ⟨hall, hne, hkind⟩ := hname p.name hnames
  obtain ⟨c, cs, he⟩ := List.exists_cons_of_ne_nil hne
  rw [he] at hall
  obtain ⟨hc, hcs⟩ := List.forall_mem_cons.1 (List.all_eq_true.1 hall)
  exact ⟨c, cs, he, hc, fun x hx => Hdl.Piece.isWordChar_of_isWordStart (hcs x hx), hkind⟩

/-- Declared pins have names. -/
theorem Sourced.isName {d : Definition} (h : d.bare.Sourced) {p : Pin} (hp : p ∈ d.terminals) :
    Hdl.IsName p.name := by
  rcases h with h | ⟨g, hg⟩
  · exact h.terminal hp
  · have hmem : p.bare ∈ g.definition.terminals.map Pin.bare := by
      rw [← Definition.map_bare_terminals_of_bare hg]
      exact List.mem_map_of_mem hp
    obtain ⟨q, hq, he⟩ := List.mem_map.1 hmem
    have hname : q.name = p.name := by simpa [Pin.bare] using congrArg Pin.name he
    exact hname ▸ isName_of_mem_gate hq

end Definition

namespace Session

variable {s s' : Session} {id : Nat}

/-- All chips come from texts or are gates. -/
def Sourced (s : Session) : Prop :=
  ∀ id b, s.bare? id = some b → b.Sourced

theorem Sourced.of_bare? (h : s.Sourced) (hb : ∀ id, s'.bare? id = s.bare? id) : s'.Sourced :=
  fun id b hid => h id b (hb id ▸ hid)

theorem Sourced.registers {ds : List Definition} (h : s.Sourced) (hr : Registers ds s s')
    (hd : ∀ d ∈ ds, d.bare.Sourced) : s'.Sourced := by
  obtain ⟨new, hnew, hchips⟩ := hr.chips
  intro id b hb
  rw [bare?, Session.definition?_eq, ← Array.getElem?_toList, hchips, List.getElem?_append] at hb
  split at hb
  · exact h id b (by rw [bare?, Session.definition?_eq, ← Array.getElem?_toList]; exact hb)
  · rw [List.getElem?_map] at hb
    simp only [Option.map_map, Option.map_eq_some_iff] at hb
    obtain ⟨d, hdn, rfl⟩ := hb
    exact hd d (hnew.subset (List.mem_of_getElem? hdn))

/-- A text with a fault leaves the chips alone. -/
theorem chips_loadSource_of_fault {path text : String}
    (h : (Hdl.parse (some s.sources.size) text).faults = [] →
      (Definition.ofDocument (Hdl.parse (some s.sources.size) text).document).faults ≠ []) :
    (s.loadSource path text).2.chips = s.chips := by
  by_cases hp : (Hdl.parse (some s.sources.size) text).faults = []
  · simp [loadSource, hp, h hp, emitAll, chips]
  · simp [loadSource, hp, emitAll, chips]

theorem Sourced.load (h : s.Sourced) (path text : String) : (s.loadSource path text).2.Sourced := by
  by_cases hfault : (Hdl.parse (some s.sources.size) text).faults = [] ∧
      (Definition.ofDocument (Hdl.parse (some s.sources.size) text).document).faults = []
  · refine h.registers (registers_loadSource s path text).1 fun d hd => .inl ?_
    obtain ⟨x, hx, rfl⟩ := List.mem_map.1 hd
    obtain ⟨node, hnode, rfl⟩ := List.mem_map.1 hx
    have hf := List.flatMap_eq_nil_iff.1 hfault.2 _ hx
    exact (Definition.printable_ofNode (Hdl.isName_parse _ text node hnode) hf).bare
  · refine h.of_bare? fun id => ?_
    rw [bare?, bare?, Session.definition?_eq, Session.definition?_eq,
      chips_loadSource_of_fault fun hp hb => hfault ⟨hp, hb⟩]

theorem Sourced.move (h : s.Sourced) (hm : Move s s') : s'.Sourced := by
  cases hm with
  | errand he =>
    cases he with
    | load path known => exact h.load path _
    | gate g =>
      exact h.registers (registers_register s _) (List.forall_mem_singleton.2 (.inr ⟨g, rfl⟩))
    | remember missing asked => exact h
    | emitAll other => exact h
    | net _ kind => exact h.of_bare? (bare?_addPinTo kind)
  | circle name span => exact h
  | setStatus a status => exact h.of_bare? fun id => by rw [bare?, bare?, definition?_setStatus]
  | setLink part named =>
    obtain ⟨d, hd, -⟩ := definition?_of_part? part
    exact h.of_bare? (bare?_modifyDefinition hd (d.bare_setLink _ _))

theorem Sourced.moves (h : s.Sourced) (hm : Moves s s') : s'.Sourced := by
  induction hm with
  | refl => exact h
  | tail _ hm ih => exact ih.move hm

/-- **All chips come from texts or are gates**, as long as nobody adds a pin. -/
theorem lasting_sourced : Lasting (fun _ => False) Sourced where
  remount _ _ h := h
  load _ name text h := h.load name text
  resolve s name span h := h.moves (errands_resolve s name span).moves
  addPin _ _ _ hfalse := hfalse.elim
  emit _ _ h := h
  takeAll _ h := h
  link s id h := h.moves (moves_link s id)

end Session

end ChipLogic
