import ChipLogic.Proofs.Chip.Pins
import ChipLogic.Proofs.Hdl.Marks

/-!
# The spans of a definition

A definition keeps the spans of the tree that it was made of, and a gate stands nowhere
(`Definition.allSpans_ofDocument`, `Gate.allSpans_definition`). Later it takes pins with spans of
their own.

A report of a problem stands at a given place. The labels of a few problems point at an earlier chip
or pin of the same name, so the report is as good as the spans of the definitions are
(`Problem.allSpans_report`).
-/

namespace ChipLogic

open Hdl

variable {P : Span → Prop}

/-! ## Problems -/

/-- The earlier places that a problem points at have a property. -/
def Problem.AllSpans (P : Span → Prop) (p : Problem) : Prop :=
  ∀ l ∈ p.labels, P l.span

theorem Problem.allSpans_report {p : Problem} (h : p.AllSpans P) {span : Span} (hs : P span) :
    (p.report span).AllSpans P :=
  ⟨hs, h⟩

/-- Most problems point at no earlier place. -/
theorem Problem.allSpans_of_labels {p : Problem} (h : p.labels = []) : p.AllSpans P := by
  intro l hl
  rw [h] at hl
  cases hl

theorem Problem.span_of_mem_earlier {previous : Span} {message : String} {l : Label}
    (h : l ∈ earlier previous message) : l.span = previous := by
  unfold earlier at h
  split at h
  · rw [List.mem_singleton.1 h]
  · cases h

theorem Problem.allSpans_duplicateChip (name : String) {previous : Span} (h : P previous) :
    (Problem.duplicateChip name previous).AllSpans P :=
  fun _ hl => span_of_mem_earlier hl ▸ h

theorem Problem.allSpans_pinRefused (chip pin : String) {refusal : PinRefusal}
    (h : ∀ previous, refusal = .duplicate previous → P previous) :
    (Problem.pinRefused chip pin refusal).AllSpans P := by
  cases refusal with
  | duplicate previous => exact fun _ hl => span_of_mem_earlier hl ▸ h previous rfl
  | zeroWidth => exact allSpans_of_labels rfl
  | tooWide width => exact allSpans_of_labels rfl

/-! ## Definitions -/

structure Connection.AllSpans (P : Span → Prop) (c : Connection) : Prop where
  inner : P c.inner.span
  outer : P c.outer.span
  span : P c.span

structure Part.AllSpans (P : Span → Prop) (p : Part) : Prop where
  connections : ∀ c ∈ p.connections, c.AllSpans P
  span : P p.span

/-- All spans of a definition have a property. -/
structure Definition.AllSpans (P : Span → Prop) (d : Definition) : Prop where
  span : P d.span
  pins : ∀ p ∈ d.pins, P p.span
  parts : ∀ p ∈ d.parts, p.AllSpans P

variable {Q : Span → Prop}

theorem Connection.AllSpans.mono {c : Connection} (h : c.AllSpans P)
    (hi : ∀ span, P span → Q span) : c.AllSpans Q :=
  ⟨hi _ h.inner, hi _ h.outer, hi _ h.span⟩

theorem Part.AllSpans.mono {p : Part} (h : p.AllSpans P) (hi : ∀ span, P span → Q span) :
    p.AllSpans Q where
  connections c hc := (h.connections c hc).mono hi
  span := hi _ h.span

namespace Definition

variable {d d' : Definition}

theorem AllSpans.mono (h : d.AllSpans P) (hi : ∀ span, P span → Q span) : d.AllSpans Q where
  span := hi _ h.span
  pins p hp := hi _ (h.pins p hp)
  parts p hp := (h.parts p hp).mono hi

theorem AllSpans.push (h : d.AllSpans P) {p : Pin} (hp : P p.span) : (d.push p).AllSpans P := by
  refine ⟨h.span, fun q hq => ?_, h.parts⟩
  rcases Array.mem_push.1 (d.pins_push p ▸ hq) with hq | rfl
  · exact h.pins q hq
  · exact hp

/-- A pin is refused for an earlier one of the definition. -/
theorem AllSpans.previous (h : d.AllSpans P) {p : Pin} {refusal : PinRefusal}
    (hr : d.refusal? p = some refusal) :
    ∀ previous, refusal = .duplicate previous → P previous := by
  rintro previous rfl
  unfold refusal? at hr
  split at hr
  · next i q hfound =>
    cases hr
    exact h.pins q (Array.mem_of_getElem? (of_pinNamed? hfound).1)
  · split at hr
    · cases hr
    · split at hr <;> cases hr

theorem AllSpans.setLink (h : d.AllSpans P) (index : Nat) (link : Link) :
    (d.setLink index link).AllSpans P := by
  refine ⟨h.span, h.pins, fun p hp => ?_⟩
  obtain ⟨i, hi⟩ := Array.mem_iff_getElem?.1 hp
  rw [d.parts_setLink, Array.getElem?_modify] at hi
  split at hi
  · obtain ⟨q, hq, rfl⟩ := Option.map_eq_some_iff.1 hi
    have hspans := h.parts q (Array.mem_of_getElem? hq)
    exact ⟨hspans.connections, hspans.span⟩
  · exact h.parts p (Array.mem_of_getElem? hi)

theorem AllSpans.declare (h : d.AllSpans P) {ps : List Pin} (hps : ∀ p ∈ ps, P p.span) :
    (d.declare ps).1.AllSpans P ∧ AllMarked P (d.declare ps).2 := by
  induction ps generalizing d with
  | nil => exact ⟨h, .nil⟩
  | cons p ps ih =>
    obtain ⟨hp, hrest⟩ := List.forall_mem_cons.1 hps
    unfold Definition.declare
    split
    · next ha =>
      obtain ⟨-, rfl⟩ := addPin_eq_ok_iff.1 ha
      exact ih (h.push hp) hrest
    · next refusal ha =>
      obtain ⟨hd, hfaults⟩ := ih h hrest
      have hreport := Problem.allSpans_report
        (Problem.allSpans_pinRefused d.name p.name (h.previous (addPin_eq_error_iff.1 ha))) hp
      exact ⟨hd, List.forall_mem_cons.2 ⟨hreport, hfaults⟩⟩

theorem allSpans_ofNode {c : ChipNode} (h : c.AllSpans P) :
    (ofNode c).1.AllSpans P ∧ AllMarked P (ofNode c).2 := by
  refine AllSpans.declare ⟨h.nameSpan, fun p hp => ?_, fun p hp => ?_⟩ fun p hp => ?_
  · cases Array.mem_toList_iff.2 hp
  · rw [parts_mk, List.mem_toArray] at hp
    obtain ⟨node, hnode, rfl⟩ := List.mem_map.1 hp
    have hspans := h.parts node hnode
    refine ⟨fun c hc => ?_, hspans.span⟩
    obtain ⟨b, hb, rfl⟩ := List.mem_map.1 hc
    have hb := hspans.bindings b hb
    exact ⟨hb.inner.span, hb.outer.span, hb.span⟩
  · rcases List.mem_append.1 hp with hp | hp
    · obtain ⟨node, hnode, rfl⟩ := List.mem_map.1 hp
      exact h.inputs node hnode
    · obtain ⟨node, hnode, rfl⟩ := List.mem_map.1 hp
      exact h.outputs node hnode

/-- **Definitions have the spans of their document**, and so have the reports on their pins. -/
theorem allSpans_ofDocument {doc : Document} (h : doc.AllSpans P) :
    (∀ d ∈ (ofDocument doc).definitions, d.AllSpans P) ∧ AllMarked P (ofDocument doc).faults := by
  constructor
  · intro d hd
    obtain ⟨built, hbuilt, rfl⟩ := List.mem_map.1 hd
    obtain ⟨c, hc, rfl⟩ := List.mem_map.1 hbuilt
    exact (allSpans_ofNode (h.chips c hc)).1
  · intro fault hfault
    obtain ⟨built, hbuilt, hmem⟩ := List.mem_flatMap.1 hfault
    obtain ⟨c, hc, rfl⟩ := List.mem_map.1 hbuilt
    exact (allSpans_ofNode (h.chips c hc)).2 fault hmem

end Definition

/-- Gates stand nowhere. -/
theorem Gate.allSpans_definition (hP : P .nowhere) (g : Gate) : g.definition.AllSpans P := by
  refine ⟨hP, fun p hp => ?_, fun p hp => by simp at hp⟩
  rw [g.pins_definition, List.mem_toArray] at hp
  rcases List.mem_append.1 hp with hp | hp
  · obtain ⟨name, -, rfl⟩ := List.mem_map.1 hp
    exact hP
  · rw [List.mem_singleton.1 hp]
    exact hP

end ChipLogic
