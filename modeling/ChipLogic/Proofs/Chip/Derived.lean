import ChipLogic.Proofs.Chip.Pieces
import ChipLogic.Proofs.Hdl.Accepts

/-!
# Printed chips are derived by the grammar

The words of a printed construct are derived for the bare node of the construct, so the text of a
printable chip declares the node of this chip (`Definition.declares_render`) and is read back:
**nothing but this chip stands in it** (`Definition.parse_render`).
-/

namespace ChipLogic

open Hdl Hdl.Piece

/-! ## Nodes of what is printed -/

def Pin.node (p : Pin) : PinNode :=
  ⟨p.name, if p.width = 1 then none else some p.width, .nowhere⟩

def Reference.node (r : Reference) : RefNode :=
  ⟨r.name, r.range.map fun range => ⟨range.first, range.last, .nowhere⟩, .nowhere⟩

def Connection.node (c : Connection) : BindingNode := ⟨c.inner.node, c.outer.node, .nowhere⟩

def Part.node (p : Part) : PartNode := ⟨p.chip, p.connections.map Connection.node, .nowhere⟩

/-- The inputs, outputs and parts of a chip, without the places. -/
def Definition.node (d : Definition) : ChipNode :=
  ⟨d.name, .nowhere, (d.pinsOf .input).map Pin.node, (d.pinsOf .output).map Pin.node,
    d.parts.toList.map Part.node, .nowhere⟩

/-! ## Derivations -/

/-- A printed number is a numeral. -/
theorem isNumber_repr {n : Nat} (h : n < UInt32.size) :
    IsNumber (String.ofList n.repr.toList) n := by
  rw [String.ofList_toList]
  refine ⟨?_, fun c hc => ?_, ?_, h⟩ <;> rw [Nat.toList_repr] at *
  · exact Nat.toDigits_ne_nil
  · exact Nat.isDigit_of_mem_toDigits (by decide) (by decide) hc
  · exact Nat.ofDigitChars_ten_toDigits

theorem words_word (name : String) (ps : List Piece) :
    words (word name :: ps) = (.identifier, name) :: words ps := by
  show (Kind.identifier, String.ofList name.toList) :: words ps = _
  rw [String.ofList_toList]

theorem Pin.isPin_pieces {p : Pin} (h : p.width < UInt32.size) : IsPin (words p.pieces) p.node := by
  rw [pieces, words_word]
  refine .mk ?_
  split
  · exact .none
  · exact .some (isNumber_repr h)

theorem Reference.isRef_pieces {r : Reference} (h : r.Printable) :
    IsRef (words r.pieces) r.node := by
  rw [pieces, words_word]
  refine .mk ?_
  cases hr : r.range with
  | none => exact .none
  | some range =>
    obtain ⟨hfirst, hlast⟩ := h.2 range hr
    show IsRange (words range.pieces) (some ⟨range.first, range.last, .nowhere⟩)
    unfold BitRange.pieces
    split
    · next hsame =>
      rw [← hsame]
      exact .bit (isNumber_repr hfirst)
    · exact .bits (isNumber_repr hfirst) (isNumber_repr hlast)

theorem Connection.isBinding_pieces {c : Connection} (h : c.Printable) :
    IsBinding (words c.pieces) c.node := by
  rw [pieces, words_append]
  exact .mk (Reference.isRef_pieces h.1) (Reference.isRef_pieces h.2)

section

variable {α β : Type} {P : List Word → β → Prop} {f : α → List Piece} {g : α → β} {xs : List α}

theorem listed_pieces (hne : xs ≠ []) (h : ∀ x ∈ xs, P (words (f x)) (g x)) :
    Listed P (words (listed f xs)) (xs.map g) := by
  fun_induction listed f xs with
  | case1 => exact absurd rfl hne
  | case2 x => exact .one (h x (List.mem_singleton_self x))
  | case3 x y ys ih =>
    obtain ⟨hx, hys⟩ := List.forall_mem_cons.1 h
    rw [words_append]
    exact .more hx (ih (List.cons_ne_nil _ _) hys)

theorem star_pieces (h : ∀ x ∈ xs, P (words (f x)) (g x)) :
    Star P (words (xs.flatMap f)) (xs.map g) := by
  induction xs with
  | nil => exact .nil
  | cons x xs ih =>
    obtain ⟨hx, hxs⟩ := List.forall_mem_cons.1 h
    rw [List.flatMap_cons, words_append]
    exact .cons hx (ih hxs)

end

theorem Part.isPart_pieces {p : Part} (h : p.Printable) : IsPart (words p.pieces) p.node := by
  have harguments : IsArguments (words (listed Connection.pieces p.connections))
      (p.connections.map Connection.node) := by
    by_cases hne : p.connections = []
    · rw [hne]
      exact .none
    · exact .some (listed_pieces hne fun c hc => Connection.isBinding_pieces (h.2 c hc))
  have hwords : words p.pieces = (.identifier, p.chip) :: (.leftParen, "(") ::
      (words (listed Connection.pieces p.connections) ++
        [(.rightParen, ")"), (.semicolon, ";")]) := by
    rw [pieces, words_append, words_word]
    exact congrArg (fun ws => _ :: _ :: ws) (words_append _ _)
  rw [hwords]
  exact .mk harguments

/-- A list of pins is printed as one section, or as none if it is empty. -/
theorem exists_star_sectionPieces {kind : Kind} {make : List PinNode → Sections}
    (hsection : ∀ {ws ps a b}, Listed IsPin ws ps →
      IsSection ((kind, a) :: (ws ++ [(.semicolon, b)])) (make ps))
    (hempty : make [] = {}) {ps : List Pin} (h : ∀ p ∈ ps, p.width < UInt32.size)
    (keyword : String) :
    ∃ ss, Star IsSection (words (sectionPieces kind keyword ps)) ss ∧
      ss.flatMap Sections.inputs = (make (ps.map Pin.node)).inputs ∧
      ss.flatMap Sections.outputs = (make (ps.map Pin.node)).outputs := by
  cases ps with
  | nil => exact ⟨[], .nil, by simp [hempty], by simp [hempty]⟩
  | cons p ps =>
    have hlisted : Listed IsPin (words (listed Pin.pieces (p :: ps))) ((p :: ps).map Pin.node) :=
      listed_pieces (List.cons_ne_nil p ps) fun q hq => Pin.isPin_pieces (h q hq)
    have hwords : words (sectionPieces kind keyword (p :: ps)) =
        (kind, String.ofList keyword.toList) ::
          (words (listed Pin.pieces (p :: ps)) ++ [(.semicolon, ";")]) :=
      congrArg _ (words_append _ _)
    rw [hwords, ← List.append_nil (_ :: _)]
    exact ⟨_, .cons (hsection hlisted) .nil, List.append_nil _, List.append_nil _⟩

namespace Definition

variable {d : Definition}

theorem words_pieces (d : Definition) : words d.pieces =
    (.chip, "CHIP") :: (.identifier, d.name) :: (.leftBrace, "\x7b") ::
      (words (sectionPieces .input "IN" (d.pinsOf .input)) ++
          words (sectionPieces .output "OUT" (d.pinsOf .output)) ++
        ((.parts, "PARTS") :: (.colon, ":") :: words (d.parts.toList.flatMap Part.pieces) ++
          [(.rightBrace, "\x7d")])) := by
  have hbody : words (indent ++ (.token .parts "PARTS".toList :: mark .colon ':' :: newline ::
      (d.parts.toList.flatMap Part.pieces ++ [mark .rightBrace '\x7d', newline]))) =
        (.parts, "PARTS") :: (.colon, ":") ::
          (words (d.parts.toList.flatMap Part.pieces) ++ [(.rightBrace, "\x7d")]) :=
    congrArg (fun ws => _ :: _ :: ws) (words_append _ _)
  have hname : words d.pieces = (.chip, "CHIP") :: words (word d.name :: _) := rfl
  rw [hname, words_word, List.append_assoc, List.cons_append, List.cons_append, ← hbody,
    ← words_append, ← words_append]
  rfl

theorem isChip_pieces (h : d.Printable) (hw : ∀ p ∈ d.pins, p.width < UInt32.size) :
    IsChip (words d.pieces) d.node := by
  have hpins : ∀ kind, ∀ p ∈ d.pinsOf kind, p.width < UInt32.size := fun kind p hp =>
    hw p (Array.mem_toList_iff.1 (List.mem_filter.1 hp).1)
  have hparts : Star IsPart (words (d.parts.toList.flatMap Part.pieces))
      (d.parts.toList.map Part.node) :=
    star_pieces fun p hp => Part.isPart_pieces (h.parts p (Array.mem_toList_iff.1 hp))
  obtain ⟨ss, hss, hin, hout⟩ := exists_star_sectionPieces .inputs rfl (hpins .input) "IN"
  obtain ⟨ss', hss', hin', hout'⟩ := exists_star_sectionPieces .outputs rfl (hpins .output) "OUT"
  have hnode : d.node = ⟨d.name, .nowhere, (ss ++ ss').flatMap Sections.inputs,
      (ss ++ ss').flatMap Sections.outputs, d.parts.toList.map Part.node, .nowhere⟩ := by
    simp [node, hin, hin', hout, hout']
  rw [words_pieces, hnode]
  exact .mk (hss.append hss') (.some hparts)

/-- **The text of a printable chip declares this chip.** -/
theorem declares_render (h : d.Printable) (hw : ∀ p ∈ d.pins, p.width < UInt32.size) :
    Declares d.render [d.node] := by
  have hstar : Star IsChip (words d.pieces ++ []) [d.node] := .cons (isChip_pieces h hw) .nil
  rw [List.append_nil] at hstar
  refine ⟨?_, ?_⟩ <;> rw [split_render h]
  · exact (splits_pieces h).fine
  · exact hstar

/-- **A printable chip is read back from its text, and nothing else is.** -/
theorem parse_render (h : d.Printable) (hw : ∀ p ∈ d.pins, p.width < UInt32.size)
    (file : Option Nat) : (parse file d.render).faults = [] ∧
      ∃ node : ChipNode, (parse file d.render).document.chips = [node] ∧ node.bare = d.node := by
  obtain ⟨hfaults, hitems⟩ := clean_parse (declares_render h hw) file
  refine ⟨hfaults, ?_⟩
  obtain ⟨item, hitem, hbare⟩ := List.map_eq_singleton_iff.1 hitems
  cases item with
  | chip node => exact ⟨node, by rw [Document.chips, hitem]; rfl, Item.chip.inj hbare⟩
  | skipped span => cases hbare

end Definition

end ChipLogic
