import ChipLogic.Chip.Printer
import ChipLogic.Proofs.Hdl.Splitting

/-!
# The pieces of a printed chip

The text of a chip is put together from pieces (`Definition.pieces`, `Definition.toList_render`). If
its names are names, no word or number in it runs into the next one, so the text splits into just
these pieces (`Definition.split_render`).

A text says nothing of places, links and internal nets: it is the text of the **bare** chip
(`Definition.render_bare`).
-/

namespace ChipLogic

open Hdl (Piece IsName soft_cons)

/-! ## Bare chips -/

def Pin.bare (p : Pin) : Pin := { p with span := .nowhere }

theorem Pin.bare_eq_bare_iff {p q : Pin} :
    p.bare = q.bare ↔ p.name = q.name ∧ p.width = q.width ∧ p.kind = q.kind := by
  simp [bare]

def Reference.bare (r : Reference) : Reference := { r with span := .nowhere }

def Connection.bare (c : Connection) : Connection := ⟨c.inner.bare, c.outer.bare, .nowhere⟩

def Part.bare (p : Part) : Part :=
  { chip := p.chip, connections := p.connections.map Connection.bare, span := .nowhere }

/-- The declared pins. -/
def Definition.terminals (d : Definition) : List Pin := d.pins.toList.filter Pin.isTerminal

/-- A chip as declared, without the places. -/
def Definition.bare (d : Definition) : Definition where
  name := d.name
  span := .nowhere
  pinTable := .ofPins (d.terminals.map Pin.bare).toArray
  partSlots := numbered (d.parts.map Part.bare)
  gate := d.gate

@[simp]
theorem Definition.pins_bare (d : Definition) :
    d.bare.pins = (d.terminals.map Pin.bare).toArray :=
  pins_mk ..

@[simp]
theorem Definition.parts_bare (d : Definition) : d.bare.parts = d.parts.map Part.bare :=
  parts_mk ..

/-- What a bare chip is made of. -/
theorem Definition.bare_congr {d d' : Definition} (hname : d'.name = d.name)
    (hpins : d'.terminals.map Pin.bare = d.terminals.map Pin.bare)
    (hparts : d'.parts.map Part.bare = d.parts.map Part.bare) (hgate : d'.gate = d.gate) :
    d'.bare = d.bare := by
  rw [bare, bare, hname, hpins, hparts, hgate]

/-- The terminals can be read off the bare chip. -/
theorem Definition.map_bare_terminals_of_bare {d d' : Definition} (h : d'.bare = d.bare) :
    d'.terminals.map Pin.bare = d.terminals.map Pin.bare := by
  simpa using congrArg (fun b => b.pins.toList) h

/-! ## Pieces -/

namespace Hdl.Piece

/-- A mark of one character. -/
def mark (kind : Kind) (c : Char) : Piece := .token kind [c]

def word (name : String) : Piece := .token .identifier name.toList

def number (n : Nat) : Piece := .token .number n.repr.toList

def space : Piece := .blank ' '

def newline : Piece := .blank '\n'

def indent : List Piece := List.replicate 4 space

/-- The pieces of a list with commas. -/
def listed {α : Type} (f : α → List Piece) : List α → List Piece
  | [] => []
  | [x] => f x
  | x :: y :: ys => f x ++ (mark .comma ',' :: space :: listed f (y :: ys))

end Hdl.Piece

open Hdl.Piece

def Pin.pieces (p : Pin) : List Piece :=
  word p.name ::
    if p.width = 1 then [] else [mark .leftBracket '[', number p.width, mark .rightBracket ']']

def BitRange.pieces (r : BitRange) : List Piece :=
  mark .leftBracket '[' :: number r.first ::
    if r.first = r.last then [mark .rightBracket ']']
    else [.token .dotDot ['.', '.'], number r.last, mark .rightBracket ']']

def rangePieces : Option BitRange → List Piece
  | some range => range.pieces
  | none => []

def Reference.pieces (r : Reference) : List Piece :=
  word r.name :: rangePieces r.range

def Connection.pieces (c : Connection) : List Piece :=
  c.inner.pieces ++ (mark .equals '=' :: c.outer.pieces)

def Part.pieces (p : Part) : List Piece :=
  indent ++ (word p.chip :: mark .leftParen '(' :: (listed Connection.pieces p.connections ++
    [mark .rightParen ')', mark .semicolon ';', newline]))

/-- The pieces of a section of pins; none if there are no pins. -/
def sectionPieces (kind : Hdl.Kind) (keyword : String) : List Pin → List Piece
  | [] => []
  | p :: ps =>
    indent ++ (.token kind keyword.toList :: space :: (listed Pin.pieces (p :: ps) ++
      [mark .semicolon ';', newline]))

def Definition.pieces (d : Definition) : List Piece :=
  .token .chip "CHIP".toList :: space :: word d.name :: space :: mark .leftBrace '\x7b' :: newline ::
    (sectionPieces .input "IN" (d.pinsOf .input) ++
      (sectionPieces .output "OUT" (d.pinsOf .output) ++
        (indent ++ (.token .parts "PARTS".toList :: mark .colon ':' :: newline ::
          (d.parts.toList.flatMap Part.pieces ++ [mark .rightBrace '\x7d', newline])))))

/-! ## Texts -/

namespace Hdl.Piece

/-- The text of pieces. -/
def textOf (ps : List Piece) : List Char := ps.flatMap text

@[simp] theorem textOf_nil : textOf [] = [] := rfl

@[simp] theorem textOf_cons (p : Piece) (ps : List Piece) :
    textOf (p :: ps) = p.text ++ textOf ps := rfl

@[simp] theorem textOf_append (ps qs : List Piece) :
    textOf (ps ++ qs) = textOf ps ++ textOf qs := List.flatMap_append

@[simp] theorem text_mark (kind : Kind) (c : Char) : (mark kind c).text = [c] := rfl

@[simp] theorem text_word (name : String) : (word name).text = name.toList := rfl

@[simp] theorem text_number (n : Nat) : (number n).text = n.repr.toList := rfl

@[simp] theorem text_token (kind : Kind) (cs : List Char) : (Piece.token kind cs).text = cs := rfl

@[simp] theorem text_space : space.text = [' '] := rfl

@[simp] theorem text_newline : newline.text = ['\n'] := rfl

@[simp] theorem textOf_indent : textOf indent = [' ', ' ', ' ', ' '] := rfl

theorem toList_intercalate_listed {α : Type} {f : α → List Piece} {g : α → String}
    (h : ∀ x, (g x).toList = textOf (f x)) (xs : List α) :
    (", ".intercalate (xs.map g)).toList = textOf (listed f xs) := by
  fun_induction listed f xs with
  | case1 => simp
  | case2 x => simp [h]
  | case3 x y ys ih => simp [h] at ih ⊢; exact ih

end Hdl.Piece

theorem Pin.toList_declaration (p : Pin) : p.declaration.toList = textOf p.pieces := by
  by_cases h : p.width = 1 <;> simp [declaration, pieces, h, toString]

theorem BitRange.toList_text (r : BitRange) : r.text.toList = textOf r.pieces := by
  by_cases h : r.first = r.last <;> simp [text, pieces, h, toString]

theorem Reference.toList_text (r : Reference) : r.text.toList = textOf r.pieces := by
  cases h : r.range with
  | none => simp [text, pieces, rangePieces, h]
  | some range => simp [text, pieces, rangePieces, h, range.toList_text]

theorem Connection.toList_connectionText (c : Connection) :
    (connectionText c.inner c.outer).toList = textOf c.pieces := by
  simp [connectionText, pieces, Reference.toList_text]

theorem Part.toList_partLine (p : Part) :
    (partLine p.chip (p.connections.map fun c => connectionText c.inner c.outer)).toList =
      textOf p.pieces := by
  have hlist := toList_intercalate_listed Connection.toList_connectionText p.connections
  simp [partLine, pieces, hlist, toString]

theorem toList_pinSection (kind : Hdl.Kind) (keyword : String) (ps : List Pin) :
    (pinSection keyword ps).toList = textOf (sectionPieces kind keyword ps) := by
  cases ps with
  | nil => rfl
  | cons p ps =>
    have hlist := toList_intercalate_listed Pin.toList_declaration (p :: ps)
    simp [pinSection, sectionPieces, ← hlist, toString]

/-- **The text of a chip is the text of its pieces.** -/
theorem Definition.toList_render {d : Definition} (h : d.gate = none) :
    d.render.toList = textOf d.pieces := by
  have hparts : (String.join (d.parts.toList.map fun p =>
      partLine p.chip (p.connections.map fun c => connectionText c.inner c.outer))).toList =
        textOf (d.parts.toList.flatMap Part.pieces) := by
    simp [textOf, List.flatMap_map, List.flatMap_assoc, String.toList_join, Part.toList_partLine]
  simp [render, chipText, h, pieces, toList_pinSection .input "IN",
    toList_pinSection .output "OUT", hparts, pinsOf, toString]

/-! ## Splitting -/

namespace Hdl.Piece

theorem splits_space : Splits [space] := splits_blank rfl

theorem splits_newline : Splits [newline] := splits_blank rfl

theorem splits_indent : Splits indent :=
  .cons splits_space (.cons splits_space (.cons splits_space splits_space))

theorem cuts_listed {α : Type} {f : α → List Piece} {xs : List α} (h : ∀ x ∈ xs, Cuts (f x)) :
    Cuts (listed f xs) := by
  fun_induction listed f xs with
  | case1 => exact Splits.nil.toCuts
  | case2 x => exact h x (List.mem_singleton_self x)
  | case3 x y ys ih =>
    obtain ⟨hx, hys⟩ := List.forall_mem_cons.1 h
    have hcomma : Splits [mark .comma ',', space] := .cons (splits_mark rfl) splits_space
    have hfirst : Splits (f x ++ [mark .comma ',', space]) :=
      hx.append hcomma fun _ => soft_cons rfl _
    have := hfirst.cuts (ih hys)
    rwa [List.append_assoc] at this

end Hdl.Piece

theorem Pin.cuts_pieces {p : Pin} (h : IsName p.name) : Cuts p.pieces := by
  by_cases hw : p.width = 1
  · simp only [pieces, hw, if_true]
    exact cuts_name h
  · simp only [pieces, hw, if_false]
    have hwidth : Splits [number p.width, mark .rightBracket ']'] :=
      (cuts_number _).cons (splits_mark rfl) fun _ => soft_cons rfl _
    exact ((cuts_name h).cons ((splits_mark rfl).cons hwidth) fun _ => soft_cons rfl _).toCuts

theorem BitRange.splits_pieces (r : BitRange) : Splits r.pieces := by
  have hlast : Splits [number r.last, mark .rightBracket ']'] :=
    (cuts_number _).cons (splits_mark rfl) fun _ => soft_cons rfl _
  refine (splits_mark rfl).cons ?_
  split
  · exact (cuts_number _).cons (splits_mark rfl) fun _ => soft_cons rfl _
  · exact (cuts_number _).cons (splits_dots.cons hlast) fun _ => soft_cons rfl _

theorem Reference.cuts_pieces {r : Reference} (h : IsName r.name) : Cuts r.pieces := by
  unfold pieces
  cases r.range with
  | some range => exact ((cuts_name h).cons range.splits_pieces fun _ => soft_cons rfl _).toCuts
  | none => exact cuts_name h

theorem Connection.cuts_pieces {c : Connection} (hi : IsName c.inner.name)
    (ho : IsName c.outer.name) : Cuts c.pieces := by
  have hinner : Splits (c.inner.pieces ++ [mark .equals '=']) :=
    (Reference.cuts_pieces hi).append (splits_mark rfl) fun _ => soft_cons rfl _
  have := hinner.cuts (Reference.cuts_pieces ho)
  rwa [List.append_assoc] at this

/-! ## Printable chips -/

/-- The name is a name and the bounds of the range are below 2^32. -/
def Reference.Printable (r : Reference) : Prop :=
  IsName r.name ∧ ∀ range, r.range = some range → range.first < UInt32.size ∧ range.last < UInt32.size

def Connection.Printable (c : Connection) : Prop :=
  c.inner.Printable ∧ c.outer.Printable

def Part.Printable (p : Part) : Prop :=
  IsName p.chip ∧ ∀ c ∈ p.connections, c.Printable

/-- The text of the chip can be read back. -/
structure Definition.Printable (d : Definition) : Prop where
  gate : d.gate = none
  name : IsName d.name
  pins : ∀ p ∈ d.pins, p.isTerminal → IsName p.name
  /-- Inputs are declared before outputs. -/
  order : d.terminals = d.pinsOf .input ++ d.pinsOf .output
  parts : ∀ p ∈ d.parts, p.Printable

theorem Part.splits_pieces {p : Part} (h : p.Printable) : Splits p.pieces := by
  obtain ⟨hchip, hconnections⟩ := h
  have hlist : Cuts (listed Connection.pieces p.connections) :=
    cuts_listed fun c hc =>
      Connection.cuts_pieces (hconnections c hc).1.1 (hconnections c hc).2.1
  have hend : Splits [mark .rightParen ')', mark .semicolon ';', newline] :=
    (splits_mark rfl).cons ((splits_mark rfl).cons splits_newline)
  have hlist := hlist.append hend fun _ => soft_cons rfl _
  exact splits_indent.append
    ((cuts_name hchip).cons ((splits_mark rfl).cons hlist) fun _ => soft_cons rfl _)

theorem cuts_keyword (keyword : String) {kind : Hdl.Kind} (hk : Hdl.Kind.ofWord keyword.toList = kind)
    (h : keyword.toList.all Hdl.isWordStart = true) (hne : keyword.toList ≠ []) :
    Cuts [.token kind keyword.toList] := by
  obtain ⟨c, cs, hword⟩ := List.exists_cons_of_ne_nil hne
  rw [hword] at hk h ⊢
  obtain ⟨hc, hcs⟩ := List.forall_mem_cons.1 (List.all_eq_true.1 h)
  rw [← hk]
  exact cuts_word hc fun x hx => Hdl.Piece.isWordChar_of_isWordStart (hcs x hx)

theorem splits_sectionPieces {kind : Hdl.Kind} {keyword : String}
    (hk : Cuts [.token kind keyword.toList]) {ps : List Pin} (h : ∀ p ∈ ps, IsName p.name) :
    Splits (sectionPieces kind keyword ps) := by
  cases ps with
  | nil => exact Splits.nil
  | cons p ps =>
    have hend : Splits [mark .semicolon ';', newline] := (splits_mark rfl).cons splits_newline
    have hlist := (cuts_listed fun q hq => Pin.cuts_pieces (h q hq)).append hend
      fun _ => soft_cons rfl _
    exact splits_indent.append (hk.cons (splits_space.cons hlist) fun _ => soft_cons rfl _)

theorem Definition.splits_pieces {d : Definition} (h : d.Printable) : Splits d.pieces := by
  have hnames : ∀ kind, kind ≠ PinKind.internal → ∀ p ∈ d.pinsOf kind, IsName p.name := by
    intro kind hkind p hp
    obtain ⟨hp, hk⟩ := List.mem_filter.1 hp
    exact h.pins p (Array.mem_toList_iff.1 hp) (by simp [Pin.isTerminal, eq_of_beq hk, hkind])
  have hparts : Splits (d.parts.toList.flatMap Part.pieces ++ [mark .rightBrace '\x7d', newline]) :=
    (Splits.flatMap fun p hp => Part.splits_pieces (h.parts p (Array.mem_toList_iff.1 hp))).append
      ((splits_mark rfl).cons splits_newline)
  have hbody : Splits (.token .parts "PARTS".toList :: mark .colon ':' :: newline :: _) :=
    (cuts_keyword "PARTS" rfl rfl (by decide)).cons
      ((splits_mark rfl).cons (splits_newline.cons hparts)) fun _ => soft_cons rfl _
  have hinputs := splits_sectionPieces (cuts_keyword "IN" rfl rfl (by decide))
    (hnames .input (by decide))
  have houtputs := splits_sectionPieces (cuts_keyword "OUT" rfl rfl (by decide))
    (hnames .output (by decide))
  have hname : Splits (word d.name :: space :: mark .leftBrace '\x7b' :: newline :: _) :=
    (cuts_name h.name).cons (splits_space.cons ((splits_mark rfl).cons
      (splits_newline.cons (hinputs.append (houtputs.append (splits_indent.append hbody))))))
      fun _ => soft_cons rfl _
  exact (cuts_keyword "CHIP" rfl rfl (by decide)).cons (splits_space.cons hname)
    fun _ => soft_cons rfl _

/-- **The text of a printable chip splits into its pieces.** -/
theorem Definition.split_render {d : Definition} (h : d.Printable) :
    Piece.split d.render.toList = d.pieces := by
  rw [toList_render h.gate]
  exact split_of_splits (splits_pieces h)

/-! ## Texts of bare chips -/

theorem Definition.pinsOf_bare (d : Definition) {kind : PinKind} (hk : kind ≠ .internal) :
    d.bare.pinsOf kind = (d.pinsOf kind).map Pin.bare := by
  have hboth : ∀ p : Pin, (p.kind == kind && p.isTerminal) = (p.kind == kind) := by
    intro p
    by_cases h : p.kind = kind <;> simp [h, Pin.isTerminal, hk]
  simp [pinsOf, terminals, List.filter_map, Function.comp_def, Pin.bare, hboth]

theorem Definition.terminals_bare (d : Definition) : d.bare.terminals = d.terminals.map Pin.bare := by
  have hterminal : ∀ p ∈ d.terminals.map Pin.bare, p.isTerminal = true := by
    intro p hp
    obtain ⟨q, hq, rfl⟩ := List.mem_map.1 hp
    exact (List.mem_filter.1 hq).2
  rw [terminals, pins_bare]
  exact List.filter_eq_self.2 hterminal

theorem Definition.bare_bare (d : Definition) : d.bare.bare = d.bare := by
  have hpins : d.bare.terminals.map Pin.bare = d.terminals.map Pin.bare := by
    simp [terminals_bare, Function.comp_def, Pin.bare]
  have hparts : d.bare.parts.map Part.bare = d.parts.map Part.bare := by
    simp [Function.comp_def, Part.bare, Connection.bare, Reference.bare]
  exact bare_congr rfl hpins hparts rfl

/-- What is printed is the bare chip. -/
theorem Definition.Printable.bare {d : Definition} (h : d.Printable) : d.bare.Printable where
  gate := h.gate
  name := h.name
  pins p hp _ := by
    rw [Definition.pins_bare, List.mem_toArray] at hp
    obtain ⟨q, hq, rfl⟩ := List.mem_map.1 hp
    obtain ⟨hq, ht⟩ := List.mem_filter.1 hq
    exact h.pins q (Array.mem_toList_iff.1 hq) ht
  order := by
    rw [terminals_bare, pinsOf_bare d (by decide), pinsOf_bare d (by decide), ← List.map_append,
      ← h.order]
  parts p hp := by
    obtain ⟨q, hq, rfl⟩ := Array.mem_map.1 (d.parts_bare ▸ hp)
    obtain ⟨hchip, hcs⟩ := h.parts q hq
    refine ⟨hchip, fun c hc => ?_⟩
    obtain ⟨c', hc', rfl⟩ := List.mem_map.1 hc
    exact hcs c' hc'

theorem Definition.Printable.part {d : Definition} (h : d.bare.Printable) {p : Part}
    (hp : p ∈ d.parts) : p.Printable := by
  obtain ⟨hchip, hcs⟩ := h.parts p.bare (d.parts_bare ▸ Array.mem_map.2 ⟨p, hp, rfl⟩)
  exact ⟨hchip, fun c hc => hcs c.bare (List.mem_map_of_mem hc)⟩

theorem Definition.Printable.terminal {d : Definition} (h : d.bare.Printable) {p : Pin}
    (hp : p ∈ d.terminals) : IsName p.name :=
  h.pins p.bare (d.pins_bare ▸ List.mem_toArray.2 (List.mem_map_of_mem hp)) (List.mem_filter.1 hp).2

theorem pinSection_map_bare (keyword : String) (ps : List Pin) :
    pinSection keyword (ps.map Pin.bare) = pinSection keyword ps := by
  cases ps with
  | nil => rfl
  | cons p ps => simp [pinSection, Function.comp_def]; rfl

/-- **The text of a chip depends on the bare chip only.** -/
theorem Definition.render_bare (d : Definition) : d.bare.render = d.render := by
  have hin := d.pinsOf_bare (by decide : PinKind.input ≠ .internal)
  have hout := d.pinsOf_bare (by decide : PinKind.output ≠ .internal)
  unfold pinsOf at hin hout
  have hparts : (d.bare.parts.toList.map fun p =>
      partLine p.chip (p.connections.map fun c => connectionText c.inner c.outer)) =
        d.parts.toList.map fun p =>
          partLine p.chip (p.connections.map fun c => connectionText c.inner c.outer) := by
    simp only [parts_bare, Array.toList_map, List.map_map, Part.bare, Function.comp_def]
    rfl
  unfold render
  rw [hparts]
  unfold chipText
  rw [hin, hout, pinSection_map_bare, pinSection_map_bare]
  rfl

end ChipLogic
