import ChipLogic.Hdl.Grammar
import ChipLogic.Hdl.Lexer

/-!
# Parsing with recovery

A text is a sequence of chips, a chip a sequence of sections. After a fault the parser passes over
tokens up to a place where it can go on: the end of a statement inside `PARTS`, the start of the
next section elsewhere in a chip, the next `CHIP` outside of one. So one reading finds the faults
of all chips. Pins before a fault in a list are kept; a part with a fault is dropped.

Every loop takes a token at each turn, and that is why it ends: a rule that succeeds takes one, and
after a fault the skipping takes the token that the rule could not.
-/

namespace ChipLogic.Hdl

/-! ## Skipping -/

/-- The cursor after the next `;`, or before a token that ends a section. -/
def skipToSection (previous : Option Span) : List Token → Cursor
  | [] => ⟨previous, []⟩
  | t :: rest =>
    match t.kind with
    | .endOfFile | .rightBrace | .input | .output | .parts | .chip => ⟨previous, t :: rest⟩
    | .semicolon => ⟨some t.span, rest⟩
    | _ => skipToSection (some t.span) rest

/-- The cursor after the next `;`, or before a `}` or the end of the text. -/
def skipStatement (previous : Option Span) : List Token → Cursor
  | [] => ⟨previous, []⟩
  | t :: rest =>
    match t.kind with
    | .endOfFile | .rightBrace => ⟨previous, t :: rest⟩
    | .semicolon => ⟨some t.span, rest⟩
    | _ => skipStatement (some t.span) rest

/-- The cursor before the next `CHIP` or the end of the text. -/
def skipToChip (previous : Option Span) : List Token → Cursor
  | [] => ⟨previous, []⟩
  | t :: rest =>
    match t.kind with
    | .endOfFile | .chip => ⟨previous, t :: rest⟩
    | _ => skipToChip (some t.span) rest

theorem skipToSection_suffix (previous : Option Span) (ts : List Token) :
    (skipToSection previous ts).rest <:+ ts := by
  fun_induction skipToSection previous ts with
  | case1 => exact List.suffix_refl _
  | case2 | case3 | case4 | case5 | case6 | case7 => exact List.suffix_refl _
  | case8 => exact List.suffix_cons _ _
  | case9 _ _ _ _ _ _ _ _ _ _ ih => exact ih.trans (List.suffix_cons _ _)

theorem skipStatement_suffix (previous : Option Span) (ts : List Token) :
    (skipStatement previous ts).rest <:+ ts := by
  fun_induction skipStatement previous ts with
  | case1 => exact List.suffix_refl _
  | case2 | case3 => exact List.suffix_refl _
  | case4 => exact List.suffix_cons _ _
  | case5 _ _ _ _ _ _ ih => exact ih.trans (List.suffix_cons _ _)

theorem skipToChip_suffix (previous : Option Span) (ts : List Token) :
    (skipToChip previous ts).rest <:+ ts := by
  fun_induction skipToChip previous ts with
  | case1 => exact List.suffix_refl _
  | case2 | case3 => exact List.suffix_refl _
  | case4 _ _ _ _ _ ih => exact ih.trans (List.suffix_cons _ _)

namespace Cursor

def skipToSection (c : Cursor) : Cursor := Hdl.skipToSection c.previous c.rest

def skipStatement (c : Cursor) : Cursor := Hdl.skipStatement c.previous c.rest

def skipToChip (c : Cursor) : Cursor := Hdl.skipToChip c.previous c.rest

/-- A cursor inside a statement moves when the statement is skipped. -/
theorem length_skipStatement {c : Cursor} (he : c.kind ≠ .endOfFile) (hb : c.kind ≠ .rightBrace) :
    c.skipStatement.rest.length < c.rest.length := by
  obtain ⟨previous, rest⟩ := c
  cases rest with
  | nil => simp [kind] at he
  | cons t rest =>
    simp only [kind] at he hb
    simp only [skipStatement, Hdl.skipStatement]
    split
    · contradiction
    · contradiction
    · simp
    · exact Nat.lt_succ_of_le (skipStatement_suffix _ _).length_le

/-- A cursor outside a chip moves when the text up to the next chip is skipped. -/
theorem length_skipToChip {c : Cursor} (he : c.kind ≠ .endOfFile) (hc : c.kind ≠ .chip) :
    c.skipToChip.rest.length < c.rest.length := by
  obtain ⟨previous, rest⟩ := c
  cases rest with
  | nil => simp [kind] at he
  | cons t rest =>
    simp only [kind] at he hc
    simp only [skipToChip, Hdl.skipToChip]
    exact Nat.lt_succ_of_le (skipToChip_suffix _ _).length_le

end Cursor

/-! ## Sections -/

/-- What was read, the faults met on the way, and the cursor after it. -/
structure Reading (α : Type) where
  value : α
  faults : List Diagnostic
  cursor : Cursor

/-- The pins of a section, up to its `;` or to where the reader goes on after a fault. -/
def pinList (c : Cursor) : Reading (List PinNode) :=
  match _h : Rule.pin c with
  | .error f => ⟨[], [f.report], f.cursor.skipToSection⟩
  | .ok (p, c₁) =>
    if c₁.kind = .comma then
      let more := pinList c₁.advance
      ⟨p :: more.value, more.faults, more.cursor⟩
    else match Rule.token .semicolon c₁ with
      | .error f => ⟨[p], [f.report], f.cursor.skipToSection⟩
      | .ok (_, c₂) => ⟨[p], [], c₂⟩
termination_by c.rest.length
decreasing_by
  exact Nat.lt_of_le_of_lt c₁.rest_advance_suffix.length_le (Rule.Consumes.pin.ok _h)

theorem pinList_suffix (c : Cursor) : (pinList c).cursor.rest <:+ c.rest := by
  fun_induction pinList c with
  | case1 c f h => exact (skipToSection_suffix _ _).trans (Rule.Forward.pin.error h)
  | case2 c p c₁ h hk _ ih =>
    exact (ih.trans c₁.rest_advance_suffix).trans (Rule.Forward.pin.ok h)
  | case3 c p c₁ h hk f hf =>
    exact ((skipToSection_suffix _ _).trans ((Rule.Forward.token _).error hf)).trans
      (Rule.Forward.pin.ok h)
  | case4 c p c₁ h hk s c₂ hs =>
    exact ((Rule.Forward.token _).ok hs).trans (Rule.Forward.pin.ok h)

/-- The parts of a chip, up to its `}` or the end of the text. -/
def partList (c : Cursor) : Reading (List PartNode) :=
  if _hk : c.kind = .endOfFile ∨ c.kind = .rightBrace then ⟨[], [], c⟩
  else match _h : Rule.part c with
    | .error f =>
      let more := partList f.cursor.skipStatement
      ⟨more.value, f.report :: more.faults, more.cursor⟩
    | .ok (p, c₁) =>
      let more := partList c₁
      ⟨p :: more.value, more.faults, more.cursor⟩
termination_by c.rest.length
decreasing_by
  · rw [not_or] at _hk
    have hs := Rule.Forward.part.error _h
    by_cases hl : f.cursor.rest.length = c.rest.length
    · have hkind : f.cursor.kind = c.kind := by
        simp only [Cursor.kind, hs.eq_of_length hl]
      rw [← hl]
      exact Cursor.length_skipStatement (by rw [hkind]; exact _hk.1) (by rw [hkind]; exact _hk.2)
    · have := (skipStatement_suffix f.cursor.previous f.cursor.rest).length_le
      have := hs.length_le
      simp only [Cursor.skipStatement]
      omega
  · exact Rule.Consumes.part.ok _h

theorem partList_suffix (c : Cursor) : (partList c).cursor.rest <:+ c.rest := by
  fun_induction partList c with
  | case1 => exact List.suffix_refl _
  | case2 c hk f h _ ih =>
    exact (ih.trans (skipStatement_suffix _ _)).trans (Rule.Forward.part.error h)
  | case3 c hk p c₁ h _ ih => exact ih.trans (Rule.Forward.part.ok h)

/-- The sections of a chip. -/
structure Sections where
  inputs : List PinNode := []
  outputs : List PinNode := []
  parts : List PartNode := []

/-- The parts after the keyword, which a colon follows. -/
def partSection (c : Cursor) : Reading (List PartNode) :=
  match Rule.token .colon c with
  | .error f => ⟨[], [f.report], f.cursor.skipToSection⟩
  | .ok (_, c₁) => partList c₁

theorem partSection_suffix (c : Cursor) : (partSection c).cursor.rest <:+ c.rest := by
  unfold partSection
  split
  · next h => exact (skipToSection_suffix _ _).trans ((Rule.Forward.token _).error h)
  · next h => exact (partList_suffix _).trans ((Rule.Forward.token _).ok h)

/-- The tokens that end the sections of a chip. -/
def endsSections (kind : Kind) : Bool :=
  kind == .endOfFile || kind == .rightBrace || kind == .chip

/-- The sections of a chip, up to its `}`, the next `CHIP` or the end of the text. -/
def sections (c : Cursor) : Reading Sections :=
  if _h : endsSections c.kind then ⟨{}, [], c⟩
  else if c.kind = .input then
    let pins := pinList c.advance
    let more := sections pins.cursor
    ⟨{ more.value with inputs := pins.value ++ more.value.inputs },
      pins.faults ++ more.faults, more.cursor⟩
  else if c.kind = .output then
    let pins := pinList c.advance
    let more := sections pins.cursor
    ⟨{ more.value with outputs := pins.value ++ more.value.outputs },
      pins.faults ++ more.faults, more.cursor⟩
  else if c.kind = .parts then
    let parts := partSection c.advance
    let more := sections parts.cursor
    ⟨{ more.value with parts := parts.value ++ more.value.parts },
      parts.faults ++ more.faults, more.cursor⟩
  else
    let more := sections c.advance.skipToSection
    ⟨more.value, (Fault.expected .sectionStart c.kind).report c.span :: more.faults, more.cursor⟩
termination_by c.rest.length
decreasing_by
  all_goals
    have hlt := Cursor.length_advance (c := c) fun he => _h (by rw [he]; rfl)
    refine Nat.lt_of_le_of_lt ?_ hlt
  · exact (pinList_suffix _).length_le
  · exact (pinList_suffix _).length_le
  · exact (partSection_suffix _).length_le
  · exact (skipToSection_suffix _ _).length_le

theorem sections_suffix (c : Cursor) : (sections c).cursor.rest <:+ c.rest := by
  fun_induction sections c with
  | case1 => exact List.suffix_refl _
  | case2 c _ _ _ _ ih => exact (ih.trans (pinList_suffix _)).trans c.rest_advance_suffix
  | case3 c _ _ _ _ _ ih => exact (ih.trans (pinList_suffix _)).trans c.rest_advance_suffix
  | case4 c _ _ _ _ _ _ ih => exact (ih.trans (partSection_suffix _)).trans c.rest_advance_suffix
  | case5 c _ _ _ _ _ ih => exact (ih.trans (skipToSection_suffix _ _)).trans c.rest_advance_suffix

/-! ## Chips -/

/-- A chip from its keyword on, or nothing if its start or its end is at fault. -/
def chip (c : Cursor) : Reading (Option ChipNode) :=
  match Rule.header c with
  | .error f => ⟨none, [f.report], f.cursor⟩
  | .ok ((start, name, nameSpan), c₁) =>
    let body := sections c₁
    match Rule.token .rightBrace body.cursor with
    | .error f => ⟨none, body.faults ++ [f.report], f.cursor⟩
    | .ok (stop, c₂) =>
      ⟨some ⟨name, nameSpan, body.value.inputs, body.value.outputs, body.value.parts,
        start.merge stop⟩, body.faults, c₂⟩

theorem chip_suffix (c : Cursor) : (chip c).cursor.rest <:+ c.rest := by
  unfold chip
  split
  · next h => exact Rule.Forward.header.error h
  · next h =>
    have hb := (sections_suffix _).trans (Rule.Forward.header.ok h)
    dsimp only
    split
    · next hf => exact ((Rule.Forward.token _).error hf).trans hb
    · next hs => exact ((Rule.Forward.token _).ok hs).trans hb

/-- Reading a chip takes its keyword, whatever comes after it. -/
theorem length_chip {c : Cursor} (h : c.kind = .chip) :
    (chip c).cursor.rest.length < c.rest.length := by
  have htoken : Rule.token .chip c = .ok (c.span, c.advance) := by
    simp [Rule.token, h]
  have hlt := Cursor.length_advance (c := c) (by rw [h]; decide)
  -- what follows the keyword
  obtain ⟨rest, hheader, hrest⟩ : ∃ rest, Rule.header c = rest c.advance ∧ Rule.Forward rest := by
    unfold Rule.header
    rw [Rule.bind_apply, htoken]
    exact ⟨_, rfl, .bind .name fun _ => .bind (.token _) fun _ => .pure _⟩
  refine Nat.lt_of_le_of_lt ?_ hlt
  unfold chip
  split
  · next hf => exact (hrest.error (hheader ▸ hf)).length_le
  · next hs =>
    have hb := (sections_suffix _).trans (hrest.ok (hheader ▸ hs))
    dsimp only
    split
    · next hf => exact (((Rule.Forward.token _).error hf).trans hb).length_le
    · next ht => exact (((Rule.Forward.token _).ok ht).trans hb).length_le

/-! ## Documents -/

/-- Passes over the text up to the next chip. The skipped item reaches from the token at `c` to the
last one passed over. -/
def skippedItem (c : Cursor) : Item :=
  .skipped (c.span.merge c.skipToChip.previousSpan)

/-- The items up to the end of the text. -/
def items (c : Cursor) : Reading (List Item) :=
  if _he : c.kind = .endOfFile then ⟨[], [], c⟩
  else if _hc : c.kind = .chip then
    let one := chip c
    match one.value with
    | some node =>
      let more := items one.cursor
      ⟨.chip node :: more.value, one.faults ++ more.faults, more.cursor⟩
    | none =>
      let more := items one.cursor.skipToChip
      ⟨skippedItem one.cursor :: more.value, one.faults ++ more.faults, more.cursor⟩
  else
    let more := items c.skipToChip
    ⟨skippedItem c :: more.value,
      (Fault.expected (.token .chip) c.kind).report c.span :: more.faults, more.cursor⟩
termination_by c.rest.length
decreasing_by
  · exact length_chip _hc
  · exact Nat.lt_of_le_of_lt (skipToChip_suffix _ _).length_le (length_chip _hc)
  · exact Cursor.length_skipToChip _he _hc

/-- A text as a document, with all its faults in the order in which they were met. -/
structure Parsed where
  document : Document
  faults : List Diagnostic

/-- Reads a document from tokens. -/
def parseTokens (tokens : List Token) : Parsed :=
  let start : Cursor := ⟨none, tokens⟩
  let all := items start
  ⟨⟨all.value, start.span.merge all.cursor.previousSpan⟩, all.faults⟩

/-- Reads the text of a file. -/
def parse (file : Option Nat) (text : String) : Parsed :=
  let lexed := lex file text
  let parsed := parseTokens lexed.tokens
  ⟨parsed.document, lexed.faults ++ parsed.faults⟩

end ChipLogic.Hdl
