import ChipLogic.Hdl.Parser
import ChipLogic.Proofs.Diagnostic.Checked

/-!
# Where the spans of a tree come from

Spans come into being in two ways only. A token and a fault of the lexer get the span of a piece of
the text, and from then on spans are copied and merged. So a property that all stretches of the text
have and that merging keeps (`Hereditary`) holds of all spans in the tree and in the faults, however
broken the text is (`allSpans_parse`).

**On the way** there is a cursor with the span of the token before it and the spans of the tokens
after it (`Cursor.Within`). A rule reads spans with the property and leaves such a cursor behind,
also where it fails, since the fault is reported there (`Rule.Marks`). So does the recovery, which
passes over tokens without merging (`Reading.Marks`).
-/

namespace ChipLogic.Hdl

variable {P : Span → Prop}

/-- A property of spans that the span of nothing has and that merging keeps. -/
structure Hereditary (P : Span → Prop) : Prop where
  nowhere : P .nowhere
  merge : ∀ {a b : Span}, P a → P b → P (a.merge b)

/-! ## Trees -/

structure RefNode.AllSpans (P : Span → Prop) (r : RefNode) : Prop where
  span : P r.span
  range : ∀ range, r.range = some range → P range.span

structure BindingNode.AllSpans (P : Span → Prop) (b : BindingNode) : Prop where
  inner : b.inner.AllSpans P
  outer : b.outer.AllSpans P
  span : P b.span

structure PartNode.AllSpans (P : Span → Prop) (p : PartNode) : Prop where
  bindings : ∀ b ∈ p.bindings, b.AllSpans P
  span : P p.span

/-- All spans of a chip have a property. -/
structure ChipNode.AllSpans (P : Span → Prop) (c : ChipNode) : Prop where
  nameSpan : P c.nameSpan
  inputs : ∀ p ∈ c.inputs, P p.span
  outputs : ∀ p ∈ c.outputs, P p.span
  parts : ∀ p ∈ c.parts, p.AllSpans P
  span : P c.span

def Item.AllSpans (P : Span → Prop) : Item → Prop
  | .chip node => node.AllSpans P
  | .skipped span => P span

structure Document.AllSpans (P : Span → Prop) (d : Document) : Prop where
  items : ∀ i ∈ d.items, i.AllSpans P
  span : P d.span

theorem Document.AllSpans.chips {d : Document} (h : d.AllSpans P) :
    ∀ c ∈ d.chips, c.AllSpans P := by
  intro c hc
  obtain ⟨i, hi, he⟩ := List.mem_filterMap.1 hc
  have hspans := h.items i hi
  cases i with
  | chip node =>
    cases he
    exact hspans
  | skipped span => cases he

/-! ## Cursors -/

/-- The spans around a cursor have a property. -/
structure Cursor.Within (P : Span → Prop) (c : Cursor) : Prop where
  previous : ∀ span, c.previous = some span → P span
  rest : ∀ t ∈ c.rest, P t.span

namespace Cursor.Within

variable {c : Cursor}

theorem span (hP : Hereditary P) (h : c.Within P) : P c.span := by
  obtain ⟨previous, rest⟩ := c
  cases rest with
  | cons t rest => exact h.rest t List.mem_cons_self
  | nil =>
    cases previous with
    | none => exact hP.nowhere
    | some span => exact h.previous span rfl

theorem previousSpan (hP : Hereditary P) (h : c.Within P) : P c.previousSpan := by
  unfold Cursor.previousSpan
  cases hp : c.previous with
  | none => exact h.span hP
  | some span => exact h.previous span hp

/-- The cursor after a token. -/
theorem after {previous : Option Span} {t : Token} {rest : List Token}
    (h : Cursor.Within P ⟨previous, t :: rest⟩) : Cursor.Within P ⟨some t.span, rest⟩ := by
  obtain ⟨ht, hrest⟩ := List.forall_mem_cons.1 h.rest
  exact ⟨fun span he => Option.some.inj he ▸ ht, hrest⟩

theorem advance (h : c.Within P) : c.advance.Within P := by
  obtain ⟨previous, rest⟩ := c
  cases rest with
  | nil => exact h
  | cons t rest =>
    unfold Cursor.advance
    dsimp only
    split
    · exact h
    · exact h.after

theorem skipToSection (h : c.Within P) : c.skipToSection.Within P := by
  obtain ⟨previous, rest⟩ := c
  unfold Cursor.skipToSection
  dsimp only
  fun_induction Hdl.skipToSection previous rest with
  | case1 => exact h
  | case2 | case3 | case4 | case5 | case6 | case7 => exact h
  | case8 => exact h.after
  | case9 _ _ _ _ _ _ _ _ _ _ ih => exact ih h.after

theorem skipStatement (h : c.Within P) : c.skipStatement.Within P := by
  obtain ⟨previous, rest⟩ := c
  unfold Cursor.skipStatement
  dsimp only
  fun_induction Hdl.skipStatement previous rest with
  | case1 => exact h
  | case2 | case3 => exact h
  | case4 => exact h.after
  | case5 _ _ _ _ _ _ ih => exact ih h.after

theorem skipToChip (h : c.Within P) : c.skipToChip.Within P := by
  obtain ⟨previous, rest⟩ := c
  unfold Cursor.skipToChip
  dsimp only
  fun_induction Hdl.skipToChip previous rest with
  | case1 => exact h
  | case2 | case3 => exact h
  | case4 _ _ _ _ _ ih => exact ih h.after

end Cursor.Within

/-! ## Rules -/

namespace Rule

variable {α β : Type} {Q : α → Prop} {Q' : β → Prop}

/-- Among spans with the property `P`, what a rule reads has the property `Q`, and the spans around
the cursor after it, or at its fault, have the property `P`. -/
structure Marks (P : Span → Prop) (Q : α → Prop) (r : Rule α) : Prop where
  ok : ∀ {c a c'}, c.Within P → r c = .ok (a, c') → Q a ∧ c'.Within P
  error : ∀ {c f}, c.Within P → r c = .error f → f.cursor.Within P

theorem Marks.pure {a : α} (h : Q a) : Marks P Q (Pure.pure a : Rule α) where
  ok hc he := by
    obtain ⟨rfl, rfl⟩ := Prod.mk.inj (Except.ok.inj he)
    exact ⟨h, hc⟩
  error _ he := nomatch he

theorem Marks.bind {r : Rule α} {f : α → Rule β} (hr : Marks P Q r)
    (hf : ∀ a, Q a → Marks P Q' (f a)) : Marks P Q' (r >>= f) where
  ok := by
    intro c b c' hc he
    rw [bind_apply] at he
    split at he
    · cases he
    · next a c₁ h₁ =>
      obtain ⟨ha, hc₁⟩ := hr.ok hc h₁
      exact (hf a ha).ok hc₁ he
  error := by
    intro c e hc he
    rw [bind_apply] at he
    split at he
    · next h₁ => cases he; exact hr.error hc h₁
    · next a c₁ h₁ =>
      obtain ⟨ha, hc₁⟩ := hr.ok hc h₁
      exact (hf a ha).error hc₁ he

theorem Marks.ifNext (hP : Hereditary P) {kind : Kind} {r : Span → Rule α} {otherwise : Rule α}
    (hr : ∀ span, P span → Marks P Q (r span)) (ho : Marks P Q otherwise) :
    Marks P Q (Rule.ifNext kind r otherwise) where
  ok := by
    intro c a c' hc he
    unfold Rule.ifNext at he
    split at he
    · exact (hr _ (hc.span hP)).ok hc.advance he
    · exact ho.ok hc he
  error := by
    intro c f hc he
    unfold Rule.ifNext at he
    split at he
    · exact (hr _ (hc.span hP)).error hc.advance he
    · exact ho.error hc he

theorem Marks.token (hP : Hereditary P) (kind : Kind) : Marks P P (Rule.token kind) where
  ok := by
    intro c a c' hc he
    unfold Rule.token at he
    split at he
    · obtain ⟨rfl, rfl⟩ := Prod.mk.inj (Except.ok.inj he)
      exact ⟨hc.span hP, hc.advance⟩
    · cases he
  error := by
    intro c f hc he
    unfold Rule.token at he
    split at he
    · cases he
    · cases he; exact hc

theorem Marks.name (hP : Hereditary P) : Marks P (fun a => P a.2) Rule.name where
  ok := by
    intro c a c' hc he
    unfold Rule.name at he
    split at he
    · obtain ⟨rfl, rfl⟩ := Prod.mk.inj (Except.ok.inj he)
      exact ⟨hc.span hP, hc.advance⟩
    · cases he
  error := by
    intro c f hc he
    unfold Rule.name at he
    split at he
    · cases he
    · cases he; exact hc

theorem Marks.previousSpan (hP : Hereditary P) : Marks P P Rule.previousSpan where
  ok hc he := by
    obtain ⟨rfl, rfl⟩ := Prod.mk.inj (Except.ok.inj he)
    exact ⟨hc.previousSpan hP, hc⟩
  error _ he := nomatch he

theorem Marks.number : Marks P (fun _ => True) Rule.number where
  ok := by
    intro c n c' hc he
    unfold Rule.number at he
    split at he
    · split at he
      · obtain ⟨rfl, rfl⟩ := Prod.mk.inj (Except.ok.inj he)
        exact ⟨trivial, hc.advance⟩
      · cases he
    · cases he
  error := by
    intro c f hc he
    unfold Rule.number at he
    split at he
    · split at he
      · cases he
      · cases he; exact hc
    · cases he; exact hc

theorem Marks.width (hP : Hereditary P) : Marks P (fun _ => True) Rule.width :=
  .ifNext hP
    (fun _ _ => .bind .number fun _ _ => .bind (.token hP _) fun _ _ => .pure trivial)
    (.pure trivial)

theorem Marks.pin (hP : Hereditary P) : Marks P (fun p => P p.span) Rule.pin :=
  .bind (.name hP) fun _ hstart => .bind (.width hP) fun _ _ =>
    .bind (.previousSpan hP) fun _ hstop => .pure (hP.merge hstart hstop)

theorem Marks.range (hP : Hereditary P) :
    Marks P (fun r => ∀ range, r = some range → P range.span) Rule.range :=
  .ifNext hP
    (fun _ hstart => .bind .number fun _ _ =>
      .bind (.ifNext hP (fun _ _ => .number) (.pure trivial)) fun _ _ =>
        .bind (.token hP _) fun _ hstop =>
          .pure fun _ he => Option.some.inj he ▸ hP.merge hstart hstop)
    (.pure fun _ he => nomatch he)

theorem Marks.ref (hP : Hereditary P) : Marks P (RefNode.AllSpans P) Rule.ref :=
  .bind (.name hP) fun _ hstart => .bind (.range hP) fun _ hrange =>
    .bind (.previousSpan hP) fun _ hstop => .pure ⟨hP.merge hstart hstop, hrange⟩

theorem Marks.binding (hP : Hereditary P) : Marks P (BindingNode.AllSpans P) Rule.binding :=
  .bind (.ref hP) fun _ hinner => .bind (.token hP _) fun _ _ =>
    .bind (.ref hP) fun _ houter => .pure ⟨hinner, houter, hP.merge hinner.span houter.span⟩

theorem Marks.bindings (hP : Hereditary P) :
    Marks P (fun bs => ∀ b ∈ bs, b.AllSpans P) Rule.bindings where
  ok := by
    intro c bs c' hc he
    fun_induction Rule.bindings c generalizing bs c' with
    | case1 => cases he
    | case2 => cases he
    | case3 c b c₁ hb hk bs' c₂ hbs ih =>
      obtain ⟨rfl, rfl⟩ := Prod.mk.inj (Except.ok.inj he)
      obtain ⟨hspans, hc₁⟩ := (binding hP).ok hc hb
      obtain ⟨hrest, hc₂⟩ := ih hc₁.advance hbs
      exact ⟨List.forall_mem_cons.2 ⟨hspans, hrest⟩, hc₂⟩
    | case4 c b c₁ hb =>
      obtain ⟨rfl, rfl⟩ := Prod.mk.inj (Except.ok.inj he)
      obtain ⟨hspans, hc₁⟩ := (binding hP).ok hc hb
      exact ⟨List.forall_mem_singleton.2 hspans, hc₁⟩
  error := by
    intro c f hc he
    fun_induction Rule.bindings c generalizing f with
    | case1 c e hb => cases he; exact (binding hP).error hc hb
    | case2 c b c₁ hb hk e hbs ih =>
      cases he
      exact ih ((binding hP).ok hc hb).2.advance hbs
    | case3 => cases he
    | case4 => cases he

theorem Marks.arguments (hP : Hereditary P) :
    Marks P (fun bs => ∀ b ∈ bs, b.AllSpans P) Rule.arguments where
  ok := by
    intro c bs c' hc he
    unfold Rule.arguments at he
    split at he
    · obtain ⟨rfl, rfl⟩ := Prod.mk.inj (Except.ok.inj he)
      exact ⟨List.forall_mem_nil _, hc⟩
    · exact (bindings hP).ok hc he
  error := by
    intro c f hc he
    unfold Rule.arguments at he
    split at he
    · cases he
    · exact (bindings hP).error hc he

theorem Marks.part (hP : Hereditary P) : Marks P (PartNode.AllSpans P) Rule.part :=
  .bind (.name hP) fun _ hstart => .bind (.token hP _) fun _ _ =>
    .bind (.arguments hP) fun _ hbindings => .bind (.token hP _) fun _ _ =>
      .bind (.token hP _) fun _ hstop => .pure ⟨hbindings, hP.merge hstart hstop⟩

theorem Marks.header (hP : Hereditary P) : Marks P (fun a => P a.1 ∧ P a.2.2) Rule.header :=
  .bind (.token hP _) fun _ hstart => .bind (.name hP) fun _ hname =>
    .bind (.token hP _) fun _ _ => .pure ⟨hstart, hname⟩

end Rule

/-! ## Readings with recovery -/

/-- All spans of some diagnostics have a property. -/
def AllMarked (P : Span → Prop) (ds : List Diagnostic) : Prop :=
  ∀ d ∈ ds, d.AllSpans P

theorem AllMarked.nil : AllMarked P [] := List.forall_mem_nil _

theorem AllMarked.cons {f : Fault} {span : Span} {ds : List Diagnostic} (h : P span)
    (hds : AllMarked P ds) : AllMarked P (f.report span :: ds) :=
  List.forall_mem_cons.2 ⟨⟨h, List.forall_mem_nil _⟩, hds⟩

theorem AllMarked.append {ds es : List Diagnostic} (hd : AllMarked P ds) (he : AllMarked P es) :
    AllMarked P (ds ++ es) :=
  List.forall_mem_append.2 ⟨hd, he⟩

/-- What was read has the property `Q`, and all spans of the faults and around the cursor have the
property `P`. -/
structure Reading.Marks {α : Type} (P : Span → Prop) (Q : α → Prop) (r : Reading α) : Prop where
  value : Q r.value
  faults : AllMarked P r.faults
  cursor : r.cursor.Within P

theorem marks_pinList (hP : Hereditary P) {c : Cursor} (hc : c.Within P) :
    (pinList c).Marks P fun ps => ∀ p ∈ ps, P p.span := by
  fun_induction pinList c with
  | case1 c f h =>
    have hf := (Rule.Marks.pin hP).error hc h
    exact ⟨List.forall_mem_nil _, .cons (hf.span hP) .nil, hf.skipToSection⟩
  | case2 c p c₁ h hk _ ih =>
    obtain ⟨hp, hc₁⟩ := (Rule.Marks.pin hP).ok hc h
    obtain ⟨hvalue, hfaults, hcursor⟩ := ih hc₁.advance
    exact ⟨List.forall_mem_cons.2 ⟨hp, hvalue⟩, hfaults, hcursor⟩
  | case3 c p c₁ h hk f hf =>
    obtain ⟨hp, hc₁⟩ := (Rule.Marks.pin hP).ok hc h
    have hf := (Rule.Marks.token hP _).error hc₁ hf
    exact ⟨List.forall_mem_singleton.2 hp, .cons (hf.span hP) .nil, hf.skipToSection⟩
  | case4 c p c₁ h hk s c₂ hs =>
    obtain ⟨hp, hc₁⟩ := (Rule.Marks.pin hP).ok hc h
    exact ⟨List.forall_mem_singleton.2 hp, .nil, ((Rule.Marks.token hP _).ok hc₁ hs).2⟩

theorem marks_partList (hP : Hereditary P) {c : Cursor} (hc : c.Within P) :
    (partList c).Marks P fun ps => ∀ p ∈ ps, p.AllSpans P := by
  fun_induction partList c with
  | case1 => exact ⟨List.forall_mem_nil _, .nil, hc⟩
  | case2 c hk f h _ ih =>
    have hf := (Rule.Marks.part hP).error hc h
    obtain ⟨hvalue, hfaults, hcursor⟩ := ih hf.skipStatement
    exact ⟨hvalue, .cons (hf.span hP) hfaults, hcursor⟩
  | case3 c hk p c₁ h _ ih =>
    obtain ⟨hp, hc₁⟩ := (Rule.Marks.part hP).ok hc h
    obtain ⟨hvalue, hfaults, hcursor⟩ := ih hc₁
    exact ⟨List.forall_mem_cons.2 ⟨hp, hvalue⟩, hfaults, hcursor⟩

theorem marks_partSection (hP : Hereditary P) {c : Cursor} (hc : c.Within P) :
    (partSection c).Marks P fun ps => ∀ p ∈ ps, p.AllSpans P := by
  unfold partSection
  split
  · next h =>
    have hf := (Rule.Marks.token hP _).error hc h
    exact ⟨List.forall_mem_nil _, .cons (hf.span hP) .nil, hf.skipToSection⟩
  · next h => exact marks_partList hP ((Rule.Marks.token hP _).ok hc h).2

/-- All spans of the sections of a chip have a property. -/
structure Sections.AllSpans (P : Span → Prop) (s : Sections) : Prop where
  inputs : ∀ p ∈ s.inputs, P p.span
  outputs : ∀ p ∈ s.outputs, P p.span
  parts : ∀ p ∈ s.parts, p.AllSpans P

theorem marks_sections (hP : Hereditary P) {c : Cursor} (hc : c.Within P) :
    (sections c).Marks P (Sections.AllSpans P) := by
  fun_induction sections c with
  | case1 =>
    exact ⟨⟨List.forall_mem_nil _, List.forall_mem_nil _, List.forall_mem_nil _⟩, .nil, hc⟩
  | case2 c h hk pins more ih =>
    obtain ⟨hpins, hfaults, hcursor⟩ := marks_pinList hP hc.advance
    obtain ⟨⟨hi, ho, hp⟩, hmore, hend⟩ := ih hcursor
    exact ⟨⟨List.forall_mem_append.2 ⟨hpins, hi⟩, ho, hp⟩, hfaults.append hmore, hend⟩
  | case3 c h hn hk pins more ih =>
    obtain ⟨hpins, hfaults, hcursor⟩ := marks_pinList hP hc.advance
    obtain ⟨⟨hi, ho, hp⟩, hmore, hend⟩ := ih hcursor
    exact ⟨⟨hi, List.forall_mem_append.2 ⟨hpins, ho⟩, hp⟩, hfaults.append hmore, hend⟩
  | case4 c h hn hn' hk parts more ih =>
    obtain ⟨hparts, hfaults, hcursor⟩ := marks_partSection hP hc.advance
    obtain ⟨⟨hi, ho, hp⟩, hmore, hend⟩ := ih hcursor
    exact ⟨⟨hi, ho, List.forall_mem_append.2 ⟨hparts, hp⟩⟩, hfaults.append hmore, hend⟩
  | case5 c h hn hn' hn'' more ih =>
    obtain ⟨hvalue, hmore, hend⟩ := ih hc.advance.skipToSection
    exact ⟨hvalue, .cons (hc.span hP) hmore, hend⟩

theorem marks_chip (hP : Hereditary P) {c : Cursor} (hc : c.Within P) :
    (chip c).Marks P fun value => ∀ node, value = some node → node.AllSpans P := by
  unfold chip
  split
  · next h =>
    have hf := (Rule.Marks.header hP).error hc h
    exact ⟨by simp, .cons (hf.span hP) .nil, hf⟩
  · next h =>
    obtain ⟨⟨hstart, hname⟩, hc₁⟩ := (Rule.Marks.header hP).ok hc h
    obtain ⟨hbody, hfaults, hcursor⟩ := marks_sections hP hc₁
    dsimp only
    split
    · next hf =>
      have hf := (Rule.Marks.token hP _).error hcursor hf
      exact ⟨by simp, hfaults.append (.cons (hf.span hP) .nil), hf⟩
    · next hs =>
      obtain ⟨hstop, hc₂⟩ := (Rule.Marks.token hP _).ok hcursor hs
      refine ⟨fun node he => ?_, hfaults, hc₂⟩
      cases he
      exact ⟨hname, hbody.inputs, hbody.outputs, hbody.parts, hP.merge hstart hstop⟩

theorem allSpans_skippedItem (hP : Hereditary P) {c : Cursor} (hc : c.Within P) :
    (skippedItem c).AllSpans P :=
  hP.merge (hc.span hP) (hc.skipToChip.previousSpan hP)

theorem marks_items (hP : Hereditary P) {c : Cursor} (hc : c.Within P) :
    (items c).Marks P fun is => ∀ i ∈ is, i.AllSpans P := by
  fun_induction items c with
  | case1 => exact ⟨List.forall_mem_nil _, .nil, hc⟩
  | case2 c _ _ one node h more ih =>
    obtain ⟨hnode, hfaults, hcursor⟩ := marks_chip hP hc
    obtain ⟨hvalue, hmore, hend⟩ := ih hcursor
    exact ⟨List.forall_mem_cons.2 ⟨hnode node h, hvalue⟩, hfaults.append hmore, hend⟩
  | case3 c _ _ one h more ih =>
    obtain ⟨-, hfaults, hcursor⟩ := marks_chip hP hc
    obtain ⟨hvalue, hmore, hend⟩ := ih hcursor.skipToChip
    exact ⟨List.forall_mem_cons.2 ⟨allSpans_skippedItem hP hcursor, hvalue⟩,
      hfaults.append hmore, hend⟩
  | case4 c _ _ more ih =>
    obtain ⟨hvalue, hmore, hend⟩ := ih hc.skipToChip
    exact ⟨List.forall_mem_cons.2 ⟨allSpans_skippedItem hP hc, hvalue⟩,
      .cons (hc.span hP) hmore, hend⟩

/-! ## Texts -/

/-- All stretches of a text have a property, as spans of its file. -/
def Stretches (P : Span → Prop) (file : Option Nat) (text : List Char) : Prop :=
  ∀ before inside after, text = before ++ (inside ++ after) →
    P ⟨file, byteLength before, byteLength before + byteLength inside⟩

variable {file : Option Nat} {text : List Char}

theorem within_tokensFrom (h : Stretches P file text) {before : List Char} {pieces : List Piece}
    (htext : text = before ++ pieces.flatMap Piece.text) :
    ∀ t ∈ tokensFrom file (byteLength before) pieces, P t.span := by
  induction pieces generalizing before with
  | nil => exact List.forall_mem_singleton.2 (h before [] [] htext)
  | cons piece pieces ih =>
    rw [List.flatMap_cons] at htext
    have hafter : text = (before ++ piece.text) ++ pieces.flatMap Piece.text := by
      rw [htext, List.append_assoc]
    have hrest := ih hafter
    rw [byteLength_append] at hrest
    unfold tokensFrom
    dsimp only
    split
    · exact List.forall_mem_cons.2 ⟨h before _ _ htext, hrest⟩
    · exact hrest

theorem allMarked_faultsFrom (h : Stretches P file text) {before : List Char} {pieces : List Piece}
    (htext : text = before ++ pieces.flatMap Piece.text) :
    AllMarked P (faultsFrom file (byteLength before) pieces) := by
  induction pieces generalizing before with
  | nil => exact .nil
  | cons piece pieces ih =>
    rw [List.flatMap_cons] at htext
    have hafter : text = (before ++ piece.text) ++ pieces.flatMap Piece.text := by
      rw [htext, List.append_assoc]
    have hrest := ih hafter
    rw [byteLength_append] at hrest
    unfold faultsFrom
    dsimp only
    split
    · exact .cons (h before _ _ htext) hrest
    · exact .cons (h before _ _ htext) hrest
    · exact hrest

/-- **All spans of a tree and of its faults** have a property that the stretches of the text have
and that merging keeps. -/
theorem allSpans_parse (hP : Hereditary P) {text : String} (h : Stretches P file text.toList) :
    (parse file text).document.AllSpans P ∧ AllMarked P (parse file text).faults := by
  have htext : text.toList = [] ++ (Piece.split text.toList).flatMap Piece.text :=
    (Piece.flatMap_text_split text.toList).symm
  have hstart : Cursor.Within P ⟨none, (lex file text).tokens⟩ :=
    ⟨(fun _ he => nomatch he), within_tokensFrom h htext⟩
  obtain ⟨hitems, hfaults, hend⟩ := marks_items hP hstart
  exact ⟨⟨hitems, hP.merge (hstart.span hP) (hend.previousSpan hP)⟩,
    (allMarked_faultsFrom h htext).append hfaults⟩

end ChipLogic.Hdl
