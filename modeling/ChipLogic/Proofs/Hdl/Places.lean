import ChipLogic.Proofs.Hdl.Spelling

/-!
# No two parts of a text start at one place

A part starts where its first token starts, and tokens start one after the other
(`ordered_lex`). Reading goes forward, so the parts that are read on the way from one cursor to
another start at different tokens between them (`Passes`). All parts of a text therefore start at
different places of its file (`nodup_places_parse`).
-/

namespace ChipLogic

/-- The file and the byte at which a span starts. -/
def Span.place (s : Span) : Option Nat × Nat := (s.file, s.start)

namespace Hdl

/-- The parts of all chips of a document. -/
def Document.parts (d : Document) : List PartNode :=
  d.chips.flatMap ChipNode.parts

/-! ## Tokens in order -/

/-- Tokens of one file, each starting after the one before. -/
def Ordered (n : Nat) (ts : List Token) : Prop :=
  (∀ t ∈ ts, t.span.file = some n) ∧ ts.Pairwise fun t u => t.span.start < u.span.start

theorem Ordered.of_suffix {n : Nat} {ts ts' : List Token} (h : Ordered n ts) (hs : ts' <:+ ts) :
    Ordered n ts' :=
  ⟨fun t ht => h.1 t (hs.subset ht), h.2.sublist hs.sublist⟩

theorem byteLength_pos {cs : List Char} (h : cs ≠ []) : 0 < byteLength cs := by
  cases cs with
  | nil => exact absurd rfl h
  | cons c cs =>
    rw [byteLength]
    have := c.utf8Size_pos
    omega

theorem Piece.text_ne_nil_of_mem_split {cs : List Char} {p : Piece} (hp : p ∈ split cs) :
    p.text ≠ [] := by
  fun_induction split cs with
  | case1 => cases hp
  | case2 c cs ih =>
    rcases List.mem_cons.1 hp with rfl | hp
    · exact text_first_ne_nil c cs
    · exact ih hp

theorem le_start_of_mem_tokensFrom {file : Option Nat} {offset : Nat} {pieces : List Piece}
    {t : Token} (ht : t ∈ tokensFrom file offset pieces) :
    t.span.file = file ∧ offset ≤ t.span.start := by
  fun_induction tokensFrom file offset pieces with
  | case1 => rw [List.mem_singleton.1 ht]; exact ⟨rfl, Nat.le_refl _⟩
  | case2 offset pieces kind text stop ih =>
    rcases List.mem_cons.1 ht with rfl | ht
    · exact ⟨rfl, Nat.le_refl _⟩
    · exact ⟨(ih ht).1, Nat.le_trans (Nat.le_add_right _ _) (ih ht).2⟩
  | case3 offset piece pieces stop h ih =>
    exact ⟨(ih ht).1, Nat.le_trans (Nat.le_add_right _ _) (ih ht).2⟩

theorem ordered_tokensFrom (n offset : Nat) {pieces : List Piece}
    (h : ∀ p ∈ pieces, p.text ≠ []) : Ordered n (tokensFrom (some n) offset pieces) := by
  refine ⟨fun t ht => (le_start_of_mem_tokensFrom ht).1, ?_⟩
  induction pieces generalizing offset with
  | nil => exact List.pairwise_singleton _ _
  | cons piece pieces ih =>
    obtain ⟨hne, hrest⟩ := List.forall_mem_cons.1 h
    have hlt := byteLength_pos hne
    unfold tokensFrom
    dsimp only
    split
    · refine List.pairwise_cons.2 ⟨fun t ht => ?_, ih _ hrest⟩
      have := (le_start_of_mem_tokensFrom ht).2
      dsimp only
      omega
    · exact ih _ hrest

theorem ordered_lex (n : Nat) (text : String) : Ordered n (lex (some n) text).tokens :=
  ordered_tokensFrom n 0 fun _ => Piece.text_ne_nil_of_mem_split

/-! ## Parts on the way -/

/-- Parts read between two cursors start at different tokens between them. -/
def Passes (c c' : Cursor) (parts : List PartNode) : Prop :=
  ∃ taken, c.rest = taken ++ c'.rest ∧
    (parts.map (·.span.place)).Sublist (taken.map (·.span.place))

namespace Passes

variable {c c' c'' : Cursor} {parts parts' : List PartNode}

theorem of_suffix (h : c'.rest <:+ c.rest) : Passes c c' [] := by
  obtain ⟨taken, he⟩ := h
  exact ⟨taken, he.symm, List.nil_sublist _⟩

theorem suffix (h : Passes c c' parts) : c'.rest <:+ c.rest := by
  obtain ⟨taken, he, -⟩ := h
  exact ⟨taken, he.symm⟩

theorem append (h : Passes c c' parts) (h' : Passes c' c'' parts') :
    Passes c c'' (parts ++ parts') := by
  obtain ⟨taken, he, hs⟩ := h
  obtain ⟨taken', he', hs'⟩ := h'
  refine ⟨taken ++ taken', by rw [he, he', List.append_assoc], ?_⟩
  rw [List.map_append, List.map_append]
  exact hs.append hs'

/-- Reading on without a part. -/
theorem skip (hs : c'.rest <:+ c.rest) (h : Passes c' c'' parts) : Passes c c'' parts :=
  (of_suffix hs).append h

end Passes

/-- A merged span starts where the first span does. -/
theorem place_merge {a b : Span} {n : Nat} (ha : a.file = some n) (hb : b.file = some n)
    (hle : a.start ≤ b.start) : (a.merge b).place = a.place := by
  simp [Span.merge, Span.place, ha, hb, Nat.min_eq_left hle]

namespace Rule

variable {α β : Type}

theorem bind_eq_ok {r : Rule α} {f : α → Rule β} {c c' : Cursor} {b : β}
    (h : (r >>= f) c = .ok (b, c')) : ∃ a c₁, r c = .ok (a, c₁) ∧ f a c₁ = .ok (b, c') := by
  rw [bind_apply] at h
  split at h
  · cases h
  · next a c₁ h₁ => exact ⟨a, c₁, h₁, h⟩

theorem token_eq_ok {kind : Kind} {c c' : Cursor} {span : Span}
    (h : Rule.token kind c = .ok (span, c')) : c.kind = kind ∧ span = c.span := by
  unfold Rule.token at h
  split at h
  · next hk => exact ⟨hk, (Prod.mk.inj (Except.ok.inj h)).1.symm⟩
  · cases h

theorem name_eq_ok {c c' : Cursor} {name : String} {span : Span}
    (h : Rule.name c = .ok ((name, span), c')) :
    c.kind = .identifier ∧ name = c.text ∧ span = c.span := by
  unfold Rule.name at h
  split at h
  · next hk =>
    obtain ⟨he, -⟩ := Prod.mk.inj (Except.ok.inj h)
    obtain ⟨rfl, rfl⟩ := Prod.mk.inj he
    exact ⟨hk, rfl, rfl⟩
  · cases h

/-- The span of a part reaches from its name to its semicolon. -/
theorem span_of_part {t : Token} {previous : Option Span} {rest : List Token} {c' : Cursor}
    {p : PartNode} (h : Rule.part ⟨previous, t :: rest⟩ = .ok (p, c')) :
    ∃ u ∈ t :: rest, p.span = t.span.merge u.span := by
  unfold Rule.part at h
  obtain ⟨⟨name, start⟩, c₁, h₁, h⟩ := bind_eq_ok h
  obtain ⟨_, c₂, h₂, h⟩ := bind_eq_ok h
  obtain ⟨bindings, c₃, h₃, h⟩ := bind_eq_ok h
  obtain ⟨_, c₄, h₄, h⟩ := bind_eq_ok h
  obtain ⟨stop, c₅, h₅, h⟩ := bind_eq_ok h
  obtain ⟨rfl, -⟩ := Prod.mk.inj (Except.ok.inj h)
  obtain ⟨-, -, rfl⟩ := name_eq_ok h₁
  obtain ⟨hk, rfl⟩ := token_eq_ok h₅
  have hs := (((Forward.token _).ok h₄).trans (Forward.arguments.ok h₃)).trans
    (((Forward.token _).ok h₂).trans (Forward.name.ok h₁))
  obtain ⟨previous₄, rest₄⟩ := c₄
  cases rest₄ with
  | nil => cases hk
  | cons u rest₄ => exact ⟨u, hs.subset List.mem_cons_self, rfl⟩

end Rule

/-- **A part starts at its first token.** -/
theorem passes_part {n : Nat} {c c' : Cursor} {p : PartNode} (hc : Ordered n c.rest)
    (h : Rule.part c = .ok (p, c')) : Passes c c' [p] := by
  obtain ⟨taken, he⟩ := Rule.Forward.part.ok h
  have hlt := Rule.Consumes.part.ok h
  cases taken with
  | nil => simp [← he] at hlt
  | cons t taken =>
    obtain ⟨previous, rest⟩ := c
    obtain rfl : t :: (taken ++ c'.rest) = rest := he
    obtain ⟨u, hu, hp⟩ := Rule.span_of_part h
    have hplace : p.span.place = t.span.place := by
      rw [hp]
      refine place_merge (hc.1 t List.mem_cons_self) (hc.1 u hu) ?_
      rcases List.mem_cons.1 hu with rfl | hu
      · exact Nat.le_refl _
      · exact Nat.le_of_lt ((List.pairwise_cons.1 hc.2).1 u hu)
    exact ⟨t :: taken, rfl, by simp [hplace]⟩

theorem passes_partList {n : Nat} {c : Cursor} (hc : Ordered n c.rest) :
    Passes c (partList c).cursor (partList c).value := by
  fun_induction partList c with
  | case1 => exact .of_suffix (List.suffix_refl _)
  | case2 c hk f h _ ih =>
    have hs := (skipStatement_suffix f.cursor.previous _).trans (Rule.Forward.part.error h)
    exact .skip hs (ih (hc.of_suffix hs))
  | case3 c hk p c₁ h _ ih =>
    exact (passes_part hc h).append (ih (hc.of_suffix (Rule.Forward.part.ok h)))

theorem passes_partSection {n : Nat} {c : Cursor} (hc : Ordered n c.rest) :
    Passes c (partSection c).cursor (partSection c).value := by
  unfold partSection
  split
  · next h =>
    exact .of_suffix ((skipToSection_suffix _ _).trans ((Rule.Forward.token _).error h))
  · next h =>
    have hs := (Rule.Forward.token _).ok h
    exact .skip hs (passes_partList (hc.of_suffix hs))

theorem passes_sections {n : Nat} {c : Cursor} (hc : Ordered n c.rest) :
    Passes c (sections c).cursor (sections c).value.parts := by
  fun_induction sections c with
  | case1 => exact .of_suffix (List.suffix_refl _)
  | case2 c h hk pins more ih =>
    have hs := (pinList_suffix c.advance).trans c.rest_advance_suffix
    exact .skip hs (ih (hc.of_suffix hs))
  | case3 c h hn hk pins more ih =>
    have hs := (pinList_suffix c.advance).trans c.rest_advance_suffix
    exact .skip hs (ih (hc.of_suffix hs))
  | case4 c h hn hn' hk parts more ih =>
    have hs := c.rest_advance_suffix
    have hparts := passes_partSection (hc.of_suffix hs)
    exact .skip hs (hparts.append (ih (hc.of_suffix (hparts.suffix.trans hs))))
  | case5 c h hn hn' hn'' more ih =>
    have hs := (skipToSection_suffix c.advance.previous c.advance.rest).trans c.rest_advance_suffix
    exact .skip hs (ih (hc.of_suffix hs))

theorem passes_chip {n : Nat} {c : Cursor} (hc : Ordered n c.rest) {node : ChipNode}
    (h : (chip c).value = some node) : Passes c (chip c).cursor node.parts := by
  unfold chip at h ⊢
  split at h
  · cases h
  · next hh =>
    have hs := Rule.Forward.header.ok hh
    have hbody := passes_sections (hc.of_suffix hs)
    dsimp only at h ⊢
    split at h
    · cases h
    · next ht =>
      cases h
      have hend := Passes.of_suffix ((Rule.Forward.token _).ok ht)
      simpa [ht] using Passes.skip hs (hbody.append hend)

theorem passes_items {n : Nat} {c : Cursor} (hc : Ordered n c.rest) :
    Passes c (items c).cursor
      (((items c).value.filterMap Item.chip?).flatMap ChipNode.parts) := by
  fun_induction items c with
  | case1 => exact .of_suffix (List.suffix_refl _)
  | case2 c _ _ one node h more ih =>
    exact (passes_chip hc h).append (ih (hc.of_suffix (chip_suffix c)))
  | case3 c _ _ one h more ih =>
    have hs := (skipToChip_suffix one.cursor.previous one.cursor.rest).trans (chip_suffix c)
    exact .skip hs (ih (hc.of_suffix hs))
  | case4 c _ _ more ih =>
    have hs := skipToChip_suffix c.previous c.rest
    exact .skip hs (ih (hc.of_suffix hs))

/-! ## Texts -/

/-- **All parts of a text start at different places of its file.** -/
theorem nodup_places_parse (n : Nat) (text : String) :
    ((parse (some n) text).document.parts.map (·.span.place)).Nodup ∧
      ∀ p ∈ (parse (some n) text).document.parts, p.span.file = some n := by
  have hordered := ordered_lex n text
  obtain ⟨taken, he, hs⟩ := passes_items (c := ⟨none, (lex (some n) text).tokens⟩) hordered
  dsimp only at he
  have htaken : Ordered n taken := by
    refine ⟨fun t ht => hordered.1 t ?_, hordered.2.sublist ?_⟩
    · rw [he]; exact List.mem_append_left _ ht
    · rw [he]; exact List.sublist_append_left _ _
  constructor
  · refine hs.nodup (List.pairwise_map.2 (htaken.2.imp fun hlt he => ?_))
    rw [Span.place, Span.place, Prod.mk.injEq] at he
    omega
  · intro p hp
    have hmem := hs.subset (List.mem_map_of_mem hp)
    obtain ⟨t, ht, hpt⟩ := List.mem_map.1 hmem
    rw [Span.place, Span.place, Prod.mk.injEq] at hpt
    rw [← hpt.1, htaken.1 t ht]

end Hdl

end ChipLogic
