import ChipLogic.Hdl.Parser

/-!
# The names and numbers of a tree

Whatever a text is like, the names in its tree are words of it and the numbers are below 2^32. Both
are told by one predicate on trees, `Plain W`: every name has the property `W` and every number is
small. If all identifiers before a cursor have the property (`Cursor.Spells`), then so have all
names in what is read there (`Rule.Yields`), with or without faults.

Identifiers are pieces of the text (`spells_lex`), and a text of `n` characters has at most `n`
pieces (`Piece.length_split_le`).
-/

namespace ChipLogic.Hdl

variable {W : String → Prop}

/-! ## Plain trees -/

def PinNode.Plain (W : String → Prop) (p : PinNode) : Prop :=
  W p.name ∧ ∀ n, p.width = some n → n < UInt32.size

def RefNode.Plain (W : String → Prop) (r : RefNode) : Prop :=
  W r.name ∧ ∀ range, r.range = some range → range.first < UInt32.size ∧ range.last < UInt32.size

def BindingNode.Plain (W : String → Prop) (b : BindingNode) : Prop :=
  b.inner.Plain W ∧ b.outer.Plain W

def PartNode.Plain (W : String → Prop) (p : PartNode) : Prop :=
  W p.chip ∧ ∀ b ∈ p.bindings, b.Plain W

/-- The names of a chip have a property, and the numbers in it are below 2^32. -/
structure ChipNode.Plain (W : String → Prop) (c : ChipNode) : Prop where
  name : W c.name
  inputs : ∀ p ∈ c.inputs, p.Plain W
  outputs : ∀ p ∈ c.outputs, p.Plain W
  parts : ∀ p ∈ c.parts, p.Plain W

/-! ## Rules -/

/-- All identifiers from the cursor on have a property. -/
def Cursor.Spells (W : String → Prop) (c : Cursor) : Prop :=
  ∀ t ∈ c.rest, t.kind = .identifier → W t.text

theorem Cursor.Spells.of_suffix {c c' : Cursor} (h : c.Spells W) (hs : c'.rest <:+ c.rest) :
    c'.Spells W :=
  fun t ht => h t (hs.subset ht)

namespace Rule

variable {α β : Type} {Q : α → Prop} {Q' : β → Prop}

/-- What a rule reads has the property `Q` if all identifiers have the property `W`. -/
structure Yields (W : String → Prop) (Q : α → Prop) (r : Rule α) : Prop where
  ok : ∀ {c a c'}, c.Spells W → r c = .ok (a, c') → Q a

theorem Yields.pure {a : α} (h : Q a) : Yields W Q (Pure.pure a : Rule α) where
  ok _ he := by
    obtain ⟨rfl, -⟩ := Prod.mk.inj (Except.ok.inj he)
    exact h

theorem Yields.bind {r : Rule α} {f : α → Rule β} (hr : Yields W Q r) (hf : Forward r)
    (h : ∀ a, Q a → Yields W Q' (f a)) : Yields W Q' (r >>= f) where
  ok := by
    intro c b c' hc he
    rw [bind_apply] at he
    split at he
    · cases he
    · next a c₁ h₁ => exact (h a (hr.ok hc h₁)).ok (hc.of_suffix (hf.ok h₁)) he

/-- A rule whose reading does not matter. -/
theorem Yields.skip {r : Rule α} {f : α → Rule β} (hf : Forward r) (h : ∀ a, Yields W Q' (f a)) :
    Yields W Q' (r >>= f) :=
  have hr : Yields W (fun _ => True) r := ⟨fun _ _ => trivial⟩
  hr.bind hf fun a _ => h a

theorem Yields.ifNext {kind : Kind} {r : Span → Rule α} {otherwise : Rule α}
    (hr : ∀ span, Yields W Q (r span)) (ho : Yields W Q otherwise) :
    Yields W Q (Rule.ifNext kind r otherwise) where
  ok := by
    intro c a c' hc he
    unfold Rule.ifNext at he
    split at he
    · exact (hr _).ok (hc.of_suffix c.rest_advance_suffix) he
    · exact ho.ok hc he

theorem Yields.name : Yields W (fun a => W a.1) Rule.name where
  ok := by
    intro c a c' hc he
    unfold Rule.name at he
    split at he
    · next hk =>
      obtain ⟨rfl, -⟩ := Prod.mk.inj (Except.ok.inj he)
      obtain ⟨previous, rest⟩ := c
      cases rest with
      | nil => cases hk
      | cons t rest => exact hc t List.mem_cons_self hk
    · cases he

theorem Yields.number : Yields W (· < UInt32.size) Rule.number where
  ok := by
    intro c n c' _ he
    unfold Rule.number at he
    split at he
    · split at he
      · next hn =>
        obtain ⟨rfl, -⟩ := Prod.mk.inj (Except.ok.inj he)
        simpa using (Option.mem_filter_iff.1 hn).2
      · cases he
    · cases he

theorem Yields.width : Yields W (fun w => ∀ n, w = some n → n < UInt32.size) Rule.width :=
  .ifNext
    (fun _ => .bind .number .number fun n hn => .skip (.token _) fun _ =>
      .pure fun m hm => Option.some.inj hm ▸ hn)
    (.pure fun _ hn => by cases hn)

theorem Yields.range : Yields W
    (fun r => ∀ range, r = some range → range.first < UInt32.size ∧ range.last < UInt32.size)
      Rule.range :=
  .ifNext
    (fun _ => .bind .number .number fun first hf =>
      .bind (.ifNext (fun _ => .number) (.pure hf)) (.ifNext (fun _ => .number) (.pure _))
        fun last hl => .skip (.token _) fun _ =>
          .pure fun range hr => Option.some.inj hr ▸ ⟨hf, hl⟩)
    (.pure fun _ hr => by cases hr)

theorem Yields.pin : Yields W (PinNode.Plain W) Rule.pin :=
  .bind .name .name fun _ hn => .bind .width .width fun _ hw =>
    .skip .previousSpan fun _ => .pure ⟨hn, hw⟩

theorem Yields.ref : Yields W (RefNode.Plain W) Rule.ref :=
  .bind .name .name fun _ hn => .bind .range .range fun _ hr =>
    .skip .previousSpan fun _ => .pure ⟨hn, hr⟩

theorem Yields.binding : Yields W (BindingNode.Plain W) Rule.binding :=
  .bind .ref .ref fun _ hi => .skip (.token _) fun _ =>
    .bind .ref .ref fun _ ho => .pure ⟨hi, ho⟩

theorem Yields.bindings :
    Yields W (fun bs => ∀ b ∈ bs, BindingNode.Plain W b) Rule.bindings where
  ok := by
    intro c bs c' hc he
    fun_induction Rule.bindings c generalizing bs c' with
    | case1 => cases he
    | case2 => cases he
    | case3 c b c₁ hb hk bs' c₂ hbs ih =>
      obtain ⟨rfl, -⟩ := Prod.mk.inj (Except.ok.inj he)
      have hc₁ := hc.of_suffix (Forward.binding.ok hb)
      exact List.forall_mem_cons.2
        ⟨binding.ok hc hb, ih (hc₁.of_suffix c₁.rest_advance_suffix) hbs⟩
    | case4 c b c₁ hb =>
      obtain ⟨rfl, -⟩ := Prod.mk.inj (Except.ok.inj he)
      exact List.forall_mem_singleton.2 (binding.ok hc hb)

theorem Yields.arguments :
    Yields W (fun bs => ∀ b ∈ bs, BindingNode.Plain W b) Rule.arguments where
  ok := by
    intro c bs c' hc he
    unfold Rule.arguments at he
    split at he
    · obtain ⟨rfl, -⟩ := Prod.mk.inj (Except.ok.inj he)
      exact List.forall_mem_nil _
    · exact bindings.ok hc he

theorem Yields.part : Yields W (PartNode.Plain W) Rule.part :=
  .bind .name .name fun _ hn => .skip (.token _) fun _ =>
    .bind .arguments .arguments fun _ hb => .skip (.token _) fun _ =>
      .skip (.token _) fun _ => .pure ⟨hn, hb⟩

theorem Yields.header : Yields W (fun a => W a.2.1) Rule.header :=
  .skip (.token _) fun _ => .bind .name .name fun _ hn => .skip (.token _) fun _ => .pure hn

end Rule

/-! ## Lists with recovery -/

theorem plain_pinList {c : Cursor} (hc : c.Spells W) : ∀ p ∈ (pinList c).value, p.Plain W := by
  fun_induction pinList c with
  | case1 => exact List.forall_mem_nil _
  | case2 c p c₁ h hk _ ih =>
    have hc₁ := (hc.of_suffix (Rule.Forward.pin.ok h)).of_suffix c₁.rest_advance_suffix
    exact List.forall_mem_cons.2 ⟨Rule.Yields.pin.ok hc h, ih hc₁⟩
  | case3 c p c₁ h => exact List.forall_mem_singleton.2 (Rule.Yields.pin.ok hc h)
  | case4 c p c₁ h => exact List.forall_mem_singleton.2 (Rule.Yields.pin.ok hc h)

theorem plain_partList {c : Cursor} (hc : c.Spells W) : ∀ p ∈ (partList c).value, p.Plain W := by
  fun_induction partList c with
  | case1 => exact List.forall_mem_nil _
  | case2 c hk f h _ ih =>
    exact ih ((hc.of_suffix (Rule.Forward.part.error h)).of_suffix (skipStatement_suffix _ _))
  | case3 c hk p c₁ h _ ih =>
    exact List.forall_mem_cons.2
      ⟨Rule.Yields.part.ok hc h, ih (hc.of_suffix (Rule.Forward.part.ok h))⟩

theorem plain_partSection {c : Cursor} (hc : c.Spells W) :
    ∀ p ∈ (partSection c).value, p.Plain W := by
  unfold partSection
  split
  · exact List.forall_mem_nil _
  · next h => exact plain_partList (hc.of_suffix ((Rule.Forward.token _).ok h))

/-- The sections of a chip with plain names. -/
structure Sections.Plain (W : String → Prop) (s : Sections) : Prop where
  inputs : ∀ p ∈ s.inputs, p.Plain W
  outputs : ∀ p ∈ s.outputs, p.Plain W
  parts : ∀ p ∈ s.parts, p.Plain W

theorem plain_sections {c : Cursor} (hc : c.Spells W) : (sections c).value.Plain W := by
  fun_induction sections c with
  | case1 => exact ⟨List.forall_mem_nil _, List.forall_mem_nil _, List.forall_mem_nil _⟩
  | case2 c h hk pins more ih =>
    have hc₁ := hc.of_suffix c.rest_advance_suffix
    obtain ⟨hi, ho, hp⟩ := ih (hc₁.of_suffix (pinList_suffix _))
    exact ⟨List.forall_mem_append.2 ⟨plain_pinList hc₁, hi⟩, ho, hp⟩
  | case3 c h hn hk pins more ih =>
    have hc₁ := hc.of_suffix c.rest_advance_suffix
    obtain ⟨hi, ho, hp⟩ := ih (hc₁.of_suffix (pinList_suffix _))
    exact ⟨hi, List.forall_mem_append.2 ⟨plain_pinList hc₁, ho⟩, hp⟩
  | case4 c h hn hn' hk parts more ih =>
    have hc₁ := hc.of_suffix c.rest_advance_suffix
    obtain ⟨hi, ho, hp⟩ := ih (hc₁.of_suffix (partSection_suffix _))
    exact ⟨hi, ho, List.forall_mem_append.2 ⟨plain_partSection hc₁, hp⟩⟩
  | case5 c h hn hn' hn'' more ih =>
    exact ih ((hc.of_suffix c.rest_advance_suffix).of_suffix (skipToSection_suffix _ _))

theorem plain_chip {c : Cursor} (hc : c.Spells W) {node : ChipNode}
    (h : (chip c).value = some node) : node.Plain W := by
  unfold chip at h
  split at h
  · cases h
  · next start name nameSpan c₁ hh =>
    have hbody := plain_sections (hc.of_suffix (Rule.Forward.header.ok hh))
    dsimp only at h
    split at h
    · cases h
    · cases h
      exact ⟨Rule.Yields.header.ok hc hh, hbody.inputs, hbody.outputs, hbody.parts⟩

theorem plain_items {c : Cursor} (hc : c.Spells W) :
    ∀ node ∈ (items c).value.filterMap Item.chip?, node.Plain W := by
  fun_induction items c with
  | case1 => exact List.forall_mem_nil _
  | case2 c _ _ one node h more ih =>
    exact List.forall_mem_cons.2 ⟨plain_chip hc h, ih (hc.of_suffix (chip_suffix c))⟩
  | case3 c _ _ one h more ih =>
    exact ih ((hc.of_suffix (chip_suffix c)).of_suffix (skipToChip_suffix _ _))
  | case4 c _ _ more ih => exact ih (hc.of_suffix (skipToChip_suffix _ _))

/-! ## Texts -/

theorem Piece.length_split_le (cs : List Char) : (Piece.split cs).length ≤ cs.length := by
  fun_induction Piece.split cs with
  | case1 => exact Nat.le_refl _
  | case2 c cs ih => exact Nat.succ_le_succ (Nat.le_trans ih (length_first_le c cs))

theorem exists_piece_of_mem_tokensFrom {file : Option Nat} {offset : Nat} {pieces : List Piece}
    {t : Token} (ht : t ∈ tokensFrom file offset pieces) (hk : t.kind ≠ .endOfFile) :
    ∃ text, .token t.kind text ∈ pieces ∧ t.text = String.ofList text := by
  fun_induction tokensFrom file offset pieces with
  | case1 =>
    rw [List.mem_singleton] at ht
    exact absurd (ht ▸ rfl) hk
  | case2 offset pieces kind text stop ih =>
    rcases List.mem_cons.1 ht with rfl | ht
    · exact ⟨text, List.mem_cons_self, rfl⟩
    · obtain ⟨text', hm, he⟩ := ih ht
      exact ⟨text', List.mem_cons_of_mem _ hm, he⟩
  | case3 offset piece pieces stop h ih =>
    obtain ⟨text', hm, he⟩ := ih ht
    exact ⟨text', List.mem_cons_of_mem _ hm, he⟩

/-- The identifiers of a text are pieces of it. -/
theorem spells_lex (file : Option Nat) (text : String) :
    Cursor.Spells
      (fun name => ∃ word, .token .identifier word ∈ Piece.split text.toList ∧
        name = String.ofList word)
      ⟨none, (lex file text).tokens⟩ := by
  intro t ht hk
  obtain ⟨word, hm, he⟩ := exists_piece_of_mem_tokensFrom ht (by rw [hk]; decide)
  exact ⟨word, hk ▸ hm, he⟩

/-- **The names of a text's chips are words of the text.** -/
theorem plain_parse (file : Option Nat) (text : String) :
    ∀ node ∈ (parse file text).document.chips, node.Plain fun name =>
      ∃ word, .token .identifier word ∈ Piece.split text.toList ∧ name = String.ofList word :=
  plain_items (spells_lex file text)

end ChipLogic.Hdl
