import ChipLogic.Proofs.Hdl.Language

/-!
# What the grammar derives is read

What a rule reads from tokens does not depend on where they stand, only on their words. A rule
**accepts** words (`Rule.Accepts`) if it reads them, and no more, wherever they come next. The word
after them matters to rules that look ahead: a `[` would go on with a name, and a comma with a list.

From the rules for pins, references, bindings and parts follows the parser of a whole text: **what a
text declares is read without a fault, and nothing else is** (`clean_parse`).
-/

namespace ChipLogic.Hdl

/-! ## Tokens without places -/

/-- The words from the cursor on. -/
def Cursor.words (c : Cursor) : List Word :=
  c.rest.map fun t => (t.kind, t.text)

theorem Cursor.kind_eq (c : Cursor) : c.kind = nextKind c.words := by
  obtain ⟨previous, rest⟩ := c
  cases rest <;> rfl

theorem Cursor.of_words_cons {c : Cursor} {kind : Kind} {text : String} {rest : List Word}
    (h : c.words = (kind, text) :: rest) (hk : kind ≠ .endOfFile) :
    c.kind = kind ∧ c.text = text ∧ c.advance.words = rest := by
  obtain ⟨previous, ts⟩ := c
  cases ts with
  | nil => cases h
  | cons t ts =>
    obtain ⟨ht, rfl⟩ := List.cons.inj h
    obtain ⟨rfl, rfl⟩ := Prod.mk.inj ht
    exact ⟨rfl, rfl, by simp [advance, hk, words]⟩

theorem words_tokensFrom (file : Option Nat) (offset : Nat) (ps : List Piece) :
    (tokensFrom file offset ps).map (fun t => (t.kind, t.text)) =
      words ps ++ [(.endOfFile, "")] := by
  fun_induction tokensFrom file offset ps with
  | case1 => rfl
  | case2 offset ps kind text stop ih => simp [words, Piece.token?] at ih ⊢; exact ih
  | case3 offset piece ps stop h ih =>
    cases piece with
    | token kind text => exact absurd rfl (h kind text)
    | _ => exact ih

/-- The lexer reports the pieces at fault. -/
theorem faultsFrom_eq_nil_iff {file : Option Nat} {offset : Nat} {ps : List Piece} :
    faultsFrom file offset ps = [] ↔ ∀ p ∈ ps, p.isFine := by
  fun_induction faultsFrom file offset ps with
  | case1 => simp
  | case2 => simp [Piece.isFine]
  | case3 => simp [Piece.isFine]
  | case4 offset piece ps stop hinvalid hopen ih =>
    have hfine : piece.isFine = true := by
      unfold Piece.isFine
      split
      · next text => exact absurd rfl (hopen text)
      · next text => exact absurd rfl (hinvalid text)
      · rfl
    simp [ih, hfine]

/-! ## Rules -/

namespace Rule

variable {α β : Type} {ws us vs : List Word} {next next' : Kind → Prop} {Q : α → Prop}
  {Q' : β → Prop} {text : String}

/-- Where the words come next, and then one of a kind in `next`, the rule reads them and gives a
value with the property `Q`. -/
structure Accepts (ws : List Word) (next : Kind → Prop) (Q : α → Prop) (r : Rule α) : Prop where
  ok : ∀ c rest, c.words = ws ++ rest → next (nextKind rest) →
    ∃ a c', r c = .ok (a, c') ∧ c'.words = rest ∧ Q a

theorem Accepts.pure {a : α} (h : Q a) : Accepts [] next Q (Pure.pure a : Rule α) where
  ok c _ hc _ := ⟨a, c, rfl, hc, h⟩

theorem Accepts.bind {r : Rule α} {f : α → Rule β} (hr : Accepts us next Q r)
    (hf : ∀ a, Q a → Accepts vs next' Q' (f a))
    (hn : ∀ rest, next' (nextKind rest) → next (nextKind (vs ++ rest))) :
    Accepts (us ++ vs) next' Q' (r >>= f) where
  ok c rest hc hnext := by
    rw [List.append_assoc] at hc
    obtain ⟨a, c₁, hok, hc₁, ha⟩ := hr.ok c _ hc (hn rest hnext)
    obtain ⟨b, c₂, hok', hc₂, hb⟩ := (hf a ha).ok c₁ rest hc₁ hnext
    exact ⟨b, c₂, by rw [bind_apply, hok]; exact hok', hc₂, hb⟩

/-- A rule that does not look ahead. -/
theorem Accepts.then {w : Word} {r : Rule α} {f : α → Rule β}
    (hr : Accepts [w] (fun _ => True) Q r) (hf : ∀ a, Q a → Accepts vs next' Q' (f a)) :
    Accepts (w :: vs) next' Q' (r >>= f) :=
  hr.bind hf fun _ _ => trivial

/-- A rule that is followed by rules that read nothing. -/
theorem Accepts.last {r : Rule α} {f : α → Rule β} (hr : Accepts ws next Q r)
    (hf : ∀ a, Q a → Accepts [] next Q' (f a)) : Accepts ws next Q' (r >>= f) := by
  have := hr.bind hf fun _ hn => hn
  rwa [List.append_nil] at this

theorem Accepts.token {kind : Kind} (hk : kind ≠ .endOfFile) :
    Accepts [(kind, text)] (fun _ => True) (fun _ => True) (Rule.token kind) where
  ok c rest hc _ := by
    obtain ⟨hkind, -, hrest⟩ := Cursor.of_words_cons hc hk
    exact ⟨c.span, c.advance, by simp [Rule.token, hkind], hrest, trivial⟩

theorem Accepts.name :
    Accepts [(.identifier, text)] (fun _ => True) (fun a => a.1 = text) Rule.name where
  ok c rest hc _ := by
    obtain ⟨hkind, htext, hrest⟩ := Cursor.of_words_cons hc (by decide)
    exact ⟨(c.text, c.span), c.advance, by simp [Rule.name, hkind], hrest, htext⟩

theorem Accepts.previousSpan :
    Accepts [] next (fun _ => True) Rule.previousSpan where
  ok c _ hc _ := ⟨_, c, rfl, hc, trivial⟩

theorem Accepts.ifNext {kind : Kind} (hk : kind ≠ .endOfFile) {r : Span → Rule α}
    {otherwise : Rule α} (h : ∀ span, Accepts ws next Q (r span)) :
    Accepts ((kind, text) :: ws) next Q (Rule.ifNext kind r otherwise) where
  ok c rest hc hnext := by
    obtain ⟨hkind, -, hrest⟩ := Cursor.of_words_cons hc hk
    obtain ⟨a, c', hok, hc'⟩ := (h c.span).ok c.advance rest hrest hnext
    exact ⟨a, c', by simpa [Rule.ifNext, hkind] using hok, hc'⟩

theorem Accepts.otherwise {kind : Kind} {r : Span → Rule α} {otherwise : Rule α}
    (h : Accepts ws next Q otherwise)
    (hn : ∀ rest, next (nextKind rest) → nextKind (ws ++ rest) ≠ kind) :
    Accepts ws next Q (Rule.ifNext kind r otherwise) where
  ok c rest hc hnext := by
    obtain ⟨a, c', hok, hc'⟩ := h.ok c rest hc hnext
    have hkind : c.kind ≠ kind := by
      rw [c.kind_eq, hc]
      exact hn rest hnext
    exact ⟨a, c', by simpa [Rule.ifNext, hkind] using hok, hc'⟩

theorem Accepts.number {n : Nat} (h : IsNumber text n) :
    Accepts [(.number, text)] (fun _ => True) (· = n) Rule.number where
  ok c rest hc _ := by
    obtain ⟨hkind, htext, hrest⟩ := Cursor.of_words_cons hc (by decide)
    have hread := isNumber_iff.1 (htext ▸ h)
    exact ⟨n, c.advance, by simp only [Rule.number, hkind, hread, if_true], hrest, rfl⟩

/-! ## Pins and parts -/

theorem Accepts.width {width : Option Nat} (h : IsWidth ws width) :
    Accepts ws (· ≠ .leftBracket) (· = width) Rule.width := by
  cases h with
  | none => exact .otherwise (.pure rfl) fun _ hn => hn
  | some number =>
    exact .ifNext (by decide) fun _ => .then (.number number) fun n hn =>
      .then (.token (by decide)) fun _ _ => .pure (congrArg some hn)

/-- A pin is followed by no bracket. -/
theorem Accepts.pin {p : PinNode} (h : IsPin ws p) :
    Accepts ws (· ≠ .leftBracket) (·.bare = p) Rule.pin := by
  obtain ⟨tail⟩ := h
  refine .then .name fun ⟨name, start⟩ hname => (Accepts.width tail).last fun width hwidth =>
    .last .previousSpan fun _ _ => .pure ?_
  rw [PinNode.bare, hwidth]
  exact congrArg (PinNode.mk · _ _) hname

theorem Accepts.range {range : Option RangeNode} (h : IsRange ws range) :
    Accepts ws (· ≠ .leftBracket) (·.map RangeNode.bare = range) Rule.range := by
  cases h with
  | none => exact .otherwise (.pure rfl) fun _ hn => hn
  | @bit a b numeral n number =>
    refine .ifNext (by decide) fun start => .then (.number number) fun first hf => ?_
    have hsame : Accepts [] (· ≠ .dotDot) (· = n)
        (Rule.ifNext .dotDot (fun _ => Rule.number) (Pure.pure first)) :=
      .otherwise (.pure hf) fun _ hn => hn
    refine hsame.bind (fun last hl => .then (.token (by decide)) fun _ _ => .pure ?_)
      fun _ _ => (by decide : Kind.rightBracket ≠ .dotDot)
    rw [hf, hl]
    rfl
  | @bits a b c numeral numeral' first' last' lower upper =>
    refine .ifNext (by decide) fun start => .then (.number lower) fun first hf => ?_
    have hother : Accepts [(.dotDot, b), (.number, numeral')] (fun _ => True) (· = last')
        (Rule.ifNext .dotDot (fun _ => Rule.number) (Pure.pure first)) :=
      .ifNext (by decide) fun _ => .number upper
    refine hother.bind (fun last hl => .then (.token (by decide)) fun _ _ => .pure ?_)
      fun _ _ => trivial
    rw [hf, hl]
    rfl

/-- A reference is followed by no bracket. -/
theorem Accepts.ref {r : RefNode} (h : IsRef ws r) :
    Accepts ws (· ≠ .leftBracket) (·.bare = r) Rule.ref := by
  obtain ⟨tail⟩ := h
  refine .then .name fun ⟨name, start⟩ hname => (Accepts.range tail).last fun range hrange =>
    .last .previousSpan fun _ _ => .pure ?_
  rw [RefNode.bare, hrange]
  exact congrArg (RefNode.mk · _ _) hname

theorem Accepts.binding {b : BindingNode} (h : IsBinding ws b) :
    Accepts ws (· ≠ .leftBracket) (·.bare = b) Rule.binding := by
  obtain ⟨left, right⟩ := h
  refine (Accepts.ref left).bind (fun inner hi => ?_) fun _ _ =>
    (by decide : Kind.equals ≠ .leftBracket)
  refine .then (.token (by decide)) fun _ _ => (Accepts.ref right).last fun outer ho => .pure ?_
  rw [BindingNode.bare, hi, ho]

/-- Bindings are followed by no comma. -/
theorem Accepts.bindings {bs : List BindingNode} (h : Listed IsBinding ws bs) :
    Accepts ws (fun kind => kind ≠ .leftBracket ∧ kind ≠ .comma)
      (·.map BindingNode.bare = bs) Rule.bindings where
  ok := by
    intro c rest hc hn
    induction h generalizing c with
    | one head =>
      obtain ⟨b, c₁, hb, hc₁, rfl⟩ := (Accepts.binding head).ok c rest hc hn.1
      have hkind : c₁.kind ≠ .comma := by
        rw [c₁.kind_eq, hc₁]
        exact hn.2
      exact ⟨[b], c₁, by rw [Rule.bindings, hb]; simp [hkind], hc₁, rfl⟩
    | more head tail ih =>
      rw [List.append_assoc] at hc
      obtain ⟨b, c₁, hb, hc₁, rfl⟩ := (Accepts.binding head).ok c _ hc
        (by decide : Kind.comma ≠ .leftBracket)
      obtain ⟨hkind, -, hc₁⟩ := Cursor.of_words_cons hc₁ (by decide)
      obtain ⟨bs, c₂, hbs, hc₂, rfl⟩ := ih c₁.advance hc₁
      exact ⟨b :: bs, c₂, by rw [Rule.bindings, hb]; simp [hkind, hbs], hc₂, rfl⟩

/-- Bindings start with a name. -/
theorem nextKind_of_listed {bs : List BindingNode} (h : Listed IsBinding ws bs) (rest : List Word) :
    nextKind (ws ++ rest) = .identifier := by
  cases h with
  | one head =>
    obtain ⟨⟨_⟩, _⟩ := head
    rfl
  | more head tail =>
    obtain ⟨⟨_⟩, _⟩ := head
    rfl

theorem Accepts.arguments {bs : List BindingNode} (h : IsArguments ws bs) :
    Accepts ws (· = .rightParen) (·.map BindingNode.bare = bs) Rule.arguments where
  ok c rest hc hn := by
    cases h with
    | none =>
      have hkind : c.kind = .rightParen := by rw [c.kind_eq, hc]; exact hn
      exact ⟨[], c, by simp [Rule.arguments, hkind], hc, rfl⟩
    | some all =>
      obtain ⟨bs', c', hbs, hc', hb⟩ := (Accepts.bindings all).ok c rest hc (by rw [hn]; decide)
      have hkind : c.kind = .identifier := by rw [c.kind_eq, hc, nextKind_of_listed all]
      exact ⟨bs', c', by rw [Rule.arguments, if_neg (by rw [hkind]; decide), hbs], hc', hb⟩

theorem Accepts.part {p : PartNode} (h : IsPart ws p) :
    Accepts ws (fun _ => True) (·.bare = p) Rule.part := by
  obtain ⟨arguments⟩ := h
  refine .then .name fun ⟨name, start⟩ hname => .then (.token (by decide)) fun _ _ => ?_
  refine (Accepts.arguments arguments).bind (fun bs hbs => ?_) fun _ _ => rfl
  refine .then (.token (by decide)) fun _ _ => .then (.token (by decide)) fun _ _ => .pure ?_
  rw [PartNode.bare, hbs]
  exact congrArg (PartNode.mk · _ _) hname

theorem Accepts.header {a b name : String} :
    Accepts [(.chip, a), (.identifier, name), (.leftBrace, b)] (fun _ => True)
      (fun x => x.2.1 = name) Rule.header :=
  .then (.token (by decide)) fun _ _ => .then .name fun _ hname =>
    .then (.token (by decide)) fun _ _ => .pure hname

end Rule

/-! ## Lists -/

variable {ws vs rest : List Word} {c : Cursor}

/-- The tokens up to `rest` are read without a fault and give a value with the property `Q`. -/
structure Reading.Clean {α : Type} (r : Reading α) (rest : List Word) (Q : α → Prop) : Prop where
  value : Q r.value
  faults : r.faults = []
  rest : r.cursor.words = rest

theorem clean_pinList {ps : List PinNode} (h : Listed IsPin ws ps) {text : String}
    (hc : c.words = ws ++ (.semicolon, text) :: rest) :
    (pinList c).Clean rest (·.map PinNode.bare = ps) := by
  induction h generalizing c with
  | one head =>
    obtain ⟨node, c₁, hp, hc₁, rfl⟩ := (Rule.Accepts.pin head).ok c _ hc
      (by decide : Kind.semicolon ≠ .leftBracket)
    obtain ⟨hkind, -, hrest⟩ := Cursor.of_words_cons hc₁ (by decide)
    have htoken : Rule.token .semicolon c₁ = .ok (c₁.span, c₁.advance) := by
      simp [Rule.token, hkind]
    rw [pinList, hp]
    simp only [hkind, htoken]
    exact ⟨rfl, rfl, hrest⟩
  | more head tail ih =>
    rw [List.append_assoc] at hc
    obtain ⟨node, c₁, hok, hc₁, rfl⟩ := (Rule.Accepts.pin head).ok c _ hc
      (by decide : Kind.comma ≠ .leftBracket)
    obtain ⟨hkind, -, hc₁⟩ := Cursor.of_words_cons hc₁ (by decide)
    obtain ⟨hvalue, hfaults, hrest⟩ := ih hc₁
    rw [pinList, hok]
    simp only [hkind, if_true]
    exact ⟨congrArg (_ :: ·) hvalue, hfaults, hrest⟩

theorem clean_partList {ps : List PartNode} (h : Star IsPart ws ps) (hc : c.words = ws ++ rest)
    (hrest : nextKind rest = .rightBrace) :
    (partList c).Clean rest (·.map PartNode.bare = ps) := by
  induction h generalizing c with
  | nil =>
    have hkind : c.kind = .rightBrace := by rw [c.kind_eq, hc]; exact hrest
    rw [partList, dif_pos (.inr hkind)]
    exact ⟨rfl, rfl, hc⟩
  | cons head tail ih =>
    rw [List.append_assoc] at hc
    obtain ⟨node, c₁, hok, hc₁, rfl⟩ := (Rule.Accepts.part head).ok c _ hc trivial
    have hkind : c.kind = .identifier := by
      obtain ⟨_⟩ := head
      rw [c.kind_eq, hc]
      rfl
    obtain ⟨hvalue, hfaults, hrest⟩ := ih hc₁
    rw [partList, dif_neg (by rw [hkind]; decide), hok]
    exact ⟨congrArg (_ :: ·) hvalue, hfaults, hrest⟩

/-! ## Chips -/

/-- The sections hold the given pins and parts. -/
structure Sections.Tells (s : Sections) (inputs outputs : List PinNode) (parts : List PartNode) :
    Prop where
  inputs : s.inputs.map PinNode.bare = inputs
  outputs : s.outputs.map PinNode.bare = outputs
  parts : s.parts.map PartNode.bare = parts

/-- After the parts comes the closing brace. -/
theorem clean_parts {parts : List PartNode} (h : IsParts ws parts) (hc : c.words = ws ++ rest)
    (hrest : nextKind rest = .rightBrace) : (sections c).Clean rest (·.Tells [] [] parts) := by
  have hend : ∀ {c : Cursor}, c.words = rest → sections c = ⟨{}, [], c⟩ := by
    intro c hc
    rw [sections, dif_pos]
    rw [c.kind_eq, hc, hrest]
    rfl
  cases h with
  | none =>
    rw [hend hc]
    exact ⟨⟨rfl, rfl, rfl⟩, rfl, hc⟩
  | some all =>
    obtain ⟨hkind, -, hc₁⟩ := Cursor.of_words_cons hc (by decide)
    obtain ⟨hkind₁, -, hc₂⟩ := Cursor.of_words_cons hc₁ (by decide)
    obtain ⟨hvalue, hfaults, hwords⟩ := clean_partList all hc₂ hrest
    have hsection : partSection c.advance = partList c.advance.advance := by
      simp [partSection, Rule.token, hkind₁]
    rw [sections, dif_neg (by rw [hkind]; decide)]
    simp only [hkind, hsection, hend hwords, reduceCtorEq, if_false, if_true]
    exact ⟨⟨rfl, rfl, by simpa using hvalue⟩, by simpa using hfaults, hwords⟩

theorem clean_sections {ss : List Sections} {parts : List PartNode} (hs : Star IsSection ws ss)
    (hp : IsParts vs parts) (hc : c.words = ws ++ (vs ++ rest))
    (hrest : nextKind rest = .rightBrace) : (sections c).Clean rest
      (·.Tells (ss.flatMap Sections.inputs) (ss.flatMap Sections.outputs) parts) := by
  induction hs generalizing c with
  | nil => exact clean_parts hp hc hrest
  | cons head tail ih =>
    rw [List.append_assoc] at hc
    cases head with
    | inputs all =>
      rw [List.cons_append, List.append_assoc] at hc
      obtain ⟨hkind, -, hc₁⟩ := Cursor.of_words_cons hc (by decide)
      obtain ⟨hvalue, hfaults, hwords⟩ := clean_pinList all hc₁
      obtain ⟨htells, hfaults', hwords'⟩ := ih hwords
      rw [sections, dif_neg (by rw [hkind]; decide)]
      simp only [hkind, if_true, hfaults, hfaults']
      exact ⟨⟨by simp [hvalue, htells.inputs], by simpa using htells.outputs, htells.parts⟩, rfl,
        hwords'⟩
    | outputs all =>
      rw [List.cons_append, List.append_assoc] at hc
      obtain ⟨hkind, -, hc₁⟩ := Cursor.of_words_cons hc (by decide)
      obtain ⟨hvalue, hfaults, hwords⟩ := clean_pinList all hc₁
      obtain ⟨htells, hfaults', hwords'⟩ := ih hwords
      rw [sections, dif_neg (by rw [hkind]; decide)]
      simp only [hkind, reduceCtorEq, if_false, if_true, hfaults, hfaults']
      exact ⟨⟨by simpa using htells.inputs, by simp [hvalue, htells.outputs], htells.parts⟩, rfl,
        hwords'⟩

theorem clean_chip {x : ChipNode} (h : IsChip ws x) (hc : c.words = ws ++ rest) :
    (chip c).Clean rest fun node => ∃ n, node = some n ∧ n.bare = x := by
  obtain ⟨pins, last⟩ := h
  simp only [List.cons_append, List.append_assoc] at hc
  obtain ⟨⟨start, name, nameSpan⟩, c₁, hheader, hc₁, hname⟩ :=
    Rule.Accepts.header.ok c _ hc trivial
  obtain ⟨htells, hfaults, hrest⟩ := clean_sections pins last hc₁ rfl
  obtain ⟨hkind, -, hend⟩ := Cursor.of_words_cons hrest (by decide)
  have hbrace : Rule.token .rightBrace (sections c₁).cursor =
      .ok ((sections c₁).cursor.span, (sections c₁).cursor.advance) := by
    simp [Rule.token, hkind]
  simp only [chip, hheader, hbrace]
  refine ⟨⟨_, rfl, ?_⟩, hfaults, hend⟩
  rw [ChipNode.bare, htells.inputs, htells.outputs, htells.parts]
  exact congrArg (ChipNode.mk · _ _ _ _ _) hname

/-! ## Texts -/

theorem clean_items {chips : List ChipNode} (h : Star IsChip ws chips) (hc : c.words = ws ++ rest)
    (hrest : nextKind rest = .endOfFile) :
    (items c).Clean rest (·.map Item.bare = chips.map Item.chip) := by
  induction h generalizing c with
  | nil =>
    have hkind : c.kind = .endOfFile := by rw [c.kind_eq, hc]; exact hrest
    rw [items, dif_pos hkind]
    exact ⟨rfl, rfl, hc⟩
  | cons head tail ih =>
    rw [List.append_assoc] at hc
    have hkind : c.kind = .chip := by
      obtain ⟨_, _⟩ := head
      rw [c.kind_eq, hc]
      rfl
    obtain ⟨⟨node, hnode, rfl⟩, hfaults, hwords⟩ := clean_chip head hc
    obtain ⟨hvalue, hfaults', hwords'⟩ := ih hwords
    rw [items, dif_neg (by rw [hkind]; decide), dif_pos hkind]
    simp only [hnode, hfaults, hfaults']
    exact ⟨congrArg (_ :: ·) hvalue, rfl, hwords'⟩

/-- **What a text declares is read from it without a fault, and nothing else is.** -/
theorem clean_parse {text : String} {chips : List ChipNode} (h : Declares text chips)
    (file : Option Nat) : (parse file text).faults = [] ∧
      (parse file text).document.items.map Item.bare = chips.map Item.chip := by
  have hwords : Cursor.words ⟨none, (lex file text).tokens⟩ =
      words (Piece.split text.toList) ++ [(.endOfFile, "")] := words_tokensFrom file 0 _
  obtain ⟨hvalue, hfaults, -⟩ := clean_items h.file hwords rfl
  refine ⟨?_, hvalue⟩
  simp only [parse, parseTokens, hfaults, List.append_nil]
  exact faultsFrom_eq_nil_iff.2 h.fine

end ChipLogic.Hdl
