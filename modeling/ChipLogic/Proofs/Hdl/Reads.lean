import ChipLogic.Proofs.Hdl.Accepts

/-!
# What is read is derived by the grammar

A rule that succeeds has passed over words which the grammar derives for what it gives
(`Rule.Reads`). The words between two cursors (`Cursor.Passes`) are put together as the rules are
(`Rule.Reads.bind`).

The loops go on after a fault, and what they skip is derived from nothing. But they report every
fault, so without faults nothing was skipped (`reads_pinList`, `reads_partList`,
`reads_sections`, `reads_items`). Together with the other direction, **the parser accepts just the
texts that declare chips, and reads just these chips from them** (`parse_exact`).
-/

namespace ChipLogic.Hdl

/-! ## Words between cursors -/

/-- From one cursor to the other there are these words, none of which is the end of the text. -/
structure Cursor.Passes (c : Cursor) (ws : List Word) (c' : Cursor) : Prop where
  words : c.words = ws ++ c'.words
  inside : ∀ w ∈ ws, w.1 ≠ .endOfFile

namespace Cursor.Passes

variable {c c₁ c' : Cursor} {us vs : List Word}

theorem refl (c : Cursor) : c.Passes [] c := ⟨rfl, List.forall_mem_nil _⟩

theorem trans (h : c.Passes us c₁) (h' : c₁.Passes vs c') : c.Passes (us ++ vs) c' where
  words := by rw [h.words, h'.words, List.append_assoc]
  inside := List.forall_mem_append.2 ⟨h.inside, h'.inside⟩

theorem advance {kind : Kind} (h : c.kind = kind) (hk : kind ≠ .endOfFile) :
    c.Passes [(kind, c.text)] c.advance := by
  subst h
  obtain ⟨previous, rest⟩ := c
  cases rest with
  | nil => exact absurd rfl hk
  | cons t rest =>
    have hadvance : Cursor.advance ⟨previous, t :: rest⟩ = ⟨some t.span, rest⟩ := if_neg hk
    rw [hadvance]
    exact ⟨rfl, List.forall_mem_singleton.2 hk⟩

end Cursor.Passes

/-! ## Rules -/

namespace Rule

variable {α β : Type} {P : List Word → α → Prop} {Q : List Word → β → Prop}

/-- What the rule gives stands in the relation `P` to the words that it takes. -/
structure Reads (P : List Word → α → Prop) (r : Rule α) : Prop where
  ok : ∀ {c a c'}, r c = .ok (a, c') → ∃ ws, c.Passes ws c' ∧ P ws a

theorem Reads.pure {a : α} (h : P [] a) : Reads P (Pure.pure a : Rule α) where
  ok := by
    intro c a' c' h'
    obtain ⟨rfl, rfl⟩ := Prod.mk.inj (Except.ok.inj h')
    exact ⟨[], .refl c, h⟩

theorem Reads.bind {r : Rule α} {f : α → Rule β} (hr : Reads P r)
    (hf : ∀ us a, P us a → Reads (fun vs => Q (us ++ vs)) (f a)) : Reads Q (r >>= f) where
  ok := by
    intro c b c' h
    rw [bind_apply] at h
    split at h
    · cases h
    · next a c₁ h₁ =>
      obtain ⟨us, hus, ha⟩ := hr.ok h₁
      obtain ⟨vs, hvs, hb⟩ := (hf us a ha).ok h
      exact ⟨us ++ vs, hus.trans hvs, hb⟩

theorem Reads.token {kind : Kind} (hk : kind ≠ .endOfFile) :
    Reads (fun ws _ => ∃ text, ws = [(kind, text)]) (Rule.token kind) where
  ok := by
    intro c a c' h
    unfold Rule.token at h
    split at h
    · next hkind =>
      obtain ⟨-, rfl⟩ := Prod.mk.inj (Except.ok.inj h)
      exact ⟨_, .advance hkind hk, c.text, rfl⟩
    · cases h

theorem Reads.name : Reads (fun ws a => ws = [(.identifier, a.1)]) Rule.name where
  ok := by
    intro c a c' h
    unfold Rule.name at h
    split at h
    · next hkind =>
      obtain ⟨rfl, rfl⟩ := Prod.mk.inj (Except.ok.inj h)
      exact ⟨_, .advance hkind (by decide), rfl⟩
    · cases h

theorem Reads.previousSpan : Reads (fun ws _ => ws = []) Rule.previousSpan where
  ok := by
    intro c a c' h
    obtain ⟨-, rfl⟩ := Prod.mk.inj (Except.ok.inj h)
    exact ⟨[], .refl c, rfl⟩

theorem Reads.ifNext {kind : Kind} (hk : kind ≠ .endOfFile) {r : Span → Rule α} {otherwise : Rule α}
    (hr : ∀ span text, Reads (fun ws => P ((kind, text) :: ws)) (r span)) (ho : Reads P otherwise) :
    Reads P (Rule.ifNext kind r otherwise) where
  ok := by
    intro c a c' h
    unfold Rule.ifNext at h
    split at h
    · next hkind =>
      obtain ⟨ws, hws, ha⟩ := (hr _ c.text).ok h
      exact ⟨_, (Cursor.Passes.advance hkind hk).trans hws, ha⟩
    · exact ho.ok h

theorem Reads.number :
    Reads (fun ws n => ∃ text, ws = [(.number, text)] ∧ IsNumber text n) Rule.number where
  ok := by
    intro c n c' h
    unfold Rule.number at h
    split at h
    · next hkind =>
      split at h
      · next hn =>
        obtain ⟨rfl, rfl⟩ := Prod.mk.inj (Except.ok.inj h)
        exact ⟨_, .advance hkind (by decide), c.text, rfl, isNumber_iff.2 hn⟩
      · cases h
    · cases h

theorem Reads.width : Reads IsWidth Rule.width := by
  refine .ifNext (by decide) (fun span text => .bind .number ?_) (.pure .none)
  rintro _ n ⟨numeral, rfl, hn⟩
  refine .bind (.token (by decide)) ?_
  rintro _ _ ⟨text', rfl⟩
  exact .pure (.some hn)

theorem Reads.pin : Reads (fun ws p => IsPin ws p.bare) Rule.pin := by
  refine .bind .name ?_
  rintro _ ⟨name, start⟩ rfl
  refine .bind .width fun ws width hwidth => .bind .previousSpan ?_
  rintro _ stop rfl
  exact .pure (by simpa [PinNode.bare] using IsPin.mk hwidth)

theorem Reads.range : Reads (fun ws range => IsRange ws (range.map RangeNode.bare)) Rule.range := by
  refine .ifNext (by decide) (fun start text => .bind .number ?_) (.pure .none)
  rintro _ first ⟨numeral, rfl, hfirst⟩
  -- one number or two
  have hlast : Reads (fun ws last => (ws = [] ∧ last = first) ∨
      ∃ dots numeral', ws = [(.dotDot, dots), (.number, numeral')] ∧ IsNumber numeral' last)
      (Rule.ifNext .dotDot (fun _ => Rule.number) (Pure.pure first)) := by
    refine .ifNext (by decide) (fun _ dots => ⟨fun h => ?_⟩) (.pure (.inl ⟨rfl, rfl⟩))
    obtain ⟨_, hws, numeral', rfl, hn⟩ := Reads.number.ok h
    exact ⟨_, hws, .inr ⟨dots, numeral', rfl, hn⟩⟩
  refine .bind hlast fun ws last hws => .bind (.token (by decide)) ?_
  rintro _ _ ⟨text', rfl⟩
  refine .pure ?_
  rcases hws with ⟨rfl, rfl⟩ | ⟨dots, numeral', rfl, hn⟩
  · exact .bit hfirst
  · exact .bits hfirst hn

theorem Reads.ref : Reads (fun ws r => IsRef ws r.bare) Rule.ref := by
  refine .bind .name ?_
  rintro _ ⟨name, start⟩ rfl
  refine .bind .range fun ws range hrange => .bind .previousSpan ?_
  rintro _ stop rfl
  exact .pure (by simpa [RefNode.bare] using IsRef.mk hrange)

theorem Reads.binding : Reads (fun ws b => IsBinding ws b.bare) Rule.binding := by
  refine .bind .ref fun us inner hinner => .bind (.token (by decide)) ?_
  rintro _ _ ⟨text, rfl⟩
  refine .bind .ref fun vs outer houter => .pure ?_
  rw [List.append_nil]
  exact .mk hinner houter

theorem Reads.bindings :
    Reads (fun ws bs => Listed IsBinding ws (bs.map BindingNode.bare)) Rule.bindings where
  ok := by
    intro c bs c' h
    fun_induction Rule.bindings c generalizing bs c' with
    | case1 => cases h
    | case2 => cases h
    | case3 c b c₁ hb hk bs' c₂ hbs ih =>
      obtain ⟨rfl, rfl⟩ := Prod.mk.inj (Except.ok.inj h)
      obtain ⟨us, hus, hb⟩ := Reads.binding.ok hb
      obtain ⟨vs, hvs, hbs⟩ := ih hbs
      exact ⟨_, hus.trans ((Cursor.Passes.advance hk (by decide)).trans hvs), .more hb hbs⟩
    | case4 c b c₁ hb =>
      obtain ⟨rfl, rfl⟩ := Prod.mk.inj (Except.ok.inj h)
      obtain ⟨us, hus, hb⟩ := Reads.binding.ok hb
      exact ⟨us, hus, .one hb⟩

theorem Reads.arguments :
    Reads (fun ws bs => IsArguments ws (bs.map BindingNode.bare)) Rule.arguments where
  ok := by
    intro c bs c' h
    unfold Rule.arguments at h
    split at h
    · obtain ⟨rfl, rfl⟩ := Prod.mk.inj (Except.ok.inj h)
      exact ⟨[], .refl c, .none⟩
    · obtain ⟨ws, hws, hbs⟩ := Reads.bindings.ok h
      exact ⟨ws, hws, .some hbs⟩

theorem Reads.part : Reads (fun ws p => IsPart ws p.bare) Rule.part := by
  refine .bind .name ?_
  rintro _ ⟨chip, start⟩ rfl
  refine .bind (.token (by decide)) ?_
  rintro _ _ ⟨text, rfl⟩
  refine .bind .arguments fun ws bs hbs => .bind (.token (by decide)) ?_
  rintro _ _ ⟨text', rfl⟩
  refine .bind (.token (by decide)) ?_
  rintro _ stop ⟨text'', rfl⟩
  refine .pure ?_
  simp only [List.append_nil, List.cons_append, List.nil_append]
  exact .mk hbs

theorem Reads.header :
    Reads (fun ws x => ∃ a b, ws = [(.chip, a), (.identifier, x.2.1), (.leftBrace, b)])
      Rule.header := by
  refine .bind (.token (by decide)) ?_
  rintro _ start ⟨a, rfl⟩
  refine .bind .name ?_
  rintro _ ⟨name, nameSpan⟩ rfl
  refine .bind (.token (by decide)) ?_
  rintro _ _ ⟨b, rfl⟩
  exact .pure ⟨a, b, rfl⟩

end Rule

/-! ## Lists without faults -/

theorem reads_pinList {c : Cursor} (h : (pinList c).faults = []) :
    ∃ ws text, c.Passes (ws ++ [(.semicolon, text)]) (pinList c).cursor ∧
      Listed IsPin ws ((pinList c).value.map PinNode.bare) := by
  fun_induction pinList c with
  | case1 c f hf => cases h
  | case2 c p c₁ hp hk more ih =>
    obtain ⟨us, hus, hpin⟩ := Rule.Reads.pin.ok hp
    obtain ⟨vs, text, hvs, hpins⟩ := ih h
    have hpass := hus.trans ((Cursor.Passes.advance hk (by decide)).trans hvs)
    exact ⟨_, text, by simpa using hpass, .more hpin hpins⟩
  | case3 c p c₁ hp hk f hf => cases h
  | case4 c p c₁ hp hk span c₂ hs =>
    obtain ⟨us, hus, hpin⟩ := Rule.Reads.pin.ok hp
    obtain ⟨_, hvs, text, rfl⟩ := (Rule.Reads.token (by decide)).ok hs
    exact ⟨us, text, hus.trans hvs, .one hpin⟩

/-- The parts reach to the closing brace or the end of the text. -/
theorem reads_partList {c : Cursor} (h : (partList c).faults = []) :
    ((partList c).cursor.kind = .endOfFile ∨ (partList c).cursor.kind = .rightBrace) ∧
      ∃ ws, c.Passes ws (partList c).cursor ∧
        Star IsPart ws ((partList c).value.map PartNode.bare) := by
  fun_induction partList c with
  | case1 c hk => exact ⟨hk, [], .refl c, .nil⟩
  | case2 c hk f hf more ih => cases h
  | case3 c hk p c₁ hp more ih =>
    obtain ⟨us, hus, hpart⟩ := Rule.Reads.part.ok hp
    obtain ⟨hend, vs, hvs, hparts⟩ := ih h
    exact ⟨hend, _, hus.trans hvs, .cons hpart hparts⟩

theorem reads_partSection {c : Cursor} (h : (partSection c).faults = []) :
    ((partSection c).cursor.kind = .endOfFile ∨ (partSection c).cursor.kind = .rightBrace) ∧
      ∃ text ws, c.Passes ((.colon, text) :: ws) (partSection c).cursor ∧
        Star IsPart ws ((partSection c).value.map PartNode.bare) := by
  unfold partSection at h ⊢
  split at h
  · cases h
  · next hs =>
    obtain ⟨_, hus, text, rfl⟩ := (Rule.Reads.token (by decide)).ok hs
    obtain ⟨hend, ws, hws, hparts⟩ := reads_partList h
    exact ⟨hend, text, ws, hus.trans hws, hparts⟩

/-! ## Chips without faults -/

/-- After the parts there are no more sections. -/
theorem sections_of_end {c : Cursor} (h : c.kind = .endOfFile ∨ c.kind = .rightBrace) :
    sections c = ⟨{}, [], c⟩ := by
  rw [sections, dif_pos]
  rcases h with h | h <;> rw [h] <;> rfl

theorem reads_sections {c : Cursor} (h : (sections c).faults = []) :
    ∃ us vs ss parts, c.Passes (us ++ vs) (sections c).cursor ∧ Star IsSection us ss ∧
      IsParts vs parts ∧ (sections c).value.Tells (ss.flatMap Sections.inputs)
        (ss.flatMap Sections.outputs) parts := by
  fun_induction sections c with
  | case1 c hk => exact ⟨[], [], [], [], .refl c, .nil, .none, rfl, rfl, rfl⟩
  | case2 c hk hin pins more ih =>
    obtain ⟨hpins, hmore⟩ := List.append_eq_nil_iff.1 h
    obtain ⟨ws, text, hws, hlisted⟩ := reads_pinList hpins
    obtain ⟨us, vs, ss, parts, hus, hss, hparts, htells⟩ := ih hmore
    have hpass := (Cursor.Passes.advance hin (by decide)).trans (hws.trans hus)
    exact ⟨_, vs, _, parts, by simpa using hpass, .cons (.inputs hlisted) hss, hparts,
      by simp [pins, more, htells.inputs], by simpa using htells.outputs, htells.parts⟩
  | case3 c hk hin hout pins more ih =>
    obtain ⟨hpins, hmore⟩ := List.append_eq_nil_iff.1 h
    obtain ⟨ws, text, hws, hlisted⟩ := reads_pinList hpins
    obtain ⟨us, vs, ss, parts, hus, hss, hparts, htells⟩ := ih hmore
    have hpass := (Cursor.Passes.advance hout (by decide)).trans (hws.trans hus)
    exact ⟨_, vs, _, parts, by simpa using hpass, .cons (.outputs hlisted) hss, hparts,
      by simpa using htells.inputs, by simp [pins, more, htells.outputs], htells.parts⟩
  | case4 c hk hin hout hkind parts more ih =>
    obtain ⟨hparts, -⟩ := List.append_eq_nil_iff.1 h
    obtain ⟨hend, text, ws, hws, hstar⟩ := reads_partSection hparts
    have hmore : more = ⟨{}, [], parts.cursor⟩ := sections_of_end hend
    have hpass := (Cursor.Passes.advance hkind (by decide)).trans hws
    exact ⟨[], _, [], _, by simpa [hmore] using hpass, .nil, .some hstar,
      by simp [hmore], by simp [hmore], by simp [hmore, parts]⟩
  | case5 => cases h

theorem reads_chip {c : Cursor} (h : (chip c).faults = []) :
    ∃ ws node, c.Passes ws (chip c).cursor ∧ (chip c).value = some node ∧
      IsChip ws node.bare := by
  unfold chip at h ⊢
  split at h
  · cases h
  · next start name nameSpan c₁ hheader =>
    dsimp only at h ⊢
    split at h
    · simp at h
    · next stop c₂ hbrace =>
      obtain ⟨_, hhead, a, b, rfl⟩ := Rule.Reads.header.ok hheader
      obtain ⟨us, vs, ss, parts, hbody, hss, hparts, htells⟩ := reads_sections h
      obtain ⟨_, hlast, d, rfl⟩ := (Rule.Reads.token (by decide)).ok hbrace
      have hpass := hhead.trans (hbody.trans hlast)
      refine ⟨_, _, by simpa using hpass, rfl, ?_⟩
      rw [ChipNode.bare, htells.inputs, htells.outputs, htells.parts]
      exact .mk hss hparts

/-! ## Texts -/

theorem reads_items {c : Cursor} (h : (items c).faults = []) :
    (items c).cursor.kind = .endOfFile ∧ ∃ ws chips, c.Passes ws (items c).cursor ∧
      Star IsChip ws chips := by
  fun_induction items c with
  | case1 c hk => exact ⟨hk, [], [], .refl c, .nil⟩
  | case2 c hk hchip one node hnode more ih =>
    obtain ⟨hone, hmore⟩ := List.append_eq_nil_iff.1 h
    obtain ⟨us, node', hus, -, hread⟩ := reads_chip hone
    obtain ⟨hend, vs, chips, hvs, hstar⟩ := ih hmore
    exact ⟨hend, _, _, hus.trans hvs, .cons hread hstar⟩
  | case3 c hk hchip one hnone more ih =>
    obtain ⟨hone, -⟩ := List.append_eq_nil_iff.1 h
    obtain ⟨us, node, -, hsome, -⟩ := reads_chip hone
    rw [hnone] at hsome
    cases hsome
  | case4 => cases h

theorem Kind.ofMark?_ne_endOfFile (c : Char) : Kind.ofMark? c ≠ some .endOfFile := by
  unfold Kind.ofMark?
  split <;> decide

theorem Kind.ofWord_ne_endOfFile (cs : List Char) : Kind.ofWord cs ≠ .endOfFile := by
  unfold Kind.ofWord
  split
  · decide
  split
  · decide
  split
  · decide
  split <;> decide

/-- No piece of a text is the end of the text. -/
theorem Piece.endOfFile_not_mem_split {text cs : List Char} :
    .token .endOfFile text ∉ Piece.split cs := by
  fun_induction Piece.split cs with
  | case1 => exact List.not_mem_nil
  | case2 c cs ih =>
    rw [List.mem_cons, not_or]
    refine ⟨fun hfirst => ?_, ih⟩
    unfold Piece.first at hfirst
    split at hfirst
    · cases hfirst
    split at hfirst
    · exact Kind.ofWord_ne_endOfFile _ (Piece.token.inj hfirst).1.symm
    split at hfirst
    · cases hfirst
    split at hfirst
    · next kind hmark => exact Kind.ofMark?_ne_endOfFile c ((Piece.token.inj hfirst).1 ▸ hmark)
    split at hfirst
    · cases hfirst
    · split at hfirst <;> cases hfirst
    · cases hfirst
    · cases hfirst

theorem kind_ne_endOfFile_of_mem_words {cs : List Char} {w : Word}
    (h : w ∈ words (Piece.split cs)) : w.1 ≠ .endOfFile := by
  obtain ⟨p, hp, hw⟩ := List.mem_filterMap.1 h
  cases p with
  | token kind text =>
    obtain rfl := Option.some.inj hw
    rintro rfl
    exact Piece.endOfFile_not_mem_split hp
  | _ => cases hw

/-- Words up to the first end of the text are determined by what they are part of. -/
theorem eq_of_append_endOfFile {us vs rest rest' : List Word} (hus : ∀ w ∈ us, w.1 ≠ .endOfFile)
    (hvs : ∀ w ∈ vs, w.1 ≠ .endOfFile) (hrest : nextKind rest = .endOfFile) {text : String}
    (h : us ++ rest = vs ++ (.endOfFile, text) :: rest') : us = vs := by
  induction us generalizing vs with
  | nil =>
    cases vs with
    | nil => rfl
    | cons v vs =>
      rw [List.nil_append] at h
      rw [h] at hrest
      exact absurd hrest (hvs v List.mem_cons_self)
  | cons u us ih =>
    obtain ⟨hu, hus⟩ := List.forall_mem_cons.1 hus
    cases vs with
    | nil => exact absurd (congrArg Prod.fst (List.cons.inj h).1) hu
    | cons v vs =>
      obtain ⟨rfl, htail⟩ := List.cons.inj h
      rw [ih hus (List.forall_mem_cons.1 hvs).2 htail]

theorem exists_declares_of_faultless {file : Option Nat} {text : String}
    (h : (parse file text).faults = []) : ∃ chips, Declares text chips := by
  obtain ⟨hlex, hparse⟩ := List.append_eq_nil_iff.1 h
  obtain ⟨hend, ws, chips, hws, hstar⟩ := reads_items hparse
  have hwords : words (Piece.split text.toList) ++ [(.endOfFile, "")] = ws ++ Cursor.words _ :=
    (words_tokensFrom file 0 _).symm.trans hws.words
  rw [Cursor.kind_eq] at hend
  have hsame : ws = words (Piece.split text.toList) :=
    eq_of_append_endOfFile hws.inside (fun w => kind_ne_endOfFile_of_mem_words) hend hwords.symm
  exact ⟨chips, faultsFrom_eq_nil_iff.1 hlex, hsame ▸ hstar⟩

/-- **The parser accepts just its grammar.** There is no fault in a text if and only if its pieces
are fine and the grammar derives its words, and then what is read are the chips of the derivation in
order, and nothing else. -/
theorem parse_exact (file : Option Nat) (text : String) :
    ((parse file text).faults = [] ↔ ∃ chips, Declares text chips) ∧
      ∀ chips, Declares text chips →
        (parse file text).document.items.map Item.bare = chips.map Item.chip :=
  ⟨⟨exists_declares_of_faultless, fun ⟨_, h⟩ => (clean_parse h file).1⟩,
    fun _ h => (clean_parse h file).2⟩

/-- Two chips with sections in any order, numbers with leading zeros and both kinds of ranges. -/
def pickText : String :=
  "CHIP Pick \x7b OUT y; IN a[04], b; /* again */ OUT z; PARTS: Not(in=a[3], out=y);\n" ++
    "Or(a=a[1..02], b=b, out=z); \x7d CHIP Bare \x7b\x7d"

/-- What stands in the text. -/
def pickChips : List ChipNode :=
  let name := fun s => RefNode.mk s none .nowhere
  let bits := fun s first last => RefNode.mk s (some ⟨first, last, .nowhere⟩) .nowhere
  [⟨"Pick", .nowhere, [⟨"a", some 4, .nowhere⟩, ⟨"b", none, .nowhere⟩],
    [⟨"y", none, .nowhere⟩, ⟨"z", none, .nowhere⟩],
    [⟨"Not", [⟨name "in", bits "a" 3 3, .nowhere⟩, ⟨name "out", name "y", .nowhere⟩], .nowhere⟩,
      ⟨"Or", [⟨name "a", bits "a" 1 2, .nowhere⟩, ⟨name "b", name "b", .nowhere⟩,
        ⟨name "out", name "z", .nowhere⟩], .nowhere⟩], .nowhere⟩,
    ⟨"Bare", .nowhere, [], [], [], .nowhere⟩]

theorem parse_exact_pick : (parse none pickText).faults = [] ∧ Declares pickText pickChips := by
  have hruns : (parse none pickText).faults = [] ∧
      (parse none pickText).document.items.map Item.bare = pickChips.map Item.chip := by
    decide +kernel
  obtain ⟨hfaults, hitems⟩ := hruns
  refine ⟨hfaults, ?_⟩
  obtain ⟨hiff, hread⟩ := parse_exact none pickText
  obtain ⟨chips, hchips⟩ := hiff.1 hfaults
  -- there are no other chips that the text could declare
  have hsame : chips.map Item.chip = pickChips.map Item.chip :=
    (hread chips hchips).symm.trans hitems
  rwa [(List.map_inj_right fun _ _ => Item.chip.inj).1 hsame] at hchips

end ChipLogic.Hdl
