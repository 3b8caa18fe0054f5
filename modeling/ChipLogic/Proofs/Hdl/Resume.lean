import ChipLogic.Proofs.Hdl.Places
import ChipLogic.Proofs.Hdl.Reads

/-!
# Where the parser goes on

What the parser reads and what it passes over after a fault are two ways to get to the same place.
Within a section both take **plain** words only, words that neither start a section or a chip nor
end one (`Rule.Over`). So where the sections of a chip end does not depend on the faults in them: it
is found by a scan of the words (`sectionsEnd`) that stops at a `}` or `CHIP`. Only after `PARTS` and
a colon it does not stop at `CHIP` (`words_sections`).
-/

namespace ChipLogic.Hdl

/-! ## Passing over words -/

/-- From one cursor to the other all words are of some kinds. -/
def Cursor.Over (p : Kind → Bool) (c c' : Cursor) : Prop :=
  ∃ ws, c.words = ws ++ c'.words ∧ ∀ w ∈ ws, p w.1 = true

namespace Cursor.Over

variable {p q : Kind → Bool} {c c₁ c' : Cursor}

theorem refl (c : Cursor) : c.Over p c := ⟨[], rfl, List.forall_mem_nil _⟩

theorem trans (h : c.Over p c₁) (h' : c₁.Over p c') : c.Over p c' := by
  obtain ⟨us, hus, hp⟩ := h
  obtain ⟨vs, hvs, hp'⟩ := h'
  exact ⟨us ++ vs, by rw [hus, hvs, List.append_assoc], List.forall_mem_append.2 ⟨hp, hp'⟩⟩

theorem mono (h : c.Over p c') (hq : ∀ kind, p kind = true → q kind = true) : c.Over q c' := by
  obtain ⟨ws, hws, hp⟩ := h
  exact ⟨ws, hws, fun w hw => hq _ (hp w hw)⟩

theorem advance (hend : c.kind ≠ .endOfFile) (hp : p c.kind = true) : c.Over p c.advance :=
  ⟨_, (Cursor.Passes.advance rfl hend).words, List.forall_mem_singleton.2 hp⟩

/-- Stepping over a token. -/
theorem after {previous : Option Span} {t : Token} {rest : List Token} (hp : p t.kind = true) :
    Cursor.Over p ⟨previous, t :: rest⟩ ⟨some t.span, rest⟩ :=
  ⟨[(t.kind, t.text)], rfl, List.forall_mem_singleton.2 hp⟩

/-- What is looked for is found from either cursor. -/
theorem dropWhile (h : c.Over p c') :
    c.words.dropWhile (fun w => p w.1) = c'.words.dropWhile (fun w => p w.1) := by
  obtain ⟨ws, hws, hp⟩ := h
  rw [hws, List.dropWhile_append_of_pos hp]

/-- What is passed over ends before a word of another kind. -/
theorem before (h : c.Over p c') {us vs : List Word} (hc : c.words = us ++ vs)
    (hvs : p (nextKind vs) = false) : ∃ us', us' <:+ us ∧ c'.words = us' ++ vs := by
  obtain ⟨ws, hws, hp⟩ := h
  rcases List.append_eq_append_iff.1 (hc.symm.trans hws) with ⟨as, rfl, rfl⟩ | ⟨bs, rfl, hrest⟩
  · cases as with
    | nil => exact ⟨[], List.nil_suffix, rfl⟩
    | cons w as =>
      have hw := hp w (by simp)
      rw [show p w.1 = false from hvs] at hw
      cases hw
  · exact ⟨bs, List.suffix_append _ _, hrest⟩

end Cursor.Over

/-- The words that occur within a section. -/
def isPlain (kind : Kind) : Bool :=
  !(kind == .endOfFile || kind == .rightBrace || kind == .input || kind == .output ||
    kind == .parts || kind == .chip)

/-- The tokens that end the parts of a chip. -/
def endsParts (kind : Kind) : Bool :=
  kind == .endOfFile || kind == .rightBrace

theorem endsParts_of_isPlain {kind : Kind} (h : isPlain kind = true) : (!endsParts kind) = true := by
  simp_all [isPlain, endsParts]

namespace Rule

variable {α β : Type}

/-- A rule passes over plain words, also where it fails. -/
structure Over (r : Rule α) : Prop where
  ok : ∀ {c a c'}, r c = .ok (a, c') → c.Over isPlain c'
  error : ∀ {c f}, r c = .error f → c.Over isPlain f.cursor

theorem Over.pure (a : α) : Over (Pure.pure a : Rule α) where
  ok h := by
    obtain ⟨-, rfl⟩ := Prod.mk.inj (Except.ok.inj h)
    exact .refl _
  error h := nomatch h

theorem Over.bind {r : Rule α} {f : α → Rule β} (hr : Over r) (hf : ∀ a, Over (f a)) :
    Over (r >>= f) where
  ok := by
    intro c b c' h
    obtain ⟨a, c₁, h₁, h₂⟩ := bind_eq_ok h
    exact (hr.ok h₁).trans ((hf a).ok h₂)
  error := by
    intro c e h
    rw [bind_apply] at h
    split at h
    · next h₁ => cases h; exact hr.error h₁
    · next a c₁ h₁ => exact (hr.ok h₁).trans ((hf a).error h)

theorem Over.token {kind : Kind} (hk : isPlain kind = true) : Over (Rule.token kind) where
  ok := by
    intro c a c' h
    unfold Rule.token at h
    split at h
    · next hkind =>
      obtain ⟨-, rfl⟩ := Prod.mk.inj (Except.ok.inj h)
      subst hkind
      exact .advance (by rintro he; rw [he] at hk; cases hk) hk
    · cases h
  error := by
    intro c f h
    unfold Rule.token at h
    split at h
    · cases h
    · cases h; exact .refl c

theorem Over.name : Over Rule.name where
  ok := by
    intro c a c' h
    unfold Rule.name at h
    split at h
    · next hkind =>
      obtain ⟨-, rfl⟩ := Prod.mk.inj (Except.ok.inj h)
      exact .advance (by rw [hkind]; decide) (by rw [hkind]; rfl)
    · cases h
  error := by
    intro c f h
    unfold Rule.name at h
    split at h
    · cases h
    · cases h; exact .refl c

theorem Over.previousSpan : Over Rule.previousSpan where
  ok h := by
    obtain ⟨-, rfl⟩ := Prod.mk.inj (Except.ok.inj h)
    exact .refl _
  error h := nomatch h

theorem Over.number : Over Rule.number where
  ok := by
    intro c n c' h
    unfold Rule.number at h
    split at h
    · next hkind =>
      split at h
      · obtain ⟨-, rfl⟩ := Prod.mk.inj (Except.ok.inj h)
        exact .advance (by rw [hkind]; decide) (by rw [hkind]; rfl)
      · cases h
    · cases h
  error := by
    intro c f h
    unfold Rule.number at h
    split at h
    · split at h
      · cases h
      · cases h; exact .refl c
    · cases h; exact .refl c

theorem Over.ifNext {kind : Kind} (hk : isPlain kind = true) {r : Span → Rule α}
    {otherwise : Rule α} (hr : ∀ s, Over (r s)) (ho : Over otherwise) :
    Over (Rule.ifNext kind r otherwise) := by
  have hadvance : ∀ {c : Cursor}, c.kind = kind → c.Over isPlain c.advance := by
    rintro c rfl
    exact .advance (by rintro he; rw [he] at hk; cases hk) hk
  constructor
  · intro c a c' h
    unfold Rule.ifNext at h
    split at h
    · next hkind => exact (hadvance hkind).trans ((hr _).ok h)
    · exact ho.ok h
  · intro c f h
    unfold Rule.ifNext at h
    split at h
    · next hkind => exact (hadvance hkind).trans ((hr _).error h)
    · exact ho.error h

theorem Over.pin : Over Rule.pin :=
  .bind .name fun _ =>
    .bind
      (.ifNext rfl (fun _ => .bind .number fun _ => .bind (.token rfl) fun _ => .pure _) (.pure _))
      fun _ => .bind .previousSpan fun _ => .pure _

theorem Over.ref : Over Rule.ref :=
  .bind .name fun _ =>
    .bind
      (.ifNext rfl
        (fun _ => .bind .number fun _ =>
          .bind (.ifNext rfl (fun _ => .number) (.pure _)) fun _ =>
            .bind (.token rfl) fun _ => .pure _)
        (.pure _))
      fun _ => .bind .previousSpan fun _ => .pure _

theorem Over.binding : Over Rule.binding :=
  .bind .ref fun _ => .bind (.token rfl) fun _ => .bind .ref fun _ => .pure _

theorem Over.bindings : Over Rule.bindings where
  ok := by
    intro c a c' h
    fun_induction Rule.bindings c generalizing a c' with
    | case1 => cases h
    | case2 => cases h
    | case3 c b c₁ hb hk bs c₂ hbs ih =>
      obtain ⟨-, rfl⟩ := Prod.mk.inj (Except.ok.inj h)
      exact ((Over.binding.ok hb).trans (.advance (by rw [hk]; decide) (by rw [hk]; rfl))).trans
        (ih hbs)
    | case4 c b c₁ hb =>
      obtain ⟨-, rfl⟩ := Prod.mk.inj (Except.ok.inj h)
      exact Over.binding.ok hb
  error := by
    intro c f h
    fun_induction Rule.bindings c generalizing f with
    | case1 c e hb => cases h; exact Over.binding.error hb
    | case2 c b c₁ hb hk e he ih =>
      cases h
      exact ((Over.binding.ok hb).trans (.advance (by rw [hk]; decide) (by rw [hk]; rfl))).trans
        (ih he)
    | case3 => cases h
    | case4 => cases h

theorem Over.arguments : Over Rule.arguments where
  ok := by
    intro c a c' h
    unfold Rule.arguments at h
    split at h
    · obtain ⟨-, rfl⟩ := Prod.mk.inj (Except.ok.inj h)
      exact .refl _
    · exact Over.bindings.ok h
  error := by
    intro c f h
    unfold Rule.arguments at h
    split at h
    · cases h
    · exact Over.bindings.error h

theorem Over.part : Over Rule.part :=
  .bind .name fun _ => .bind (.token rfl) fun _ => .bind .arguments fun _ =>
    .bind (.token rfl) fun _ => .bind (.token rfl) fun _ => .pure _

end Rule

/-! ## Recovery -/

theorem over_skipToSection (c : Cursor) : c.Over isPlain c.skipToSection := by
  obtain ⟨previous, rest⟩ := c
  unfold Cursor.skipToSection
  dsimp only
  fun_induction Hdl.skipToSection previous rest with
  | case1 => exact .refl _
  | case2 | case3 | case4 | case5 | case6 | case7 => exact .refl _
  | case8 _ t _ hk => exact .after (by rw [hk]; rfl)
  | case9 _ t _ h₁ h₂ h₃ h₄ h₅ h₆ _ ih =>
    exact Cursor.Over.trans (.after (by simpa [isPlain, and_assoc] using ⟨h₁, h₂, h₃, h₄, h₅, h₆⟩)) ih

theorem over_skipStatement (c : Cursor) : c.Over (!endsParts ·) c.skipStatement := by
  obtain ⟨previous, rest⟩ := c
  unfold Cursor.skipStatement
  dsimp only
  fun_induction Hdl.skipStatement previous rest with
  | case1 => exact .refl _
  | case2 | case3 => exact .refl _
  | case4 _ t _ hk => exact .after (by rw [hk]; rfl)
  | case5 _ t _ h₁ h₂ _ ih => exact Cursor.Over.trans (.after (by simpa [endsParts] using ⟨h₁, h₂⟩)) ih

theorem over_skipToChip (c : Cursor) :
    c.Over (fun kind => !(kind == .endOfFile || kind == .chip)) c.skipToChip := by
  obtain ⟨previous, rest⟩ := c
  unfold Cursor.skipToChip
  dsimp only
  fun_induction Hdl.skipToChip previous rest with
  | case1 => exact .refl _
  | case2 | case3 => exact .refl _
  | case4 _ t _ h₁ h₂ ih => exact Cursor.Over.trans (.after (by simpa using ⟨h₁, h₂⟩)) ih

/-! ## Sections -/

theorem over_pinList (c : Cursor) : c.Over isPlain (pinList c).cursor := by
  fun_induction pinList c with
  | case1 c f h => exact (Rule.Over.pin.error h).trans (over_skipToSection _)
  | case2 c p c₁ h hk _ ih =>
    exact ((Rule.Over.pin.ok h).trans (.advance (by rw [hk]; decide) (by rw [hk]; rfl))).trans ih
  | case3 c p c₁ h hk f hf =>
    exact (Rule.Over.pin.ok h).trans (((Rule.Over.token rfl).error hf).trans (over_skipToSection _))
  | case4 c p c₁ h hk s c₂ hs => exact (Rule.Over.pin.ok h).trans ((Rule.Over.token rfl).ok hs)

/-- The parts go on up to the next `}`, whatever is in them. -/
theorem words_partList (c : Cursor) :
    (partList c).cursor.words = c.words.dropWhile fun w => !endsParts w.1 := by
  fun_induction partList c with
  | case1 c hk =>
    obtain ⟨previous, rest⟩ := c
    cases rest with
    | nil => rfl
    | cons t rest =>
      have hends : endsParts t.kind = true := by
        have hk : t.kind = _ ∨ t.kind = _ := hk
        simpa [endsParts] using hk
      exact (List.dropWhile_cons_of_neg (by simpa using hends)).symm
  | case2 c hk f h _ ih =>
    rw [ih, ((Rule.Over.part.error h).mono fun _ => endsParts_of_isPlain).dropWhile,
      (over_skipStatement f.cursor).dropWhile]
  | case3 c hk p c₁ h _ ih =>
    rw [ih, ((Rule.Over.part.ok h).mono fun _ => endsParts_of_isPlain).dropWhile]

/-- The words after the sections of a chip. -/
def sectionsEnd : List Word → List Word
  | [] => []
  | w :: ws =>
    if endsSections w.1 then w :: ws
    else if w.1 = .parts ∧ nextKind ws = .colon then ws.dropWhile fun w => !endsParts w.1
    else sectionsEnd ws

theorem sectionsEnd_append {us : List Word} (h : ∀ w ∈ us, isPlain w.1 = true) (vs : List Word) :
    sectionsEnd (us ++ vs) = sectionsEnd vs := by
  induction us with
  | nil => rfl
  | cons w us ih =>
    obtain ⟨hw, hus⟩ := List.forall_mem_cons.1 h
    have hends : endsSections w.1 = false := by simp_all [isPlain, endsSections]
    have hparts : w.1 ≠ .parts := by simp_all [isPlain]
    simp [sectionsEnd, hends, hparts, ih hus]

theorem Cursor.Over.sectionsEnd {c c' : Cursor} (h : c.Over isPlain c') :
    sectionsEnd c.words = Hdl.sectionsEnd c'.words := by
  obtain ⟨ws, hws, hplain⟩ := h
  rw [hws, sectionsEnd_append hplain]

theorem sectionsEnd_of_ends {c : Cursor} (h : endsSections c.kind = true) :
    sectionsEnd c.words = c.words := by
  obtain ⟨previous, rest⟩ := c
  cases rest with
  | nil => rfl
  | cons t rest => exact if_pos h

/-- Any word but one that ends the sections is passed over. Only parts are different. -/
theorem sectionsEnd_advance {c : Cursor} (h : ¬ endsSections c.kind = true)
    (hparts : c.kind ≠ .parts ∨ c.advance.kind ≠ .colon) :
    sectionsEnd c.words = sectionsEnd c.advance.words := by
  have hend : c.kind ≠ .endOfFile := fun he => h (by rw [he]; rfl)
  rw [(Cursor.Passes.advance rfl hend).words, List.singleton_append, sectionsEnd, if_neg h,
    if_neg fun hk => hparts.elim (· hk.1) (· (c.advance.kind_eq.trans hk.2))]

/-- After the parts there is no other section. -/
theorem sectionsEnd_dropWhile (ws : List Word) :
    sectionsEnd (ws.dropWhile fun w => !endsParts w.1) = ws.dropWhile fun w => !endsParts w.1 := by
  induction ws with
  | nil => rfl
  | cons w ws ih =>
    cases hw : endsParts w.1 with
    | false => simpa [List.dropWhile_cons, hw] using ih
    | true =>
      have hends : endsSections w.1 = true := by simp_all [endsParts, endsSections]
      simp [hw, sectionsEnd, hends]

theorem Rule.token_eq_error {kind : Kind} {c : Cursor} {f : Failure}
    (h : Rule.token kind c = .error f) : c.kind ≠ kind ∧ f.cursor = c := by
  unfold Rule.token at h
  split at h
  · cases h
  · next hk => cases h; exact ⟨hk, rfl⟩

theorem sectionsEnd_partSection {c : Cursor} (hk : c.kind = .parts) :
    sectionsEnd (partSection c.advance).cursor.words = sectionsEnd c.words := by
  unfold partSection
  split
  · next f h =>
    obtain ⟨hcolon, he⟩ := Rule.token_eq_error h
    rw [sectionsEnd_advance (by rw [hk]; decide) (.inr hcolon), ← he]
    exact (over_skipToSection _).sectionsEnd.symm
  · next c₁ h =>
    obtain ⟨_, hpass, text, rfl⟩ := (Rule.Reads.token (by decide)).ok h
    rw [words_partList, sectionsEnd_dropWhile, (Cursor.Passes.advance hk (by decide)).words,
      hpass.words]
    simp [sectionsEnd, endsSections, nextKind, endsParts]

/-- **Where the sections end does not depend on the faults in them.** -/
theorem words_sections (c : Cursor) : (sections c).cursor.words = sectionsEnd c.words := by
  fun_induction sections c with
  | case1 c h => exact (sectionsEnd_of_ends h).symm
  | case2 c h hk pins more ih =>
    rw [sectionsEnd_advance h (.inl (by rw [hk]; decide)), (over_pinList _).sectionsEnd]
    exact ih
  | case3 c h hn hk pins more ih =>
    rw [sectionsEnd_advance h (.inl (by rw [hk]; decide)), (over_pinList _).sectionsEnd]
    exact ih
  | case4 c h hn hn' hk parts more ih => rw [← sectionsEnd_partSection hk]; exact ih
  | case5 c h hn hn' hn'' more ih =>
    rw [sectionsEnd_advance h (.inl hn''), (over_skipToSection _).sectionsEnd]
    exact ih

/-! ## Chips -/

theorem Rule.header_eq {c : Cursor} (hk : c.kind = .chip) : Rule.header c =
    if c.advance.kind = .identifier then
      if c.advance.advance.kind = .leftBrace then
        .ok ((c.span, c.advance.text, c.advance.span), c.advance.advance.advance)
      else .error ⟨.expected (.token .leftBrace) c.advance.advance.kind, c.advance.advance⟩
    else .error ⟨.expected (.token .identifier) c.advance.kind, c.advance⟩ := by
  have htoken : Rule.token .chip c = .ok (c.span, c.advance) := if_pos hk
  unfold Rule.header
  rw [bind_apply, htoken]
  dsimp only
  rw [bind_apply, Rule.name]
  by_cases hname : c.advance.kind = .identifier
  · rw [if_pos hname, if_pos hname]
    dsimp only
    rw [bind_apply, Rule.token]
    by_cases hbrace : c.advance.advance.kind = .leftBrace
    · rw [if_pos hbrace, if_pos hbrace]
      rfl
    · rw [if_neg hbrace, if_neg hbrace]
      rfl
  · rw [if_neg hname, if_neg hname]
    rfl

/-- A chip stops before its name or before its brace, or it is opened. -/
theorem chip_cases {c : Cursor} (hk : c.kind = .chip) :
    (c.advance.kind ≠ .identifier ∧ (chip c).value = none ∧ (chip c).cursor = c.advance) ∨
      (c.advance.kind = .identifier ∧ c.advance.advance.kind ≠ .leftBrace ∧
        (chip c).value = none ∧ (chip c).cursor = c.advance.advance) ∨
      (c.advance.kind = .identifier ∧ c.advance.advance.kind = .leftBrace ∧
        Rule.header c =
          .ok ((c.span, c.advance.text, c.advance.span), c.advance.advance.advance)) := by
  have hheader := Rule.header_eq hk
  split at hheader
  · next hname =>
    split at hheader
    · next hbrace => exact .inr (.inr ⟨hname, hbrace, hheader⟩)
    · next hbrace =>
      unfold chip
      rw [hheader]
      exact .inr (.inl ⟨hname, hbrace, rfl, rfl⟩)
  · next hname =>
    unfold chip
    rw [hheader]
    exact .inl ⟨hname, rfl, rfl⟩

/-- A chip that was opened is read if its sections end at a `}`. -/
theorem chip_of_header {c c₁ : Cursor} {start nameSpan : Span} {name : String}
    (h : Rule.header c = .ok ((start, name, nameSpan), c₁)) :
    (∃ text rest, sectionsEnd c₁.words = (.rightBrace, text) :: rest ∧
        (chip c).cursor.words = rest ∧ ∃ node, (chip c).value = some node ∧ node.name = name) ∨
      (nextKind (sectionsEnd c₁.words) ≠ .rightBrace ∧ (chip c).value = none ∧
        (chip c).cursor.words = sectionsEnd c₁.words) := by
  rw [← words_sections, ← Cursor.kind_eq]
  unfold chip
  rw [h]
  dsimp only
  split
  · next f hf =>
    obtain ⟨hk, he⟩ := Rule.token_eq_error hf
    exact .inr ⟨hk, rfl, by rw [he]⟩
  · next stop c₂ hs =>
    obtain ⟨_, hpass, text, rfl⟩ := (Rule.Reads.token (by decide)).ok hs
    exact .inl ⟨text, c₂.words, hpass.words, rfl, _, rfl, rfl⟩

/-- Where a chip should start and does not, the parser has not gone further than a name. -/
theorem chip_of_header_error {c : Cursor} (hk : c.kind = .chip) {f : Failure}
    (h : Rule.header c = .error f) :
    (chip c).value = none ∧ c.advance.Over isPlain (chip c).cursor := by
  rcases chip_cases hk with ⟨-, hnone, he⟩ | ⟨hname, -, hnone, he⟩ | ⟨-, -, hok⟩
  · rw [he]
    exact ⟨hnone, .refl _⟩
  · rw [he]
    exact ⟨hnone, .advance (by rw [hname]; decide) (by rw [hname]; rfl)⟩
  · rw [h] at hok
    cases hok

end ChipLogic.Hdl
