import ChipLogic.Proofs.Hdl.Salvage
import ChipLogic.Proofs.Hdl.Turns

/-!
# Where items overlap

A chip that is left off before a `CHIP` leaves nothing to skip. Its skipped item then ends with this
keyword, although the next item may start with it: as a chip that is read, or as a `CHIP` without a
name, which is skipped in its turn.

**Stubs** (`IsStub`) are the words of a chip that is left off like this. The parser takes them for a
chip without a `}` and stops right after them (`chip_of_isStub`), and it stops at a `CHIP` after
nothing else (`isStub_of_chip`). A text **runs into** an item (`RunsInto`) if the parser comes to a
stub and the item's words come next.

**Theorem (`items_apart_iff`).** In every text items start one after the other. They are apart if and
only if the text runs neither into a chip nor into a lone `CHIP`, and no skipped item covers a token
of a chip if and only if the text does not run into a chip.
-/

namespace ChipLogic.Hdl

/-! ## Stubs -/

/-- The words start a chip, and end before its `}` and outside of its parts. -/
inductive IsStub : List Word → Prop
  | keyword {a : String} : IsStub [(.chip, a)]
  | name {a name : String} : IsStub [(.chip, a), (.identifier, name)]
  | body {a b name : String} {body : List Word} (brace : ∀ w ∈ body, w.1 ≠ .rightBrace)
      (chip : ∀ w ∈ body, w.1 ≠ .chip) (parts : ¬ OpensParts body) :
      IsStub ((.chip, a) :: (.identifier, name) :: (.leftBrace, b) :: body)

/-- The words start with a chip and its `}`. -/
def StartsChip (ws : List Word) : Prop :=
  ∃ name head body brace rest, ws = head ++ (body ++ (.rightBrace, brace) :: rest) ∧
    OpensChip name head ∧ IsBody body

/-- The words start with a `CHIP` that the next `CHIP` or the end of the text follows. -/
def StartsLone (ws : List Word) : Prop :=
  ∃ a rest, ws = (.chip, a) :: rest ∧ (nextKind rest = .endOfFile ∨ nextKind rest = .chip)

/-- A chip that the parser comes to is left off right before words of a sort. -/
def RunsInto (p : List Word → Prop) (ws : List Word) : Prop :=
  ∃ before stub next, ws = before ++ (stub ++ next) ∧ ¬ LeavesParts before ∧ IsStub stub ∧ p next

/-- The words start with the keyword and the other words of the item. -/
def Item.Starts : Item → List Word → Prop
  | .chip _, ws => StartsChip ws
  | .skipped _, ws => StartsLone ws

variable {b : SourceBook} {n : Nat} {c c₁ c' : Cursor} {i : Item} {is : List Item}
  {vs ws stub taken : List Word} {p : List Word → Prop}

theorem IsStub.nextKind (h : IsStub stub) (vs : List Word) : nextKind (stub ++ vs) = .chip := by
  cases h <;> rfl

theorem StartsChip.nextKind (h : StartsChip ws) : nextKind ws = .chip := by
  obtain ⟨name, head, body, brace, rest, rfl, hhead, -⟩ := h
  exact hhead.nextKind _

theorem StartsLone.nextKind (h : StartsLone ws) : nextKind ws = .chip := by
  obtain ⟨a, rest, rfl, -⟩ := h
  rfl

theorem Item.Starts.nextKind (h : i.Starts ws) : nextKind ws = .chip := by
  cases i with
  | chip node => exact StartsChip.nextKind h
  | skipped s => exact StartsLone.nextKind h

theorem RunsInto.after (h : RunsInto p vs) (hpassed : Passed taken vs) :
    RunsInto p (taken ++ vs) := by
  obtain ⟨before, stub, next, rfl, hbefore, hstub, hnext⟩ := h
  exact ⟨taken ++ before, stub, next, (List.append_assoc _ _ _).symm,
    fun hopen => hbefore (hpassed before _ rfl (hstub.nextKind _) hopen), hstub, hnext⟩

/-- The parser stops at a `CHIP` without having read a chip only after a stub. -/
theorem isStub_of_chip (hk : c.kind = .chip) (hnone : (chip c).value = none)
    (hstop : (chip c).cursor.kind = .chip) :
    ∃ stub, c.words = stub ++ (chip c).cursor.words ∧ IsStub stub := by
  have hkeyword := (Cursor.Passes.advance hk (by decide)).words
  rcases chip_cases hk with ⟨-, -, he⟩ | ⟨hname, -, -, he⟩ | ⟨-, -, hheader⟩
  · rw [he]
    exact ⟨_, hkeyword, .keyword⟩
  · have hwords := (Cursor.Passes.advance hname (by decide)).words
    rw [he, hkeyword, hwords]
    exact ⟨_, rfl, .name⟩
  · obtain ⟨_, hpass, a, b, rfl⟩ := Rule.Reads.header.ok hheader
    rcases chip_of_header hheader with ⟨_, _, -, -, node, hnode, -⟩ | ⟨-, -, hcursor⟩
    · rw [hnone] at hnode
      cases hnode
    · obtain ⟨body, hwords, hbody, -, hchip⟩ := exists_body c.advance.advance.advance.words
      rw [Cursor.kind_eq, hcursor] at hstop
      obtain ⟨hopen, hnochip⟩ := hchip hstop
      rw [hpass.words, hwords, ← hcursor]
      exact ⟨_, rfl, .body hbody.no_brace hnochip hopen⟩

/-- The sections of a stub end where it does. -/
theorem sectionsEnd_of_stub {body : List Word} (hbrace : ∀ w ∈ body, w.1 ≠ .rightBrace)
    (hchip : ∀ w ∈ body, w.1 ≠ .chip) (hend : ∀ w ∈ body, w.1 ≠ .endOfFile)
    (hparts : ¬ OpensParts body) (hvs : nextKind vs = .chip) : sectionsEnd (body ++ vs) = vs := by
  obtain ⟨us, hs, he⟩ := sectionsEnd_of_not_opensParts hparts hvs
  obtain ⟨-, -, -, hends, -⟩ := exists_body (body ++ vs)
  cases us with
  | nil => exact he
  | cons w us =>
    have hw : w ∈ body := hs.subset List.mem_cons_self
    rw [he] at hends
    have hends : endsSections w.1 = true := hends
    simp [endsSections, hbrace w hw, hchip w hw, hend w hw] at hends

/-- A stub before a `CHIP` is not read as a chip, and the parser stops after it. -/
theorem chip_of_isStub (hstub : IsStub stub) (hc : c.words = stub ++ vs) (hvs : nextKind vs = .chip)
    (hend : ∀ w ∈ stub, w.1 ≠ .endOfFile) :
    (chip c).value = none ∧ (chip c).cursor.words = vs := by
  cases hstub with
  | keyword =>
    obtain ⟨hk, -, hwords⟩ := Cursor.of_words_cons hc (by decide)
    have hnext : c.advance.kind = .chip := by rw [Cursor.kind_eq, hwords]; exact hvs
    rcases chip_cases hk with ⟨-, hnone, he⟩ | ⟨hname, -⟩ | ⟨hname, -⟩
    · exact ⟨hnone, he ▸ hwords⟩
    · simp [hnext] at hname
    · simp [hnext] at hname
  | name =>
    obtain ⟨hk, -, hwords⟩ := Cursor.of_words_cons hc (by decide)
    obtain ⟨hname, -, hwords⟩ := Cursor.of_words_cons hwords (by decide)
    have hnext : c.advance.advance.kind = .chip := by rw [Cursor.kind_eq, hwords]; exact hvs
    rcases chip_cases hk with ⟨hother, -⟩ | ⟨-, -, hnone, he⟩ | ⟨-, hbrace, -⟩
    · exact absurd hname hother
    · exact ⟨hnone, he ▸ hwords⟩
    · simp [hnext] at hbrace
  | body brace chip parts =>
    obtain ⟨hk, -, hwords⟩ := Cursor.of_words_cons hc (by decide)
    obtain ⟨hname, -, hwords⟩ := Cursor.of_words_cons hwords (by decide)
    obtain ⟨hbrace, -, hwords⟩ := Cursor.of_words_cons hwords (by decide)
    rcases chip_cases hk with ⟨hother, -⟩ | ⟨-, hother, -⟩ | ⟨-, -, hheader⟩
    · exact absurd hname hother
    · exact absurd hbrace hother
    · simp only [List.forall_mem_cons] at hend
      have hstop : sectionsEnd c.advance.advance.advance.words = vs := by
        rw [hwords]
        exact sectionsEnd_of_stub brace chip hend.2.2.2 parts hvs
      rcases chip_of_header hheader with ⟨_, _, hclosed, -⟩ | ⟨-, hnone, hcursor⟩
      · rw [hstop] at hclosed
        rw [hclosed] at hvs
        cases hvs
      · exact ⟨hnone, hcursor.trans hstop⟩

/-! ## Only stubs overlap -/

/-- What a turn gives ends where the next turn starts, or it is a stub before a `CHIP` and ends
with this keyword. -/
theorem Turn.stop (h : Turn c i c') (hc : c.Sound b n) (hk : c'.kind ≠ .endOfFile) :
    i.span.stop = c'.passed ∨ (i.chip? = none ∧ c'.kind = .chip ∧ i.span.stop = c'.span.stop ∧
      ∃ stub, c.words = stub ++ c'.words ∧ IsStub stub) := by
  cases h with
  | chip kind value => exact .inl (joined_chip hc kind value).stop
  | failed kind value =>
    have hreach := Cursor.Reaches.chip hc kind
    by_cases hchip : (Hdl.chip c).cursor.kind = .chip
    · obtain ⟨p, hp, -⟩ := hreach.previous_of_advance hc (by rw [kind]; decide)
      rw [skipToChip_of_stop (.inr hchip)]
      exact .inr ⟨rfl, hchip, stop_skippedItem hreach.sound hp hchip,
        isStub_of_chip kind value hchip⟩
    · have hend : (Hdl.chip c).cursor.kind ≠ .endOfFile := by
        intro hend
        rw [skipToChip_of_stop (.inl hend)] at hk
        exact hk hend
      exact .inl (spanned_skippedItem hreach.sound hend hchip).stop
  | stray inside kind => exact .inl (spanned_skippedItem hc inside kind).stop

/-- What a turn gives starts with the keyword that comes next, or after it. -/
theorem Turn.starts_or_le (h : Turn c i c') (hc : c.Sound b n) (hk : c.kind = .chip) :
    i.Starts c.words ∨ c.span.stop ≤ i.span.start := by
  obtain ⟨hkeyword, htaken, -⟩ := hc.advance (by rw [hk]; decide)
  cases h with
  | chip kind value =>
    obtain ⟨head, body, brace, hwords, hhead, hbody⟩ := words_of_chip value
    exact .inl ⟨_, head, body, brace, _, hwords, hhead, hbody⟩
  | failed kind value =>
    rw [htaken.stop]
    rcases reaches_chip hc hk with ⟨-, -, he⟩ | ⟨hname, hreach⟩
    · rw [he]
      by_cases hstop : c.advance.kind = .endOfFile ∨ c.advance.kind = .chip
      · have hwords := (Cursor.Passes.advance hk (by decide)).words
        rw [Cursor.kind_eq] at hstop
        exact .inl ⟨_, _, hwords, hstop⟩
      · rw [not_or] at hstop
        exact .inr (spanned_skippedItem hkeyword.sound hstop.1 hstop.2).start
    · -- the name, or a token after it, is the last one before the fault
      obtain ⟨p, hp, hlow⟩ := hreach.previous_of_advance hkeyword.sound (by rw [hname]; decide)
      exact .inr (startsWithin_skippedItem hreach.sound hp hlow).start
  | stray inside kind => exact absurd hk kind

/-- **Items overlap only where the words run into the later one.** -/
theorem Turns.pairwise_apart (h : Turns c is c') (hc : c.Sound b n) :
    is.Pairwise fun i j =>
      i.span.stop ≤ j.span.start ∨ i.chip? = none ∧ RunsInto j.Starts c.words := by
  induction h with
  | refl => exact .nil
  | @cons c c₁ c' i is first rest ih =>
    have hc₁ := first.sound hc
    cases rest with
    | refl => exact List.pairwise_singleton _ _
    | @cons _ c₂ _ j js second rest =>
      obtain ⟨taken, hwords, hpassed⟩ := first.passed second.kind_ne
      refine .cons ?_ ((ih hc₁).imp fun h => h.imp_right fun h => ⟨h.1, hwords ▸ h.2.after hpassed⟩)
      rcases first.stop hc second.kind_ne with hstop | ⟨hnone, hchip, hstop, stub, hstub, his⟩
      · intro j' hj'
        rw [hstop]
        exact .inl ((Turns.cons second rest).mem hc₁ j' hj').2.1
      · rw [hstop]
        refine List.forall_mem_cons.2 ⟨?_, fun j' hj' => .inl ?_⟩
        · exact (second.starts_or_le hc₁ hchip).symm.imp_right fun hstarts =>
            ⟨hnone, [], stub, c₁.words, hstub, nofun, his, hstarts⟩
        · -- the second turn takes the keyword, and later items start after this turn
          rw [(hc₁.advance second.kind_ne).2.1.stop]
          exact Nat.le_trans (second.reaches hc₁).passed (rest.mem (second.sound hc₁) j' hj').2.1

/-! ## The end of the text -/

theorem nextKind_concat (ws : List Word) : nextKind (ws ++ [(.endOfFile, "")]) = nextKind ws := by
  cases ws <;> rfl

theorem startsChip_of_concat (h : StartsChip (ws ++ [(.endOfFile, "")])) : StartsChip ws := by
  obtain ⟨name, head, body, brace, rest, he, hhead, hbody⟩ := h
  rcases List.eq_nil_or_concat rest with rfl | ⟨rest, w, rfl⟩
  · have he : ws ++ [(.endOfFile, "")] = (head ++ body) ++ [(.rightBrace, brace)] := by
      simpa using he
    cases (List.cons.inj (List.append_inj' he rfl).2).1
  · have he : ws ++ [(.endOfFile, "")] =
        (head ++ (body ++ (.rightBrace, brace) :: rest)) ++ [w] := by simpa using he
    exact ⟨name, head, body, brace, rest, (List.append_inj' he rfl).1, hhead, hbody⟩

theorem startsLone_concat_iff : StartsLone (ws ++ [(.endOfFile, "")]) ↔ StartsLone ws := by
  constructor
  · rintro ⟨a, rest, he, hnext⟩
    cases ws with
    | nil => cases he
    | cons w ws =>
      rw [List.cons_append] at he
      obtain ⟨rfl, rfl⟩ := List.cons.inj he
      rw [nextKind_concat] at hnext
      exact ⟨a, ws, rfl, hnext⟩
  · rintro ⟨a, rest, rfl, hnext⟩
    rw [← nextKind_concat] at hnext
    exact ⟨a, _, rfl, hnext⟩

/-- The token at the end of the text is no word of an item. -/
theorem Item.Starts.of_concat (h : i.Starts (ws ++ [(.endOfFile, "")])) : i.Starts ws := by
  cases i with
  | chip node => exact startsChip_of_concat h
  | skipped s => exact startsLone_concat_iff.1 h

theorem runsInto_of_concat (h : RunsInto i.Starts (ws ++ [(.endOfFile, "")])) :
    RunsInto i.Starts ws := by
  obtain ⟨before, stub, next, he, hbefore, hstub, hnext⟩ := h
  rcases List.eq_nil_or_concat next with rfl | ⟨next, w, rfl⟩
  · cases hnext.nextKind
  · rw [List.concat_eq_append] at he hnext
    have he : ws ++ [(.endOfFile, "")] = (before ++ (stub ++ next)) ++ [w] := by simpa using he
    obtain ⟨rfl, hw⟩ := List.append_inj' he rfl
    obtain rfl := (List.cons.inj hw).1
    exact ⟨before, stub, next, rfl, hbefore, hstub, hnext.of_concat⟩

/-! ## Stubs overlap -/

/-- A stub is skipped, and the `CHIP` after it is taken for a part of it. -/
theorem turn_of_isStub (hc : c.Sound b n) (hstub : IsStub stub) (hwords : c.words = stub ++ vs)
    (hvs : nextKind vs = .chip) (hend : ∀ w ∈ stub, w.1 ≠ .endOfFile) :
    ∃ s c', Turn c (.skipped s) c' ∧ c'.words = vs ∧ s.Covers c'.span := by
  have hk : c.kind = .chip := by rw [Cursor.kind_eq, hwords, hstub.nextKind]
  obtain ⟨hnone, hcursor⟩ := chip_of_isStub hstub hwords hvs hend
  have hchip : (chip c).cursor.kind = .chip := by rw [Cursor.kind_eq, hcursor, hvs]
  have hreach := Cursor.Reaches.chip hc hk
  obtain ⟨p, hp, -⟩ := hreach.previous_of_advance hc (by rw [hk]; decide)
  obtain ⟨-, htaken, -⟩ := hreach.sound.advance (by rw [hchip]; decide)
  have hturn := Turn.failed hk hnone
  have hwithin := hturn.startsWithin hc
  rw [skipToChip_of_stop (.inr hchip)] at hturn hwithin
  have hcovers : (skippedItem (chip c).cursor).span.Covers (chip c).cursor.span := {
    file := htaken.file.trans hwithin.file.symm
    start := Nat.le_of_lt (Nat.lt_of_lt_of_le hwithin.before htaken.start)
    stop := Nat.le_of_eq (stop_skippedItem hreach.sound hp hchip).symm }
  exact ⟨_, _, hturn, hcursor, hcovers⟩

/-- A chip with its `}` is read. -/
theorem turn_of_startsChip (hwords : c.words = ws ++ [(.endOfFile, "")]) (h : StartsChip ws)
    (hend : ∀ w ∈ ws, w.1 ≠ .endOfFile) : ∃ node c', Turn c (.chip node) c' := by
  have hk : c.kind = .chip := by rw [Cursor.kind_eq, hwords, nextKind_concat, h.nextKind]
  obtain ⟨name, head, body, brace, rest, rfl, hhead, hbody⟩ := h
  simp only [List.append_assoc, List.cons_append] at hwords
  simp only [List.forall_mem_append] at hend
  obtain ⟨-, node, hnode, -⟩ := chip_of_isBody hwords hhead hbody hend.2.1
  exact ⟨node, _, .chip hk hnode⟩

/-- A lone `CHIP` is skipped from its keyword on. -/
theorem turn_of_startsLone (hc : c.Sound b n) (h : StartsLone c.words) :
    ∃ s c', Turn c (.skipped s) c' ∧ s.start = c.span.start := by
  have hk : c.kind = .chip := by rw [Cursor.kind_eq, h.nextKind]
  obtain ⟨a, rest, hwords, hnext⟩ := h
  obtain ⟨-, -, hrest⟩ := Cursor.of_words_cons hwords (by decide)
  rw [← hrest, ← Cursor.kind_eq] at hnext
  obtain ⟨hkeyword, htaken, -⟩ := hc.advance (by rw [hk]; decide)
  rcases reaches_chip hc hk with ⟨-, hnone, he⟩ | ⟨hname, -⟩
  · refine ⟨_, _, .failed hk hnone, ?_⟩
    show (skippedItem (chip c).cursor).span.start = _
    rw [he, skippedItem_of_stop hkeyword.sound htaken.last hnext]
  · rcases hnext with hnext | hnext <;> simp [hname] at hnext

/-- A chip covers the keyword that it starts with. -/
theorem Turn.covers_keyword {node : ChipNode} (h : Turn c (.chip node) c') (hc : c.Sound b n) :
    node.span.start = c.span.start ∧ node.span.Covers c.span ∧
      ∃ t ∈ c.rest, t.span = c.span ∧ t.kind = .chip := by
  cases h with
  | chip kind value =>
    have hjoined := joined_chip hc kind value
    obtain ⟨-, htaken, -⟩ := hc.advance (by rw [kind]; decide)
    have hstop : c.span.stop ≤ node.span.stop := by
      rw [htaken.stop, hjoined.stop]
      exact (Cursor.Reaches.chip hc kind).passed
    refine ⟨hjoined.first, ⟨htaken.file.trans hjoined.file.symm, ?_, hstop⟩, ?_⟩
    · exact Nat.le_of_eq hjoined.first
    · obtain ⟨previous, rest⟩ := c
      cases rest with
      | nil => cases kind
      | cons t rest => exact ⟨t, List.mem_cons_self, rfl, kind⟩

/-- The parser comes to the stub, and skips it together with the keyword after it. -/
theorem turns_of_runsInto (hc : c.Sound b n) (hwords : c.words = ws ++ [(.endOfFile, "")])
    (hend : ∀ w ∈ ws, w.1 ≠ .endOfFile) (hp : ∀ vs, p vs → nextKind vs = .chip)
    (h : RunsInto p ws) : ∃ done s c' vs, Turns c (done ++ [.skipped s]) c' ∧
      s.Covers c'.span ∧ c'.words = vs ++ [(.endOfFile, "")] ∧ p vs ∧
      ∀ w ∈ vs, w.1 ≠ .endOfFile := by
  obtain ⟨before, stub, next, rfl, hbefore, hstub, hnext⟩ := h
  simp only [List.forall_mem_append] at hend
  simp only [List.append_assoc] at hwords
  obtain ⟨done, c₁, hturns, hwords⟩ :=
    turns_of_not_leavesParts (hstub.nextKind _) c before hwords hbefore hend.1
  have hchip : nextKind (next ++ [(.endOfFile, "")]) = .chip := by
    rw [nextKind_concat, hp next hnext]
  obtain ⟨s, c', hturn, hwords, hcovers⟩ :=
    turn_of_isStub (hturns.sound hc) hstub hwords hchip hend.2.1
  exact ⟨done, s, c', next, hturns.concat hturn, hcovers, hwords, hnext, hend.2.2⟩

/-- A skipped item that covers the keyword of the next item is not in order with it. -/
theorem not_inOrder_of_turns {done : List Item} {s : Span} (hc : c.Sound b n)
    (h : Turns c (done ++ [.skipped s]) c₁) (hcovers : s.Covers c₁.span) (hi : Turn c₁ i c')
    (hstart : i.span.start = c₁.span.start) : ¬ Span.InOrder ((items c).value.map Item.span) := by
  rintro ⟨-, hpairs⟩
  have hitems : (items c).value = done ++ (.skipped s :: i :: (items c').value) := by
    rw [h.items, hi.items]
    simp
  rw [hitems, List.pairwise_map] at hpairs
  obtain ⟨-, hpairs, -⟩ := List.pairwise_append.1 hpairs
  have hle : s.stop ≤ i.span.start := ((List.pairwise_cons.1 hpairs).1 i List.mem_cons_self).2
  have hsolid := ((h.sound hc).advance hi.kind_ne).2.1.solid
  have := hcovers.stop
  omega

/-! ## Texts -/

/-- The spans of the items, in order. -/
def Document.itemSpans (d : Document) : List Span :=
  d.items.map Item.span

/-- No skipped item covers a token of a chip. -/
def Document.SparesChips (tokens : List Token) (d : Document) : Prop :=
  ∀ s x, .skipped s ∈ d.items → .chip x ∈ d.items → ∀ t ∈ tokens, t.kind ≠ .endOfFile →
    x.span.Covers t.span → ¬ s.Covers t.span

/-- Where words run into a chip, the skipped item covers the keyword of the chip. -/
theorem overlap_of_startsChip (hc : c.Sound b n) (hwords : c.words = ws ++ [(.endOfFile, "")])
    (hend : ∀ w ∈ ws, w.1 ≠ .endOfFile) (h : RunsInto StartsChip ws) :
    ¬ Span.InOrder ((items c).value.map Item.span) ∧ ∃ s x, ∃ t ∈ c.rest,
      .skipped s ∈ (items c).value ∧ .chip x ∈ (items c).value ∧ t.kind = .chip ∧
        x.span.Covers t.span ∧ s.Covers t.span := by
  obtain ⟨done, s, c₁, vs, hturns, hcovers, hwords, hvs, hend⟩ :=
    turns_of_runsInto hc hwords hend (fun _ => StartsChip.nextKind) h
  obtain ⟨node, c₂, hnext⟩ := turn_of_startsChip hwords hvs hend
  obtain ⟨hstart, hnode, t, ht, hspan, hk⟩ := hnext.covers_keyword (hturns.sound hc)
  have hitems : (items c).value = (done ++ [.skipped s]) ++ .chip node :: (items c₂).value := by
    rw [hturns.items, hnext.items]
  refine ⟨not_inOrder_of_turns hc hturns hcovers hnext hstart, s, node, t,
    hturns.suffix.subset ht, ?_, ?_, hk, hspan ▸ hnode, hspan ▸ hcovers⟩
  · simp [hitems]
  · simp [hitems]

/-- Where words run into a lone `CHIP`, both skipped items have it. -/
theorem overlap_of_startsLone (hc : c.Sound b n) (hwords : c.words = ws ++ [(.endOfFile, "")])
    (hend : ∀ w ∈ ws, w.1 ≠ .endOfFile) (h : RunsInto StartsLone ws) :
    ¬ Span.InOrder ((items c).value.map Item.span) := by
  obtain ⟨done, s, c₁, vs, hturns, hcovers, hwords, hvs, -⟩ :=
    turns_of_runsInto hc hwords hend (fun _ => StartsLone.nextKind) h
  have hlone : StartsLone c₁.words := by rw [hwords]; exact startsLone_concat_iff.2 hvs
  obtain ⟨s', c₂, hnext, hstart⟩ := turn_of_startsLone (hturns.sound hc) hlone
  exact not_inOrder_of_turns hc hturns hcovers hnext hstart

theorem inOrder_items (hc : c.Sound b n) (hwords : c.words = ws ++ [(.endOfFile, "")])
    (hchip : ¬ RunsInto StartsChip ws) (hlone : ¬ RunsInto StartsLone ws) :
    Span.InOrder ((items c).value.map Item.span) := by
  have hturns := turns_items c
  have hmem := hturns.mem hc
  refine ⟨List.forall_mem_map.2 fun i hi => (hmem i hi).2.2, List.pairwise_map.2 ?_⟩
  refine (hturns.pairwise_apart hc).imp_of_mem fun {i j} hi hj h => ?_
  refine ⟨(hmem i hi).1.trans (hmem j hj).1.symm, h.resolve_right ?_⟩
  rintro ⟨-, hruns⟩
  rw [hwords] at hruns
  cases j with
  | chip node => exact hchip (runsInto_of_concat hruns)
  | skipped s => exact hlone (runsInto_of_concat hruns)

/-- Items of different sorts do not cover a stretch both. -/
theorem not_covers_both (hc : c.Sound b n) (hwords : c.words = ws ++ [(.endOfFile, "")])
    (hchip : ¬ RunsInto StartsChip ws) {u : Span} (hu : u.start < u.stop) :
    ∀ i ∈ (items c).value, ∀ j ∈ (items c).value, i.chip?.isSome ≠ j.chip?.isSome →
      i.span.Covers u → ¬ j.span.Covers u := by
  have hpairs : (items c).value.Pairwise fun i j => i.chip?.isSome ≠ j.chip?.isSome →
      i.span.Covers u → ¬ j.span.Covers u := by
    refine ((turns_items c).pairwise_apart hc).imp fun {i j} h hsorts hi hj => ?_
    rcases h with hle | ⟨hnone, hruns⟩
    · have := hi.stop
      have := hj.start
      omega
    · rw [hwords] at hruns
      cases j with
      | chip node => exact hchip (runsInto_of_concat hruns)
      | skipped s => exact hsorts (by rw [hnone]; rfl)
  intro i hi j hj
  exact hpairs.forall_of_forall_of_flip (fun _ _ hsorts => absurd rfl hsorts)
    (hpairs.imp fun h hsorts hj hi => h hsorts.symm hi hj) hi hj

/-- Every text is that of a file in some book. -/
theorem exists_sound (n : Nat) (text : String) :
    ∃ b : SourceBook, Cursor.Sound b n ⟨none, (lex (some n) text).tokens⟩ := by
  let f : SourceFile := ⟨"", text⟩
  have hf : (Array.replicate (n + 1) f)[n]? = some f := by simp
  exact ⟨⟨Array.replicate (n + 1) f⟩, sound_lex (f := f) hf⟩

/-- **Items start one after the other, and overlap just where the text runs into one of them.** -/
theorem items_apart_iff (n : Nat) (text : String) :
    ((parse (some n) text).document.itemSpans.Pairwise
        fun s t => s.file = t.file ∧ s.start < t.start) ∧
      (Span.InOrder (parse (some n) text).document.itemSpans ↔
        ¬ RunsInto StartsChip (words (Piece.split text.toList)) ∧
          ¬ RunsInto StartsLone (words (Piece.split text.toList))) ∧
      ((parse (some n) text).document.SparesChips (lex (some n) text).tokens ↔
        ¬ RunsInto StartsChip (words (Piece.split text.toList))) := by
  obtain ⟨b, hc⟩ := exists_sound n text
  have hwords := words_lex (some n) text
  have hend : ∀ w ∈ words (Piece.split text.toList), w.1 ≠ .endOfFile :=
    fun w => kind_ne_endOfFile_of_mem_words
  have hturns := turns_items ⟨none, (lex (some n) text).tokens⟩
  refine ⟨?starts, ⟨fun h => ⟨fun hruns => ?_, fun hruns => ?_⟩, fun h => ?_⟩, ?spares⟩
  case starts =>
    have hmem := hturns.mem hc
    refine List.pairwise_map.2 ((hturns.pairwise_start hc).imp_of_mem fun hi hj hlt => ⟨?_, hlt⟩)
    exact (hmem _ hi).1.trans (hmem _ hj).1.symm
  case spares =>
    constructor
    · intro h hruns
      obtain ⟨-, s, x, t, ht, hs, hx, hk, hxt, hst⟩ := overlap_of_startsChip hc hwords hend hruns
      exact h s x hs hx t ht (by rw [hk]; decide) hxt hst
    · intro h s x hs hx t ht hk hxt hst
      have hsolid := (hc.texts t ht hk).1
      exact not_covers_both hc hwords h hsolid _ hs _ hx (by simp [Item.chip?]) hst hxt
  · exact (overlap_of_startsChip hc hwords hend hruns).1 h
  · exact overlap_of_startsLone hc hwords hend hruns h
  · exact inOrder_items hc hwords h.1 h.2

-- each of the chips without a name is skipped together with the keyword of the next one
example : (parse (some 0) "CHIP CHIP CHIP").document.itemSpans =
    [⟨some 0, 0, 9⟩, ⟨some 0, 5, 14⟩, ⟨some 0, 10, 14⟩] := by decide +kernel

/-- A chip without its `}` before another chip. -/
def leftOff : String := "CHIP A \x7b IN x;\nCHIP B \x7b \x7d"

/-- The skipped item is the last `;` of the first chip and the keyword of the second one. -/
theorem items_overlap_leftOff :
    ¬ Span.InOrder (parse (some 0) leftOff).document.itemSpans ∧
      ¬ (parse (some 0) leftOff).document.SparesChips (lex (some 0) leftOff).tokens := by
  have hspans : (parse (some 0) leftOff).document.items = [.skipped ⟨some 0, 13, 19⟩,
      .chip ⟨"B", ⟨some 0, 20, 21⟩, [], [], [], ⟨some 0, 15, 25⟩⟩] := by decide +kernel
  have hkeyword : ⟨.chip, "CHIP", ⟨some 0, 15, 19⟩⟩ ∈ (lex (some 0) leftOff).tokens := by
    decide +kernel
  constructor
  · rintro ⟨-, hpairs⟩
    rw [Document.itemSpans, hspans] at hpairs
    exact absurd hpairs (by decide)
  · intro h
    rw [Document.SparesChips, hspans] at h
    exact h _ _ List.mem_cons_self (List.mem_cons_of_mem _ List.mem_cons_self) _ hkeyword
      (by decide) ⟨rfl, by decide, by decide⟩ ⟨rfl, by decide, by decide⟩

end ChipLogic.Hdl
