import ChipLogic.Proofs.Hdl.Recovery

/-!
# Which chips of a text are read

A header alone does not make a chip. The parser has to come to it, and it does not if the parts of
a chip before it are left open there. And a `}` has to come before the next `CHIP`; in the parts of
the chip, before the end of the text. Nothing else is asked for: with whatever faults in its pins and
parts, the chip is read (`ClosesChip`).

**From one chip to the next.** What the parser passes over at once is a chip with its `}`, a chip
that is left open before its parts, up to the next `CHIP`, or words without a `CHIP`. None of these
leaves parts open (`Passed`), so the parser never stands at a header that is in the parts of another
chip.

**Theorem (`exists_chip_iff`).** A chip of some name is read from a text, with faults in it or
without, if and only if the text has such a header and such a `}`.
-/

namespace ChipLogic.Hdl

/-- There is a chip in the words that the parser comes to and that a brace closes. -/
def ClosesChip (name : String) (ws : List Word) : Prop :=
  ∃ before head body brace rest, ws = before ++ (head ++ (body ++ (.rightBrace, brace) :: rest)) ∧
    OpensChip name head ∧ IsBody body ∧ ¬ LeavesParts before

variable {us vs ws taken : List Word} {w : Word} {c : Cursor} {name : String}

/-! ## Words that leave no parts open -/

theorem eq_nil_or_chip (h : nextKind (us ++ vs) = .chip) :
    us = [] ∨ ∃ w us', us = w :: us' ∧ w.1 = .chip := by
  cases us with
  | nil => exact .inl rfl
  | cons w us => exact .inr ⟨w, us, rfl, h⟩

/-- Parts are not opened after a `CHIP`. -/
theorem OpensParts.of_append (h : OpensParts (us ++ w :: vs)) (hw : w.1 = .chip) :
    OpensParts us := by
  generalize he : us ++ w :: vs = ws at h
  induction h generalizing us with
  | parts inside =>
    match us with
    | [] => cases he; cases hw
    | [_] => cases he; cases hw
    | _ :: _ :: us =>
      cases he
      exact .parts fun x hx => inside x (List.mem_append_left _ hx)
  | cons brace chip rest ih =>
    cases us with
    | nil => cases he; exact absurd hw chip
    | cons u us =>
      cases he
      exact .cons brace chip (ih rfl)

/-- Parts that are left open were not opened before the first `CHIP`. -/
theorem LeavesParts.of_append (h : LeavesParts (us ++ vs)) (hus : ∀ w ∈ us, w.1 ≠ .chip) :
    LeavesParts vs := by
  induction us with
  | nil => exact h
  | cons u us ih =>
    obtain ⟨hu, hus⟩ := List.forall_mem_cons.1 hus
    generalize he : u :: us ++ vs = ws at h
    cases h with
    | chip parts =>
      obtain rfl := (List.cons.inj he).1
      exact absurd rfl hu
    | later rest => cases he; exact ih rest hus

/-- Parts that are left open were opened after the last `}`. -/
theorem LeavesParts.after_brace (h : LeavesParts (us ++ w :: vs)) (hw : w.1 = .rightBrace) :
    LeavesParts vs := by
  generalize he : us ++ w :: vs = ws at h
  induction h generalizing us with
  | chip parts =>
    -- there is no brace after the chip
    have hmem : w ∈ us ++ w :: vs := List.mem_append_right _ List.mem_cons_self
    rw [he] at hmem
    simp only [List.mem_cons] at hmem
    rcases hmem with rfl | rfl | rfl | hmem
    · cases hw
    · cases hw
    · cases hw
    · exact absurd hw (parts.no_brace w hmem)
  | later rest ih =>
    cases us with
    | nil => cases he; exact rest
    | cons u us => cases he; exact ih rfl

/-! ## The sections of a chip -/

theorem endsParts_dropWhile (ws : List Word) :
    endsParts (nextKind (ws.dropWhile fun w => !endsParts w.1)) = true := by
  induction ws with
  | nil => rfl
  | cons w ws ih =>
    cases hw : endsParts w.1 with
    | false => simpa [List.dropWhile_cons, hw] using ih
    | true => simp [hw, nextKind]

theorem isBody_takeWhile (a : String) {ws : List Word} (hcolon : nextKind ws = .colon) :
    IsBody ((.parts, a) :: ws.takeWhile fun w => !endsParts w.1) := by
  cases ws with
  | nil => cases hcolon
  | cons v vs =>
    obtain ⟨_, b⟩ := v
    obtain rfl := hcolon
    have hinside : ∀ w ∈ vs.takeWhile fun w => !endsParts w.1, w.1 ≠ .rightBrace := by
      intro w hw he
      have hgo := List.all_eq_true.1 List.all_takeWhile w hw
      rw [he] at hgo
      cases hgo
    exact .parts hinside

/-- The words of the sections of a chip. If the next `CHIP` ends them, no parts are open. -/
theorem exists_body (ws : List Word) : ∃ body, ws = body ++ sectionsEnd ws ∧ IsBody body ∧
    endsSections (nextKind (sectionsEnd ws)) = true ∧
      (nextKind (sectionsEnd ws) = .chip → ¬ OpensParts body ∧ ∀ w ∈ body, w.1 ≠ .chip) := by
  induction ws with
  | nil => exact ⟨[], rfl, .nil, rfl, fun h => by cases h⟩
  | cons w ws ih =>
    rw [sectionsEnd]
    split
    · next hends =>
      exact ⟨[], rfl, .nil, hends, fun _ => ⟨fun h => (by cases h), List.forall_mem_nil _⟩⟩
    next hends =>
    split
    · next hparts =>
      -- parts do not end at a `CHIP`
      have hend := endsParts_dropWhile ws
      obtain ⟨_, a⟩ := w
      obtain ⟨rfl, hcolon⟩ := hparts
      refine ⟨_, congrArg ((Kind.parts, a) :: ·) List.takeWhile_append_dropWhile.symm,
        isBody_takeWhile a hcolon, ?_, fun hchip => ?_⟩
      · simp_all [endsSections, endsParts]
      · rw [hchip] at hend
        cases hend
    · next hparts =>
      obtain ⟨body, he, hbody, hend, hchip⟩ := ih
      have hbrace : w.1 ≠ .rightBrace := fun hk => hends (by rw [hk]; rfl)
      have hne : w.1 ≠ .chip := fun hk => hends (by rw [hk]; rfl)
      refine ⟨w :: body, congrArg (w :: ·) he, .cons hbrace hne hbody, hend, fun hnext => ?_⟩
      obtain ⟨hopen, hnone⟩ := hchip hnext
      refine ⟨fun h => ?_, List.forall_mem_cons.2 ⟨hne, hnone⟩⟩
      cases h with
      | parts inside => exact hparts ⟨rfl, by rw [he]; rfl⟩
      | cons brace chip rest => exact hopen rest

/-! ## What the parser passes over -/

/-- Parts that are open at a later chip were not opened in the words that the parser passed over. -/
def Passed (taken vs : List Word) : Prop :=
  ∀ us ws, vs = us ++ ws → nextKind ws = .chip → LeavesParts (taken ++ us) → LeavesParts us

theorem ClosesChip.after (h : ClosesChip name vs) (hpassed : Passed taken vs) :
    ClosesChip name (taken ++ vs) := by
  obtain ⟨before, head, body, brace, rest, rfl, hhead, hbody, hbefore⟩ := h
  exact ⟨taken ++ before, head, body, brace, rest, (List.append_assoc _ _ _).symm, hhead, hbody,
    fun hopen => hbefore (hpassed before _ rfl (hhead.nextKind _) hopen)⟩

theorem passed_of_no_chip (h : ∀ w ∈ taken, w.1 ≠ .chip) (vs : List Word) : Passed taken vs :=
  fun _ _ _ _ hopen => hopen.of_append h

theorem passed_of_brace (us : List Word) (brace : String) (vs : List Word) :
    Passed (us ++ [(.rightBrace, brace)]) vs := by
  intro us' ws _ _ hopen
  rw [List.append_assoc] at hopen
  exact hopen.after_brace rfl

/-- A chip that is read has a header, a body and a brace. -/
theorem words_of_chip {node : ChipNode} (hnode : (chip c).value = some node) :
    ∃ head body brace, c.words = head ++ (body ++ (.rightBrace, brace) :: (chip c).cursor.words) ∧
      OpensChip node.name head ∧ IsBody body := by
  cases hheader : Rule.header c with
  | error f =>
    unfold chip at hnode
    rw [hheader] at hnode
    cases hnode
  | ok found =>
    obtain ⟨⟨start, name, nameSpan⟩, c₁⟩ := found
    obtain ⟨head, hpass, hhead⟩ := Rule.Reads.header.ok hheader
    obtain ⟨body, hwords, hbody, -, -⟩ := exists_body c₁.words
    rcases chip_of_header hheader with ⟨brace, rest, hend, rfl, node', hnode', rfl⟩ | ⟨-, hnone, -⟩
    · obtain rfl : node = node' := Option.some.inj (hnode.symm.trans hnode')
      exact ⟨head, body, brace, by rw [hpass.words, hwords, hend], hhead, hbody⟩
    · rw [hnone] at hnode
      cases hnode

/-- A chip that is read is one that a brace closes. -/
theorem exists_closed {node : ChipNode} (hnode : (chip c).value = some node) :
    ∃ taken, c.words = taken ++ (chip c).cursor.words ∧ Passed taken (chip c).cursor.words ∧
      ClosesChip node.name c.words := by
  obtain ⟨head, body, brace, hc, hhead, hbody⟩ := words_of_chip hnode
  exact ⟨(head ++ body) ++ [(.rightBrace, brace)], by simpa using hc, passed_of_brace _ _ _,
    [], head, body, brace, _, hc, hhead, hbody, nofun⟩

/-- A chip without parts is passed over up to the next `CHIP`. -/
theorem passed_of_not_opensParts {a b : String} {body : List Word} (hopen : ¬ OpensParts body)
    (hnone : ∀ w ∈ body, w.1 ≠ .chip) (hvs : nextKind vs = .chip) :
    Passed ((.chip, a) :: (.identifier, name) :: (.leftBrace, b) :: body) vs := by
  rintro us ws rfl - h
  cases h with
  | chip parts =>
    rcases eq_nil_or_chip hvs with rfl | ⟨w, us', rfl, hw⟩
    · exact absurd (List.append_nil body ▸ parts) hopen
    · exact absurd (parts.of_append hw) hopen
  | later rest => exact rest.of_append (by simpa using hnone)

/-- Where a chip should start and does not, no parts are opened. -/
theorem passed_of_header_error {a : String} {f : Failure} (h : Rule.header c = .error f)
    (hc : c.words = (.chip, a) :: taken ++ vs) (hnone : ∀ w ∈ taken, w.1 ≠ .chip) :
    Passed ((.chip, a) :: taken) vs := by
  rintro us ws rfl - hopen
  rw [← List.append_assoc] at hc
  generalize he : (Kind.chip, a) :: taken ++ us = opened at hopen hc
  cases hopen with
  | chip parts =>
    obtain ⟨_, _, hok, -⟩ := Rule.Accepts.header.ok c _ hc trivial
    rw [h] at hok
    cases hok
  | later rest =>
    obtain ⟨-, rfl⟩ := List.cons.inj he
    exact rest.of_append hnone

/-- After a chip that is not read, the parser goes on at the next `CHIP`. -/
theorem exists_failed (hk : c.kind = .chip) (hnone : (chip c).value = none)
    (hnext : nextKind (chip c).cursor.skipToChip.words = .chip) :
    ∃ taken, c.words = taken ++ (chip c).cursor.skipToChip.words ∧
      Passed taken (chip c).cursor.skipToChip.words := by
  have hskip := over_skipToChip (chip c).cursor
  cases hheader : Rule.header c with
  | error f =>
    have hover := (chip_of_header_error hk hheader).2
    have hnochip : ∀ kind, isPlain kind = true → (kind != .chip) = true :=
      fun kind hplain => bne_iff_ne.2 fun he => by rw [he] at hplain; cases hplain
    obtain ⟨taken, hadvance, hkinds⟩ :=
      (hover.mono hnochip).trans (hskip.mono fun kind h => by simp_all)
    have hc := (Cursor.Passes.advance hk (by decide)).words
    rw [hadvance, ← List.append_assoc] at hc
    exact ⟨_, hc, passed_of_header_error hheader hc fun w hw => bne_iff_ne.1 (hkinds w hw)⟩
  | ok found =>
    obtain ⟨⟨start, name, nameSpan⟩, c₁⟩ := found
    obtain ⟨_, hpass, a, b, rfl⟩ := Rule.Reads.header.ok hheader
    obtain ⟨body, hwords, -, hend, hchip⟩ := exists_body c₁.words
    rcases chip_of_header hheader with ⟨_, _, -, -, _, hnode, -⟩ | ⟨hbrace, -, hcursor⟩
    · rw [hnone] at hnode
      cases hnode
    · have hcursor : (chip c).cursor.words = [] ++ sectionsEnd c₁.words := hcursor
      have hstop : (!(nextKind (sectionsEnd c₁.words) == .endOfFile ||
          nextKind (sectionsEnd c₁.words) == .chip)) = false :=
        (Bool.not_eq_false' _).mpr (by simpa [endsSections, hbrace] using hend)
      obtain ⟨us, hs, hwords'⟩ := hskip.before hcursor hstop
      obtain rfl := List.suffix_nil.1 hs
      rw [hwords', List.nil_append] at hnext ⊢
      obtain ⟨hopen, hnochip⟩ := hchip hnext
      exact ⟨(_, a) :: (_, name) :: (_, b) :: body,
        hpass.words.trans (congrArg ([(_, a), (_, name), (_, b)] ++ ·) hwords),
        passed_of_not_opensParts hopen hnochip hnext⟩

theorem kind_skipToChip (c : Cursor) :
    c.skipToChip.kind = .endOfFile ∨ c.skipToChip.kind = .chip := by
  obtain ⟨previous, rest⟩ := c
  unfold Cursor.skipToChip
  dsimp only
  fun_induction Hdl.skipToChip previous rest with
  | case1 => exact .inl rfl
  | case2 _ _ _ hk => exact .inl hk
  | case3 _ _ _ hk => exact .inr hk
  | case4 _ _ _ _ _ ih => exact ih

theorem Turn.kind_ne {i : Item} {c' : Cursor} (h : Turn c i c') : c.kind ≠ .endOfFile := by
  cases h with
  | chip kind value => rw [kind]; decide
  | failed kind value => rw [kind]; decide
  | stray inside kind => exact inside

/-- A turn leaves no parts open for the next one. -/
theorem Turn.passed {i : Item} {c' : Cursor} (h : Turn c i c') (hk : c'.kind ≠ .endOfFile) :
    ∃ taken, c.words = taken ++ c'.words ∧ Passed taken c'.words := by
  cases h with
  | chip kind value =>
    obtain ⟨taken, hwords, hpassed, -⟩ := exists_closed value
    exact ⟨taken, hwords, hpassed⟩
  | failed kind value =>
    have hnext := (kind_skipToChip (Hdl.chip c).cursor).resolve_left hk
    rw [Cursor.kind_eq] at hnext
    exact exists_failed kind value hnext
  | stray inside kind =>
    obtain ⟨taken, hwords, hkinds⟩ := over_skipToChip c
    refine ⟨taken, hwords, passed_of_no_chip (fun w hw he => ?_) _⟩
    simpa [he] using hkinds w hw

/-- **Every chip that is read is closed** in the words that the cursor stands before. -/
theorem closesChip_of_mem (c : Cursor) :
    ∀ node, .chip node ∈ (items c).value → ClosesChip node.name c.words := by
  intro node
  have hturns := turns_items c
  generalize (items c).value = is, (items c).cursor = c' at hturns
  induction hturns with
  | refl => exact fun hmem => absurd hmem List.not_mem_nil
  | cons first rest ih =>
    intro hmem
    rcases List.mem_cons.1 hmem with rfl | hmem
    · cases first with
      | chip kind value =>
        obtain ⟨-, -, -, hclosed⟩ := exists_closed value
        exact hclosed
    · cases rest with
      | refl => cases hmem
      | cons second rest =>
        obtain ⟨taken, hwords, hpassed⟩ := first.passed second.kind_ne
        rw [hwords]
        exact (ih hmem).after hpassed

/-! ## Texts -/

theorem mem_chips_iff {d : Document} {node : ChipNode} : node ∈ d.chips ↔ .chip node ∈ d.items := by
  rw [Document.chips, List.mem_filterMap]
  constructor
  · rintro ⟨i, hi, he⟩
    cases i with
    | chip node' => cases he; exact hi
    | skipped span => cases he
  · exact fun h => ⟨_, h, rfl⟩

/-- The end of the text does not close a chip. -/
theorem ClosesChip.of_concat (h : ClosesChip name (ws ++ [w])) (hw : w.1 ≠ .rightBrace) :
    ClosesChip name ws := by
  obtain ⟨before, head, body, brace, rest, he, hhead, hbody, hbefore⟩ := h
  rcases List.eq_nil_or_concat rest with rfl | ⟨rest, w', rfl⟩
  · have he : ws ++ [w] = (before ++ (head ++ body)) ++ [(.rightBrace, brace)] := by simpa using he
    obtain rfl := (List.cons.inj (List.append_inj' he rfl).2).1
    exact absurd rfl hw
  · have he : ws ++ [w] =
        (before ++ (head ++ (body ++ (.rightBrace, brace) :: rest))) ++ [w'] := by simpa using he
    exact ⟨before, head, body, brace, rest, (List.append_inj' he rfl).1, hhead, hbody, hbefore⟩

/-- **A chip of a name is read just if there is a header of the name that the parser comes to and a
`}` for it.** -/
theorem exists_chip_iff (file : Option Nat) (text name : String) :
    (∃ node ∈ (parse file text).document.chips, node.name = name) ↔
      ClosesChip name (words (Piece.split text.toList)) := by
  constructor
  · rintro ⟨node, hmem, rfl⟩
    have hclosed := closesChip_of_mem _ node (mem_chips_iff.1 hmem)
    rw [words_lex file text] at hclosed
    exact hclosed.of_concat (by decide)
  · rintro ⟨before, head, body, brace, rest, hwords, hhead, hbody, hbefore⟩
    obtain ⟨done, node, c, hitems, hname, -⟩ := items_of_isBody file hwords hbefore hhead hbody
    refine ⟨node, mem_chips_iff.2 ?_, hname⟩
    rw [hitems]
    exact List.mem_append_right _ List.mem_cons_self

end ChipLogic.Hdl
