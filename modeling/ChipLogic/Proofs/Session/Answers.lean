import ChipLogic.Proofs.Session.Link

/-!
# No failure without an error

Finding a chip, making a wire and linking end well or not, and a step that does not end well is
never silent. Either it reports an error itself, or it repeats a failure that the session remembers:
a name that leads nowhere, a text with faults, a chip that did not link.

**Accounted sessions** (`Session.Accounted`). Every failure that is remembered has left an error in
the log. That is what makes it right to repeat a failure and to report nothing.

**Answers** (`Session.Answers ok s s'`). A step from `s` to `s'` with the result `ok` keeps sessions
accounted, leaves an error behind if `ok` is `false`, and puts no chip in progress for good.

The steps of linking are gone through from names (`Session.answers_resolve`) to wires
(`Session.answers_connectAll`) to chips (`Session.answers_linkFresh`). Where one step follows
another, the answers do too (`Session.Answers.trans`).
-/

namespace ChipLogic

namespace Session

variable {s s' s'' : Session} {ok ok' : Bool} {id parent : Nat}

/-! ## Accounted sessions -/

/-- Every failure that is remembered has left an error behind. -/
def Accounted (s : Session) : Prop :=
  s.log.hasErrors ∨ s.failed = [] ∧ s.missing = [] ∧ ∀ id, s.status? id ≠ some (.linked false)

/-- `s'` comes from `s` by a step with the result `ok`. -/
structure Answers (ok : Bool) (s s' : Session) : Prop where
  log : s.log.history <+: s'.log.history
  inProgress : ∀ id, s'.status? id = some .inProgress → s.status? id = some .inProgress
  accounted : s.Accounted → s'.Accounted
  failed : s.Accounted → ok = false → s'.log.hasErrors

namespace Answers

theorem trans (h : Answers ok s s') (h' : Answers ok' s' s'') : Answers (ok && ok') s s'' where
  log := h.log.trans h'.log
  inProgress id hid := h.inProgress id (h'.inProgress id hid)
  accounted hs := h'.accounted (h.accounted hs)
  failed hs hok := by
    rw [Bool.and_eq_false_iff] at hok
    rcases hok with hok | hok
    · exact hasErrors_mono h'.log (h.failed hs hok)
    · exact h'.failed (h.accounted hs) hok

theorem trans_true (h : Answers ok s s') (h' : Answers true s' s'') : Answers ok s s'' :=
  Bool.and_true ok ▸ h.trans h'

/-- A step that went on after a failure. -/
theorem passed (h : Answers ok s s') : Answers true s s' :=
  ⟨h.log, h.inProgress, h.accounted, fun _ hok => by cases hok⟩

/-- With an error in the log any result will do. -/
theorem of_hasErrors (h : Answers true s s') (he : s'.log.hasErrors) : Answers ok s s' :=
  ⟨h.log, h.inProgress, h.accounted, fun _ _ => he⟩

/-- A step that puts no failing chip and none in progress. -/
theorem of_status (hlog : s.log.history <+: s'.log.history)
    (hc : s'.log.hasErrors ∨ s'.failed ⊆ s.failed ∧ s'.missing ⊆ s.missing)
    (hst : ∀ id status, s'.status? id = some status →
      status = .unlinked ∨ status = .linked true ∨ s.status? id = some status) :
    Answers true s s' where
  log := hlog
  inProgress id hid := by simpa using hst id _ hid
  accounted hs := by
    rcases hc with he | ⟨hf, hm⟩
    · exact .inl he
    · rcases hs with he | ⟨hf₀, hm₀, hs₀⟩
      · exact .inl (hasErrors_mono hlog he)
      · rw [hf₀] at hf
        rw [hm₀] at hm
        refine .inr ⟨List.subset_nil.1 hf, List.subset_nil.1 hm, fun id hid => hs₀ id ?_⟩
        simpa using hst id _ hid
  failed _ hok := by cases hok

/-- A step that leaves the chips alone. -/
theorem of_chips (hlog : s.log.history <+: s'.log.history)
    (hc : s'.log.hasErrors ∨ s'.failed ⊆ s.failed ∧ s'.missing ⊆ s.missing)
    (h : s'.chips = s.chips) : Answers true s s' :=
  .of_status hlog hc fun id _ hid =>
    .inr (.inr ((status?_congr (congrArg (·[id]?) h)).symm.trans hid))

theorem refl (s : Session) : Answers true s s :=
  .of_chips (List.prefix_refl _) (.inr ⟨List.Subset.refl _, List.Subset.refl _⟩) rfl

/-- A failure may be repeated if it is accounted for. -/
theorem again (h : s.Accounted → s.log.hasErrors) : Answers ok s s :=
  ⟨List.prefix_refl _, fun _ hid => hid, fun hs => hs, fun hs _ => h hs⟩

/-- What linking a chip came to may be repeated. -/
theorem of_linked (h : s.status? id = some (.linked ok)) : Answers ok s s where
  log := List.prefix_refl _
  inProgress _ hid := hid
  accounted hs := hs
  failed hs hok := by
    rcases hs with he | ⟨-, -, hnone⟩
    · exact he
    · exact absurd (hok ▸ h) (hnone id)

end Answers

/-! ## Reporting -/

theorem answers_emitAll (s : Session) (ds : List Diagnostic) : Answers true s (s.emitAll ds) :=
  .of_chips (List.prefix_append _ _) (.inr ⟨List.Subset.refl _, List.Subset.refl _⟩) rfl

theorem answers_report {p : Problem} (hp : p.severity = .error) (span : Span) :
    Answers ok s (s.report p span) :=
  (answers_emitAll s [p.report span]).of_hasErrors (hasErrors_report hp span)

theorem answers_giveUp {name : String} (h : s.log.hasErrors) : Answers ok s (s.giveUp name).2 := by
  have hgive : Answers true s (s.giveUp name).2 := .of_chips (List.prefix_refl _) (.inl h) rfl
  exact hgive.of_hasErrors h

/-! ## Names -/

theorem answers_register (s : Session) (d : Definition) :
    Answers (s.register d).1.isSome s (s.register d).2 := by
  unfold register
  split
  · exact answers_report rfl _
  · refine .of_status (List.prefix_refl _)
      (.inr ⟨List.filter_sublist.subset, List.Subset.refl _⟩) fun id status hid => ?_
    obtain ⟨e, he, rfl⟩ := status?_eq_some_iff.1 hid
    rw [chips_enroll, Array.getElem?_push] at he
    split at he
    · cases he
      exact .inl rfl
    · exact .inr (.inr (status?_of_entry he))

theorem answers_registerAll (s : Session) (ds : List Definition) :
    Answers true s (s.registerAll ds).2 := by
  induction ds generalizing s with
  | nil => exact .refl s
  | cons d ds ih => exact (answers_register s d).passed.trans (ih _)

theorem answers_loadSource (s : Session) (path text : String) :
    Answers (s.loadSource path text).1.isSome s (s.loadSource path text).2 := by
  have hadd : Answers true s { s with sources := s.sources.add path text } :=
    .of_chips (List.prefix_refl _) (.inr ⟨List.Subset.refl _, List.Subset.refl _⟩) rfl
  rcases loadSource_cases s path text with ⟨ds, -, he⟩ | ⟨faults, keys, hne, herr, he⟩
  · rw [he]
    exact hadd.trans (answers_registerAll _ ds)
  · have hnone : (s.loadSource path text).1 = none := by rw [he]
    have herrors := hasErrors_loadSource hnone
    have hfail : Answers true s (s.loadSource path text).2 := by
      rw [he] at herrors ⊢
      exact .of_chips (List.prefix_append _ _) (.inl herrors) rfl
    exact hfail.of_hasErrors herrors

theorem answers_resolveGate (s : Session) (name : String) (span : Span) :
    Answers (s.resolveGate name span).1.isSome s (s.resolveGate name span).2 := by
  unfold resolveGate
  split
  · exact answers_register s _
  · have hreport : Answers true s (s.report (.chipNotFound name) span) := answers_report rfl span
    exact hreport.trans (answers_giveUp (hasErrors_report rfl span))

theorem answers_resolveText (s : Session) (path text name : String) (span : Span) :
    Answers (s.resolveText path text name span).1.isSome s
      (s.resolveText path text name span).2 := by
  have hload := answers_loadSource s path text
  unfold resolveText
  dsimp only
  split
  · dsimp only
    split
    · exact hload.passed.trans (answers_emitAll _ _)
    · exact hload.passed
  · split
    · exact (hload.passed.trans_true (answers_report rfl span)).trans
        (answers_giveUp (hasErrors_report rfl span))
    · next hn =>
      have hnone : (s.loadSource path text).1 = none := by simpa using hn
      exact hload.passed.trans (answers_giveUp (hasErrors_loadSource hnone))

/-- **A name that leads nowhere has left an error behind.** -/
theorem answers_resolve (s : Session) (name : String) (span : Span) :
    Answers (s.resolve name span).1.isSome s (s.resolve name span).2 := by
  unfold resolve
  split
  · exact .refl s
  · split
    · next hknown =>
      -- the name has failed before
      refine .again fun hs => ?_
      rcases hs with he | ⟨hf, hm, -⟩
      · exact he
      · simp [hf, hm] at hknown
    · split
      · exact answers_resolveGate s name span
      · next folder _ =>
        have hask : Answers true s { s with asked := s.asked ++ [name] } :=
          .of_chips (List.prefix_refl _) (.inr ⟨List.Subset.refl _, List.Subset.refl _⟩) rfl
        dsimp only
        split
        · exact hask.trans (answers_resolveText _ _ _ name span)
        · exact hask.trans (answers_resolveGate _ name span)
        · next reason _ _ =>
          have hreport := hask.trans_true
            (answers_report (p := .unreadable (chipFileName name) reason) rfl .nowhere)
          exact hreport.trans (answers_giveUp (hasErrors_report rfl .nowhere))

/-! ## Connections -/

theorem answers_mentionWidth (s : Session) (m : Mention) : Answers true s (s.mentionWidth m).2 := by
  unfold mentionWidth
  split
  · exact .refl s
  · have h := (answers_resolve s m.chip m.span).passed
    split <;> next he => rw [he] at h; exact h

theorem answers_widestMention (s : Session) (width : Nat) (ms : List Mention) :
    Answers true s (s.widestMention width ms).2 := by
  induction ms generalizing s width with
  | nil => exact .refl s
  | cons m ms ih => exact (answers_mentionWidth s m).trans (ih _ _)

theorem answers_modifyDefinition (s : Session) (id : Nat) (f : Definition → Definition)
    (hkey : ∀ d, (f d).key = d.key) : Answers true s (s.modifyDefinition id f hkey) :=
  .of_status (List.prefix_refl _) (.inr ⟨List.Subset.refl _, List.Subset.refl _⟩)
    fun _ _ hj => .inr (.inr hj)

theorem exists_definition_of_status {status : LinkStatus} (h : s.status? id = some status) :
    ∃ d, s.definition? id = some d := by
  obtain ⟨e, he, -⟩ := status?_eq_some_iff.1 h
  exact ⟨e.definition, definition?_of_entry he⟩

theorem answers_addPinTo {d : Definition} (hd : s.definition? id = some d) (p : Pin) :
    Answers (s.addPinTo id p).1.isSome s (s.addPinTo id p).2 := by
  rcases s.addPinTo_cases id p with ⟨hn, -⟩ | ⟨d, refusal, -, -, hadd⟩ | ⟨d, -, -, hadd⟩
  · rw [hd] at hn
    cases hn
  · exact hadd ▸ answers_report rfl _
  · exact hadd ▸ answers_modifyDefinition s id _ _

theorem answers_addNet (hs : s.status? parent = some .inProgress) (r : Reference) (width : Nat) :
    Answers (s.addNet parent r width).1.isSome s (s.addNet parent r width).2 := by
  rw [addNet_eq]
  dsimp only
  have hwidth := answers_widestMention s (r.leastWidth width) (s.mentions parent r.key)
  have ha := advances_widestMention s (r.leastWidth width) (s.mentions parent r.key) none
  obtain ⟨d, hd⟩ := exists_definition_of_status (ha.status_inProgress hs)
  rw [Option.isSome_map]
  exact hwidth.trans (answers_addPinTo hd _)

theorem answers_outerPin (hs : s.status? parent = some .inProgress) (r : Reference) (width : Nat) :
    Answers (s.outerPin parent r width).1.isSome s (s.outerPin parent r width).2 := by
  have hcase := s.outerRun_outerPin parent r width
  generalize s.outerPin parent r width = outer at hcase ⊢
  cases hcase with
  | found => exact .refl s
  | misfit | reversed => exact answers_report rfl _
  | made => exact answers_addNet hs r width

theorem severity_of_innerPin {child : Nat} {r : Reference} {p : Problem}
    (h : s.innerPin child r = .error p) : p.severity = .error := by
  rcases innerPin_eq_error h with ⟨_, rfl⟩ | ⟨_, rfl⟩ | ⟨_, _, rfl⟩ <;> rfl

theorem severity_of_join {c : Connection} {inner outer : Nat × Pin} {p : Problem}
    (h : join c inner outer = .error p) : p.severity = .error := by
  rcases join_eq_error h with ⟨_, _, rfl⟩ | rfl <;> rfl

theorem answers_connect (hs : s.status? parent = some .inProgress) (child : Nat)
    (c : Connection) :
    Answers (s.connect parent child c).1.isSome s (s.connect parent child c).2 := by
  have houter {width : Nat} {found : Option (Nat × Pin)}
      (ho : (s.outerPin parent c.outer width).1 = found) :
      Answers found.isSome s (s.outerPin parent c.outer width).2 :=
    ho ▸ answers_outerPin hs c.outer width
  have hcase := s.connectRun_connect parent child c
  generalize s.connect parent child c = r at hcase ⊢
  cases hcase with
  | noInner hi => exact answers_report (severity_of_innerPin hi) _
  | noOuter _ ho => exact houter ho
  | apart _ ho hj => exact (houter ho).trans (answers_report (severity_of_join hj) _)
  | wire _ ho _ => exact houter ho

/-- **A connection that becomes no wire has left an error behind.** -/
theorem answers_connectAll (hs : s.status? parent = some .inProgress) (child : Nat)
    (cs : List Connection) : Answers ((s.connectAll parent child cs).1.all Option.isSome) s
      (s.connectAll parent child cs).2 := by
  induction cs generalizing s with
  | nil => exact .refl s
  | cons c cs ih =>
    exact (answers_connect hs child c).trans
      (ih ((connects_connect child hs c).status_inProgress hs))

/-! ## Parts -/

/-- A linker of the chips of parts that leaves an error behind when it fails. -/
def Answering (linkChild : ChildLinker) : Prop :=
  ∀ child name span s, Answers (linkChild child name span s).1 s (linkChild child name span s).2

theorem answers_linkPart {linkChild : ChildLinker} (hl : Links linkChild)
    (ha : Answering linkChild) (hs : s.status? parent = some .inProgress) {index : Nat}
    {part : Part} (hpart : s.part? parent index = some part) :
    Answers (linkPart linkChild parent index s).1 s (linkPart linkChild parent index s).2 := by
  have hrun := partRun_linkPart linkChild parent index s
  generalize linkPart linkChild parent index s = r at hrun ⊢
  cases hrun with
  | absent missing =>
    rw [hpart] at missing
    cases missing
  | @unresolved part s₁ _ resolved =>
    have hsearch := answers_resolve s part.chip part.span
    rw [resolved] at hsearch
    exact hsearch
  | @steps part child ok good wires s₁ s₂ s₃ s₄ h =>
    have hsearch := answers_resolve s part.chip part.span
    have hchild := ha child part.chip part.span s₁
    have hwires := answers_connectAll (h.inProgress hl hs) child part.connections
    rw [h.resolved] at hsearch
    rw [h.linked] at hchild
    rw [h.connected] at hwires
    have hall : Answers good s s₃ := h.verdict ▸ hsearch.trans (hchild.trans hwires)
    -- neither the warnings nor the link of the part can fail
    refine Answers.trans_true ?_ (answers_modifyDefinition _ parent _ _)
    rw [h.warned]
    split
    · exact hall.trans_true (answers_emitAll _ _)
    · exact hall

theorem answers_linkParts {linkChild : ChildLinker} (hl : Links linkChild)
    (ha : Answering linkChild) (hs : s.status? parent = some .inProgress) {indices : List Nat}
    {d : Definition} (hd : s.definition? parent = some d)
    (hi : ∀ index ∈ indices, index < d.parts.size) :
    Answers (linkParts linkChild parent indices s).1 s
      (linkParts linkChild parent indices s).2 := by
  induction indices generalizing s d with
  | nil => exact .refl s
  | cons index indices ih =>
    have hlt := hi index List.mem_cons_self
    have hpart : s.part? parent index = some d.parts[index] := by
      rw [part?, hd, Option.bind_some, Array.getElem?_eq_getElem hlt]
    have hstep := (linksPart_linkPart hl index hs).advances
    obtain ⟨d', hd', hg⟩ := hstep.definition? hd
    refine (answers_linkPart hl ha hs hpart).trans (ih (hstep.status_inProgress hs) hd' ?_)
    intro i hmem
    rw [hg.size_parts]
    exact hi i (List.mem_cons_of_mem _ hmem)

/-! ## Chips -/

/-- The new status is not a failure. -/
theorem Accounted.setStatus (h : s.Accounted) {status : LinkStatus} (hs : status ≠ .linked false) :
    (s.setStatus id status).Accounted := by
  refine h.imp_right fun ⟨hf, hm, hst⟩ => ⟨hf, hm, fun j hj => ?_⟩
  rw [status?_setStatus_eq] at hj
  split at hj
  · obtain ⟨_, -, heq⟩ := Option.map_eq_some_iff.1 hj
    exact hs heq
  · exact hst j hj

/-- Between its start and its end a chip is in progress, and it is not after. -/
theorem Answers.finish (h : Answers ok (s.setStatus id .inProgress) s') :
    Answers ok s (s'.setStatus id (.linked ok)) where
  log := h.log
  inProgress j hj := by
    rw [status?_setStatus_eq] at hj
    split at hj
    · obtain ⟨_, -, hne⟩ := Option.map_eq_some_iff.1 hj
      cases hne
    · next hne =>
      have hbefore := h.inProgress j hj
      rwa [status?_setStatus_eq, if_neg hne] at hbefore
  accounted hs := by
    have hstart : (s.setStatus id .inProgress).Accounted := hs.setStatus (by decide)
    cases ok with
    | false => exact .inl (h.failed hstart rfl)
    | true => exact (h.accounted hstart).setStatus (by decide)
  failed hs hok := h.failed (hs.setStatus (by decide)) hok

/-- **A chip that does not link has left an error behind.** -/
theorem answers_linkFresh {linkChild : ChildLinker} (hl : Links linkChild)
    (ha : Answering linkChild) (hs : s.status? id = some .unlinked) :
    Answers (linkFresh linkChild id s).1 s (linkFresh linkChild id s).2 := by
  obtain ⟨e, he, -⟩ := status?_eq_some_iff.1 hs
  have hrun := freshRun_linkFresh linkChild hs
  generalize linkFresh linkChild id s = r at hrun ⊢
  cases hrun with
  | gate =>
    refine .of_status (List.prefix_refl _) (.inr ⟨List.Subset.refl _, List.Subset.refl _⟩)
      fun j status hj => ?_
    rw [status?_setStatus_eq] at hj
    split at hj
    · obtain ⟨_, -, heq⟩ := Option.map_eq_some_iff.1 hj
      exact .inr (.inl heq.symm)
    · exact .inr (.inr hj)
  | parts found _ run warned =>
    have hin : (s.setStatus id .inProgress).status? id = some .inProgress := status?_setStatus he _
    have hdef : (s.setStatus id .inProgress).definition? id = some _ := found
    have hparts := answers_linkParts hl ha hin hdef fun index hi => List.mem_range.1 hi
    rw [run] at hparts
    refine Answers.finish ?_
    rw [warned]
    split
    · exact hparts.trans_true (answers_emitAll _ _)
    · exact hparts

/-- The linkers of children leave an error behind when they fail, however deep they look. -/
theorem answering_linkWithin (depth : Nat) : Answering (linkWithin depth) := by
  induction depth with
  | zero => exact fun child name span s => answers_report rfl span
  | succ depth ih =>
    intro child name span s
    unfold linkWithin
    split
    · next hs => exact .of_linked hs
    · next hs => exact answers_linkFresh (links_linkWithin depth) ih hs
    · exact answers_report rfl span

/-- Only a chip that is in progress, or none, fails to link without an error. -/
theorem answers_link (hs : s.status? id ≠ some .inProgress) {d : Definition}
    (hd : s.definition? id = some d) : Answers (s.link id).1 s (s.link id).2 := by
  unfold link
  split
  · next h => exact .of_linked h
  · next h => exact answers_linkFresh (links_linkWithin _) (answering_linkWithin _) h
  · next hlinked hunlinked =>
    obtain ⟨e, he, -⟩ := definition?_eq_some_iff.1 hd
    have hst := status?_of_entry he
    cases hstatus : e.status with
    | unlinked => exact absurd (hstatus ▸ hst) hunlinked
    | inProgress => exact absurd (hstatus ▸ hst) hs
    | linked ok => exact absurd (hstatus ▸ hst) (hlinked ok)

theorem answers_link_passed (s : Session) (id : Nat) : Answers true s (s.link id).2 := by
  unfold link
  split
  · exact .refl s
  · next h => exact (answers_linkFresh (links_linkWithin _) (answering_linkWithin _) h).passed
  · exact .refl s

end Session

end ChipLogic
