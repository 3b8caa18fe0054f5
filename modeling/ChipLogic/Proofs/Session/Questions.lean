import ChipLogic.Proofs.Session.Circles
import ChipLogic.Proofs.Session.Intake
import ChipLogic.Proofs.Session.LinkPhases
import ChipLogic.Proofs.Session.Walk

/-!
# A question is asked once

A name is **answered** (`Session.Answered`) if it stands for a chip, or if it is remembered that it
stands for none. Two memories do that: the keys of chips in texts with faults, which are forgotten
when a chip of that key comes up, and the exact names that led nowhere, which are kept. Either way
an answered name stays answered, and to search for it again does nothing
(`Session.resolve_of_answered`).

**A search** for a name that is not answered ends with an answer, whichever way it goes
(`Session.concludes_resolveText` and others). It looks for the file of that name at most once, and
if it reports that the name leads nowhere, it reports so once and gives the name up.

**Calls** (`Session.Searches`). The searches of linking are whole strides, so what holds of a search
holds of a link. The other calls leave the questions alone (`Session.Passes`), though a user may
report anything in between.

**Theorem (`Session.after_asks_once`).** Over all calls of a session no file of the library is
looked for twice, the reports on names that lead nowhere are about different names, and to ask for a
chip twice in a row is to ask for it once. That `Session.asked` leaves no look at a file out is
`Session.resolve_blind`.
-/

namespace ChipLogic

/-! ## Reports on names -/

/-- The codes E200, E201 and E211. -/
def Diagnostic.isDeadEnd (d : Diagnostic) : Bool :=
  d.code == ⟨.error, 200⟩ || d.code == ⟨.error, 201⟩ || d.code == ⟨.error, 211⟩

/-- A report that a name leads nowhere. -/
inductive Diagnostic.TellsOf (name : String) : Diagnostic → Prop
  | notFound (span : Span) : TellsOf name ((Problem.chipNotFound name).report span)
  | mismatch (span : Span) :
    TellsOf name ((Problem.fileMismatch name (chipFileName name)).report span)
  | unreadable (reason : ReadError) (span : Span) :
    TellsOf name ((Problem.unreadable (chipFileName name) reason).report span)

theorem Diagnostic.TellsOf.isDeadEnd {name : String} {d : Diagnostic} (h : d.TellsOf name) :
    d.isDeadEnd = true := by
  cases h <;> rfl

theorem Problem.isDeadEnd_of_isWiring {p : Problem} (h : p.isWiring) (span : Span) :
    (p.report span).isDeadEnd = false := by
  cases p <;> first | rfl | cases h

theorem Problem.isDeadEnd_pinRefused (chip pin : String) (refusal : PinRefusal) (span : Span) :
    ((Problem.pinRefused chip pin refusal).report span).isDeadEnd = false := by
  cases refusal <;> rfl

theorem Hdl.AllFaults.isDeadEnd {ds : List Diagnostic} (h : Hdl.AllFaults ds) :
    ∀ d ∈ ds, d.isDeadEnd = false := by
  intro d hd
  obtain ⟨f, span, rfl⟩ := h d hd
  cases f <;> rfl

theorem Definition.isDeadEnd_ofDocument (doc : Hdl.Document) :
    ∀ e ∈ (ofDocument doc).faults, e.isDeadEnd = false := by
  intro e he
  obtain ⟨chip, pin, refusal, span, rfl⟩ := exists_refusal_of_mem_ofDocument he
  exact Problem.isDeadEnd_pinRefused chip pin refusal span

namespace Session

variable {s s' s'' : Session} {name : String} {span : Span}

/-! ## Answered names -/

/-- The name stands for a chip, or it is remembered that it stands for none. -/
def Answered (s : Session) (name : String) : Prop :=
  (s.lookup? name).isSome ∨ foldCase name ∈ s.failed ∨ name ∈ s.missing

/-- **An answered name is not searched for again.** -/
theorem resolve_of_answered (h : s.Answered name) (span : Span) :
    s.resolve name span = (s.lookup? name, s) := by
  cases hl : s.lookup? name with
  | some id => exact resolve_of_lookup? hl span
  | none =>
    have hknown : foldCase name ∈ s.failed ∨ name ∈ s.missing := by
      simpa [Answered, hl] using h
    simp [resolve, hl, hknown]

/-- A registered name stays registered. -/
theorem Grown.lookup?_isSome (h : Grown s s') (hn : (s.lookup? name).isSome) :
    (s'.lookup? name).isSome := by
  obtain ⟨id, hid⟩ := Option.isSome_iff_exists.1 hn
  obtain ⟨d, hd, hk⟩ := definition?_of_find? hid
  obtain ⟨d', hd', hg⟩ := h id d hd
  rw [Option.isSome_iff_ne_none]
  intro hnone
  exact find?_eq_none_iff.1 hnone id d' hd' (hg.key.trans hk)

/-- Nothing was asked for twice, and everything asked for is answered. -/
structure Careful (s : Session) : Prop where
  asked : s.asked.Nodup
  missing : s.missing.Nodup
  answered : ∀ name ∈ s.asked, s.Answered name

/-- A step that searches for no name. -/
structure Passes (s s' : Session) : Prop where
  asked : s'.asked = s.asked
  missing : s'.missing = s.missing
  answered : ∀ name, s.Answered name → s'.Answered name

namespace Passes

theorem refl (s : Session) : Passes s s := ⟨rfl, rfl, fun _ h => h⟩

theorem trans (h : Passes s s') (h' : Passes s' s'') : Passes s s'' :=
  ⟨h'.asked.trans h.asked, h'.missing.trans h.missing, fun name hn =>
    h'.answered name (h.answered name hn)⟩

/-- A step in which chips keep their names and no failure is forgotten. -/
theorem of_grown (ha : s'.asked = s.asked) (hm : s'.missing = s.missing) (hg : Grown s s')
    (hf : s.failed ⊆ s'.failed) : Passes s s' := by
  refine ⟨ha, hm, fun name h => ?_⟩
  rcases h with h | h | h
  · exact .inl (hg.lookup?_isSome h)
  · exact .inr (.inl (hf h))
  · exact .inr (.inr (hm ▸ h))

/-- A step that leaves the chips and the failures alone. -/
theorem of_chips (ha : s'.asked = s.asked) (hm : s'.missing = s.missing)
    (hc : s'.chips = s.chips) (hf : s.failed ⊆ s'.failed) : Passes s s' := by
  refine .of_grown ha hm (fun id d hd => ⟨d, ?_, .refl d⟩) hf
  rwa [definition?_congr (congrArg (·[id]?) hc)]

theorem careful (h : Passes s s') (hs : s.Careful) : s'.Careful where
  asked := h.asked ▸ hs.asked
  missing := h.missing ▸ hs.missing
  answered name hn := h.answered name (hs.answered name (h.asked ▸ hn))

end Passes

theorem passes_emitAll (s : Session) (ds : List Diagnostic) : Passes s (s.emitAll ds) :=
  .of_chips rfl rfl rfl (List.Subset.refl _)

theorem passes_report (s : Session) (p : Problem) (span : Span) : Passes s (s.report p span) :=
  passes_emitAll s [p.report span]

/-- A key that had failed is forgotten only when it is found. -/
theorem passes_register (s : Session) (d : Definition) : Passes s (s.register d).2 := by
  refine ⟨?_, ?_, fun name h => ?_⟩
  · unfold register
    split <;> rfl
  · unfold register
    split <;> rfl
  · rcases h with h | h | h
    · left
      rw [lookup?, find?_register]
      simp only [lookup?] at h
      simp [h]
    · by_cases hk : d.key = foldCase name
      · left
        simp [lookup?, find?_register, hk]
      · right
        left
        unfold register
        split
        · exact h
        · exact List.mem_filter.2 ⟨h, by simpa using Ne.symm hk⟩
    · right
      right
      unfold register
      split <;> exact h

theorem passes_registerAll (s : Session) (ds : List Definition) :
    Passes s (s.registerAll ds).2 := by
  induction ds generalizing s with
  | nil => exact .refl s
  | cons d ds ih => exact (passes_register s d).trans (ih _)

theorem passes_loadSource (s : Session) (path text : String) :
    Passes s (s.loadSource path text).2 := by
  have hadd : Passes s { s with sources := s.sources.add path text } :=
    .of_chips rfl rfl rfl (List.Subset.refl _)
  rcases loadSource_cases s path text with ⟨ds, -, he⟩ | ⟨faults, keys, -, -, he⟩
  · rw [he]
    exact hadd.trans (passes_registerAll _ ds)
  · rw [he]
    exact .of_chips rfl rfl rfl (List.subset_append_left _ _)

theorem passes_addPinTo (s : Session) (id : Nat) (p : Pin) : Passes s (s.addPinTo id p).2 := by
  have hg := grown_addPinTo s id p
  rcases s.addPinTo_cases id p with ⟨-, hadd⟩ | ⟨d, refusal, -, -, hadd⟩ | ⟨d, -, -, hadd⟩
  · exact hadd ▸ .refl s
  · exact hadd ▸ passes_report s _ _
  · rw [hadd] at hg ⊢
    exact .of_grown rfl rfl hg (List.Subset.refl _)

theorem passes_setStatus (s : Session) (id : Nat) (status : LinkStatus) :
    Passes s (s.setStatus id status) := by
  refine .of_grown rfl rfl (fun a d hd => ⟨d, ?_, .refl d⟩) (List.Subset.refl _)
  rwa [definition?_setStatus]

theorem passes_setLink (s : Session) (id index : Nat) (link : Link) :
    Passes s (s.setLink id index link) :=
  .of_grown rfl rfl (grown_modifyDefinition s id fun d _ => .setLink d index link)
    (List.Subset.refl _)

/-! ## Searches -/

/-- The log grows, and none of the new diagnostics says that a name leads nowhere. -/
def Untold (s s' : Session) : Prop :=
  ∃ new, s'.log.history = s.log.history ++ new ∧ ∀ d ∈ new, d.isDeadEnd = false

/-- The log grows by reports that the `told` names lead nowhere, and by others. -/
def Tells (told : List String) (s s' : Session) : Prop :=
  ∃ new, s'.log.history = s.log.history ++ new ∧
    List.Forall₂ Diagnostic.TellsOf told (new.filter Diagnostic.isDeadEnd)

theorem Untold.of_eq (h : s'.log.history = s.log.history) : Untold s s' :=
  ⟨[], by rw [h, List.append_nil], List.forall_mem_nil _⟩

theorem untold_report {p : Problem} (h : (p.report span).isDeadEnd = false) :
    Untold s (s.report p span) :=
  ⟨[p.report span], rfl, List.forall_mem_singleton.2 h⟩

theorem Untold.tells (h : Untold s s') : Tells [] s s' := by
  obtain ⟨new, hnew, hnone⟩ := h
  refine ⟨new, hnew, ?_⟩
  rw [List.filter_eq_nil_iff.2 fun d hd => by simp [hnone d hd]]
  exact .nil

theorem Tells.trans {told told' : List String} (h : Tells told s s') (h' : Tells told' s' s'') :
    Tells (told ++ told') s s'' := by
  obtain ⟨new, hnew, htold⟩ := h
  obtain ⟨new', hnew', htold'⟩ := h'
  refine ⟨new ++ new', by rw [hnew', hnew, List.append_assoc], ?_⟩
  rw [List.filter_append]
  exact List.rel_append htold htold'

theorem tells_report {p : Problem} (h : (p.report span).TellsOf name) :
    Tells [name] s (s.report p span) := by
  refine ⟨[p.report span], rfl, ?_⟩
  rw [List.filter_cons_of_pos h.isDeadEnd]
  exact .cons h .nil

/-- From `s` to `s'` names were searched for. The `lost` ones were given up, and it was told that
some of them lead nowhere. -/
structure Searches (s s' : Session) : Prop where
  asked : s.asked <+: s'.asked
  answered : ∀ name, s.Answered name → s'.Answered name
  careful : s.Careful → s'.Careful
  told : ∃ lost told, s'.missing = s.missing ++ lost ∧ told.Sublist lost ∧ Tells told s s'

theorem Passes.searches (h : Passes s s') (hlog : Untold s s') : Searches s s' :=
  ⟨h.asked ▸ List.prefix_refl _, h.answered, h.careful, [], [], by rw [h.missing, List.append_nil],
    List.Sublist.refl _, hlog.tells⟩

theorem Searches.refl (s : Session) : Searches s s :=
  (Passes.refl s).searches (.of_eq rfl)

theorem Searches.trans (h : Searches s s') (h' : Searches s' s'') : Searches s s'' where
  asked := h.asked.trans h'.asked
  answered name hn := h'.answered name (h.answered name hn)
  careful hs := h'.careful (h.careful hs)
  told := by
    obtain ⟨lost, told, hlost, hsub, htold⟩ := h.told
    obtain ⟨lost', told', hlost', hsub', htold'⟩ := h'.told
    exact ⟨lost ++ lost', told ++ told', by rw [hlost', hlost, List.append_assoc],
      hsub.append hsub', htold.trans htold'⟩

/-- The end of a search for a name that was not answered: now it is, by the result. -/
structure Concludes (name : String) (s : Session) (r : Option Nat × Session) : Prop where
  asked : r.2.asked = s.asked
  answered : ∀ n, s.Answered n → r.2.Answered n
  answer : r.2.Answered name
  result : r.2.lookup? name = r.1
  told : ∃ lost told, r.2.missing = s.missing ++ lost ∧ lost.Sublist [name] ∧
    told.Sublist lost ∧ Tells told s r.2

/-- A search that finds a chip. -/
theorem Passes.finds (h : Passes s s') (hlog : Untold s s') {id : Nat}
    (hid : s'.lookup? name = some id) : Concludes name s (some id, s') :=
  ⟨h.asked, h.answered, .inl (by rw [hid]; rfl), hid, [], [], by rw [h.missing, List.append_nil],
    List.nil_sublist _, List.Sublist.refl _, hlog.tells⟩

/-- A search that gives up. -/
theorem Passes.givesUp (h : Passes s s') (hl : s'.lookup? name = none) {told : List String}
    (hsub : told.Sublist [name]) (htold : Tells told s s') :
    Concludes name s (s'.giveUp name) where
  asked := h.asked
  answered n hn := by
    rcases h.answered n hn with hn | hn | hn
    · exact .inl hn
    · exact .inr (.inl hn)
    · exact .inr (.inr (List.mem_append_left _ hn))
  answer := .inr (.inr (List.mem_append_right _ (List.mem_singleton_self name)))
  result := hl
  told := ⟨[name], told, congrArg (· ++ [name]) h.missing, List.Sublist.refl _, hsub, htold⟩

/-- The name may have been written down as asked for before its search went on. -/
theorem Concludes.searches {asked : List String} {r : Option Nat × Session}
    (h : Concludes name { s with asked } r) (ha : asked = s.asked ∨ asked = s.asked ++ [name])
    (hn : ¬ s.Answered name) : Searches s r.2 where
  asked := by
    rw [h.asked]
    rcases ha with rfl | rfl
    · exact List.prefix_refl _
    · exact List.prefix_append _ _
  answered := h.answered
  careful hs := by
    obtain ⟨lost, told, hlost, hsub, -⟩ := h.told
    have hnew : name ∉ s.asked := fun hmem => hn (hs.answered name hmem)
    have hmissing : name ∉ s.missing := fun hmem => hn (.inr (.inr hmem))
    have hpush {names : List String} (hnodup : names.Nodup) (hmem : name ∉ names) :
        (names ++ [name]).Nodup := by
      rw [← List.concat_eq_append]
      exact .concat hmem hnodup
    refine ⟨?_, ?_, fun n hmem => ?_⟩
    · rw [h.asked]
      rcases ha with rfl | rfl
      · exact hs.asked
      · exact hpush hs.asked hnew
    · rw [hlost]
      exact (hpush hs.missing hmissing).sublist (hsub.append_left _)
    · rw [h.asked] at hmem
      have hold : n ∈ s.asked → r.2.Answered n := fun hmem => h.answered n (hs.answered n hmem)
      rcases ha with rfl | rfl
      · exact hold hmem
      · rcases List.mem_append.1 hmem with hmem | hmem
        · exact hold hmem
        · rw [List.mem_singleton.1 hmem]
          exact h.answer
  told := by
    obtain ⟨lost, told, hlost, -, hsub, htold⟩ := h.told
    exact ⟨lost, told, hlost, hsub, htold⟩

/-! ## Finding a chip -/

theorem untold_loadSource (s : Session) (path text : String) :
    Untold s (s.loadSource path text).2 := by
  by_cases hf : s.faultsOf text = []
  · refine ⟨_, (admits_addSource hf path).log, fun d hd => ?_⟩
    obtain ⟨late, -, rfl⟩ := List.mem_map.1 hd
    rfl
  · refine ⟨s.faultsOf text, (refuses_addSource hf path).log, ?_⟩
    unfold faultsOf
    dsimp only
    split
    · exact Definition.isDeadEnd_ofDocument _
    · exact (Hdl.allFaults_parse _ _).isDeadEnd

theorem concludes_resolveGate (hl : s.lookup? name = none) (span : Span) :
    Concludes name s (s.resolveGate name span) := by
  unfold resolveGate
  split
  · next g hg =>
    have hkey : g.definition.key = foldCase name := by
      rw [← Gate.name_of_ofName? hg]
      rfl
    have hnone : s.find? g.definition.key = none := hkey ▸ hl
    have hpasses := passes_register s g.definition
    have hfound : (s.register g.definition).2.lookup? name = some s.chips.size := by
      simp [lookup?, find?_register, hkey, show s.find? (foldCase name) = none from hl]
    simp only [register, hnone] at hpasses hfound ⊢
    exact hpasses.finds (.of_eq rfl) hfound
  · exact (passes_report s _ span).givesUp hl (List.Sublist.refl _) (tells_report (.notFound span))

theorem concludes_resolveText (s : Session) (path text name : String) (span : Span) :
    Concludes name s (s.resolveText path text name span) := by
  have hload := passes_loadSource s path text
  have huntold := untold_loadSource s path text
  unfold resolveText
  dsimp only
  split
  · next id hid =>
    split
    · obtain ⟨new, hnew, hnone⟩ := huntold
      refine (hload.trans (passes_report _ _ _)).finds ?_ hid
      refine ⟨new ++ [_], congrArg (· ++ [_]) hnew |>.trans (List.append_assoc _ _ _), ?_⟩
      exact List.forall_mem_append.2 ⟨hnone, List.forall_mem_singleton.2 rfl⟩
    · exact hload.finds huntold hid
  · next hnone =>
    split
    · exact (hload.trans (passes_report _ _ span)).givesUp hnone (List.Sublist.refl [name])
        (huntold.tells.trans (tells_report (.mismatch span)))
    · exact hload.givesUp hnone (List.nil_sublist _) huntold.tells

/-- Without a library only the gates are left. -/
theorem resolve_of_library_none (hlib : s.library = none) (hn : ¬ s.Answered name) (span : Span) :
    s.resolve name span = s.resolveGate name span := by
  have hl : s.lookup? name = none := Option.not_isSome_iff_eq_none.1 fun h => hn (.inl h)
  have hnew : ¬ (foldCase name ∈ s.failed ∨ name ∈ s.missing) := fun h => hn (.inr h)
  simp [resolve, hl, hnew, hlib]

/-- A name that is not answered is searched for, and its file at most once. -/
theorem concludes_resolve (hn : ¬ s.Answered name) (span : Span) :
    ∃ asked, (asked = s.asked ∧ s.library = none ∨ asked = s.asked ++ [name]) ∧
      Concludes name { s with asked } (s.resolve name span) := by
  have hl : s.lookup? name = none := Option.not_isSome_iff_eq_none.1 fun h => hn (.inl h)
  have hnew : ¬ (foldCase name ∈ s.failed ∨ name ∈ s.missing) := fun h => hn (.inr h)
  unfold resolve
  rw [hl]
  dsimp only
  rw [if_neg (by simpa using hnew)]
  split
  · next hlib => exact ⟨s.asked, .inl ⟨rfl, hlib⟩, concludes_resolveGate hl span⟩
  · refine ⟨s.asked ++ [name], .inr rfl, ?_⟩
    split
    · exact concludes_resolveText _ _ _ name span
    · exact concludes_resolveGate (s := { s with asked := s.asked ++ [name] }) hl span
    · next reason _ _ =>
      exact (passes_report { s with asked := s.asked ++ [name] } _ _).givesUp hl
        (List.Sublist.refl [name]) (tells_report (.unreadable reason .nowhere))

theorem searches_resolve (s : Session) (name : String) (span : Span) :
    Searches s (s.resolve name span).2 := by
  by_cases hn : s.Answered name
  · rw [resolve_of_answered hn]
    exact .refl s
  · obtain ⟨asked, hasked, h⟩ := concludes_resolve hn span
    exact h.searches (hasked.imp_left And.left) hn

/-- **After a search the name is answered**, and the answer is what the search came to. -/
theorem answered_resolve (s : Session) (name : String) (span : Span) :
    (s.resolve name span).2.Answered name ∧
      (s.resolve name span).2.lookup? name = (s.resolve name span).1 := by
  by_cases hn : s.Answered name
  · rw [resolve_of_answered hn]
    exact ⟨hn, rfl⟩
  · obtain ⟨asked, -, h⟩ := concludes_resolve hn span
    exact ⟨h.answer, h.result⟩

/-- **A search that is not written down does not look at the files.** -/
theorem resolve_blind (h : (s.resolve name span).2.asked = s.asked) (disk : Disk) :
    Session.resolve { s with disk } name span =
      ((s.resolve name span).1, { (s.resolve name span).2 with disk }) := by
  by_cases hn : s.Answered name
  · rw [resolve_of_answered hn, resolve_of_answered (s := { s with disk }) hn]
    rfl
  · obtain ⟨asked, hasked, hconclude⟩ := concludes_resolve hn span
    have hsame : asked = s.asked := hconclude.asked.symm.trans h
    rcases hasked with ⟨-, hlib⟩ | rfl
    · have hgate : s.resolve name span = s.resolveGate name span :=
        resolve_of_library_none hlib hn span
      have hgate' : Session.resolve { s with disk } name span =
          Session.resolveGate { s with disk } name span :=
        resolve_of_library_none (s := { s with disk }) hlib hn span
      rw [hgate, hgate']
      unfold resolveGate
      split
      · simp only [register, find?]
        split <;> rfl
      · rfl
    · simp at hsame

/-! ## Linking -/

theorem Searched.searches (h : Searched s s') : Searches s s' := by
  induction h with
  | refl => exact .refl s
  | tail _ h ih =>
    obtain ⟨name, span, rfl⟩ := h
    exact ih.trans (searches_resolve _ name span)

theorem searches_addPinTo (s : Session) (id : Nat) (p : Pin) : Searches s (s.addPinTo id p).2 := by
  refine (passes_addPinTo s id p).searches ?_
  rcases s.addPinTo_cases id p with ⟨-, hadd⟩ | ⟨d, refusal, -, -, hadd⟩ | ⟨d, -, -, hadd⟩
  · exact hadd ▸ .of_eq rfl
  · exact hadd ▸ untold_report (Problem.isDeadEnd_pinRefused _ _ _ _)
  · exact hadd ▸ .of_eq rfl

theorem Pace.searches (h : Pace s s') : Searches s s' := by
  cases h with
  | resolve name span => exact searches_resolve s name span
  | net _ r width =>
    rw [addNet_eq]
    exact (searched_netWidth s _ _ _).searches.trans (searches_addPinTo _ _ _)
  | report wiring span =>
    exact (passes_report s _ span).searches
      (untold_report (Problem.isDeadEnd_of_isWiring wiring span))

theorem Stride.searches (h : Stride s s') : Searches s s' := by
  cases h with
  | pace h => exact h.searches
  | circle name span => exact (passes_report s _ span).searches (untold_report rfl)
  | setStatus id status => exact (passes_setStatus s id status).searches (.of_eq rfl)
  | setLink => exact (passes_setLink s _ _ _).searches (.of_eq rfl)

theorem Strides.searches (h : Strides s s') : Searches s s' := by
  induction h with
  | refl => exact .refl s
  | tail _ h ih => exact ih.trans h.searches

theorem searches_link (s : Session) (id : Nat) : Searches s (s.link id).2 :=
  (strides_link s id).searches

/-! ## Calls -/

namespace Action

/-- The call searches for chips by their names. -/
def searches : Action → Bool
  | .chip _ | .link _ | .freeze _ | .elaborate _ => true
  | _ => false

theorem searches_run {a : Action} (ha : a.searches = true) (s : Session) :
    Searches s (a.run s) := by
  have hfreeze (s : Session) (top : Nat) : Searches s (s.freeze top).2 := by
    rw [freeze_snd]
    exact searches_link s top
  cases a with
  | chip name => exact searches_resolve s name .nowhere
  | link id => exact searches_link s id
  | freeze top => exact hfreeze s top
  | elaborate name =>
    have hchip : Searches s (s.chip name).2 := searches_resolve s name .nowhere
    show Searches s (s.elaborate name).2
    unfold Session.elaborate
    cases hc : s.chip name with
    | mk found s₁ =>
      rw [hc] at hchip
      cases found with
      | none => exact hchip
      | some top => exact hchip.trans (hfreeze s₁ top)
  | _ => cases ha

theorem passes_run {a : Action} (ha : a.searches = false) (s : Session) : Passes s (a.run s) := by
  cases a with
  | remount disk => exact .of_chips rfl rfl rfl (List.Subset.refl _)
  | addSource name text => exact passes_loadSource s name text
  | loadFile path =>
    show Passes s (s.loadFile path).2
    unfold Session.loadFile
    split
    · exact passes_loadSource s path _
    · exact passes_report s _ _
  | addPin id p =>
    show Passes s (s.addPin id p).2
    rcases s.addPin_cases id p with hadd | ⟨-, hadd⟩ | hadd
    · exact hadd ▸ .refl s
    · exact hadd ▸ passes_addPinTo s id p
    · exact hadd ▸ passes_report s _ _
  | emit d => exact passes_emitAll s [d]
  | takeAll => exact .of_chips rfl rfl rfl (List.Subset.refl _)
  | _ => cases ha

theorem careful_run (a : Action) (h : s.Careful) : (a.run s).Careful := by
  cases ha : a.searches with
  | true => exact (searches_run ha s).careful h
  | false => exact (passes_run ha s).careful h

theorem answered_run (a : Action) (h : s.Answered name) : (a.run s).Answered name := by
  cases ha : a.searches with
  | true => exact (searches_run ha s).answered name h
  | false => exact (passes_run ha s).answered name h

/-- What was asked for is not forgotten. -/
theorem asked_run (a : Action) (s : Session) : s.asked <+: (a.run s).asked := by
  cases ha : a.searches with
  | true => exact (searches_run ha s).asked
  | false => exact (passes_run ha s).asked ▸ List.prefix_refl _

end Action

/-- What is reported on the way from `s` to `s'`. -/
def news (s s' : Session) : List Diagnostic :=
  s'.log.history.drop s.log.history.length

theorem news_eq {new : List Diagnostic} (h : s'.log.history = s.log.history ++ new) :
    s.news s' = new := by
  rw [news, h, List.drop_left]

/-- The reports of the searches of a script that a name leads nowhere, in order. -/
def deadEnds (s : Session) : List Action → List Diagnostic
  | [] => []
  | a :: script =>
    (if a.searches then (s.news (a.run s)).filter Diagnostic.isDeadEnd else []) ++
      (a.run s).deadEnds script

theorem Tells.news {told : List String} (h : Tells told s s') :
    List.Forall₂ Diagnostic.TellsOf told ((s.news s').filter Diagnostic.isDeadEnd) := by
  obtain ⟨new, hnew, htold⟩ := h
  rwa [news_eq hnew]

/-- The dead ends of a script are about names that were given up. -/
theorem told_deadEnds (s : Session) (script : List Action) :
    ∃ lost told, (s.after script).missing = s.missing ++ lost ∧ told.Sublist lost ∧
      List.Forall₂ Diagnostic.TellsOf told (s.deadEnds script) := by
  induction script generalizing s with
  | nil => exact ⟨[], [], by simp [after], List.Sublist.refl _, .nil⟩
  | cons a script ih =>
    obtain ⟨lost', told', hlost', hsub', htold'⟩ := ih (a.run s)
    have hafter : s.after (a :: script) = (a.run s).after script := rfl
    rw [hafter, hlost']
    unfold deadEnds
    cases ha : a.searches with
    | true =>
      obtain ⟨lost, told, hlost, hsub, htold⟩ := (Action.searches_run ha s).told
      exact ⟨lost ++ lost', told ++ told', by rw [hlost, List.append_assoc], hsub.append hsub',
        List.rel_append htold.news htold'⟩
    | false =>
      rw [(Action.passes_run ha s).missing]
      exact ⟨lost', told', rfl, hsub', htold'⟩

/-- A name that was searched for once stays answered, and no later call looks for it again. -/
theorem Later.chip_of_answered (h : Later s s') (hn : s.Answered name) :
    s'.chip name = (s'.lookup? name, s') := by
  obtain ⟨script, rfl⟩ := later_iff_after.1 h
  refine resolve_of_answered ?_ .nowhere
  exact after_induction (P := (Answered · name)) hn fun a _ _ ha => a.answered_run ha

/-- **A question is asked once.** In any session no library file is looked for twice by name, for
what was asked for stays written down, and a search that writes down nothing would go the same with
other files; the searches tell of each name at most once that it leads nowhere; and asking for a
chip again gives the same answer and leaves the session as it is. -/
theorem after_asks_once (disk : Disk) (library : Option String) (script : List Action) :
    let s := Session.after { disk, library } script
    s.asked.Nodup ∧ (∀ a : Action, s.asked <+: (a.run s).asked) ∧
      (∀ name span, (s.resolve name span).2.asked = s.asked → ∀ disk',
        Session.resolve { s with disk := disk' } name span =
          ((s.resolve name span).1, { (s.resolve name span).2 with disk := disk' })) ∧
      (∃ names : List String, names.Nodup ∧
        List.Forall₂ Diagnostic.TellsOf names (deadEnds { disk, library } script)) ∧
      ∀ name, (s.chip name).2.chip name = s.chip name := by
  intro s
  have hcareful : s.Careful := by
    have hstart : Careful { disk, library } :=
      ⟨List.nodup_nil, List.nodup_nil, List.forall_mem_nil _⟩
    exact after_induction hstart fun a _ _ h => a.careful_run h
  obtain ⟨lost, told, hlost, hsub, htold⟩ := told_deadEnds { disk, library } script
  refine ⟨hcareful.asked, fun a => a.asked_run s, fun name span h => resolve_blind h,
    ⟨told, ?_, htold⟩, fun name => ?_⟩
  · rw [List.nil_append] at hlost
    exact (hlost ▸ hcareful.missing).sublist hsub
  · obtain ⟨hanswered, hresult⟩ := answered_resolve s name .nowhere
    have hagain := resolve_of_answered hanswered .nowhere
    rw [hresult] at hagain
    exact hagain

end Session

end ChipLogic
