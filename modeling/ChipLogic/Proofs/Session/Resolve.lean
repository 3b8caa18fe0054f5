import ChipLogic.Proofs.Session.Growth
import Mathlib.Logic.Relation

/-!
# Finding a chip adds chips and nothing else

Loading a text and resolving a name register declared definitions, report, and remember names. They
work on no chip (`Session.advances_loadSource`, `Session.advances_resolve`). A name is remembered as
failed or missing only together with an error: a text that registers nothing has a fault, and every
other dead end is reported. A name that leads somewhere leads to the chip that has it
(`Session.named_of_resolve`).

**The way to a chip** (`Session.Seek`). A search is made of a few kinds of steps
(`Session.seeks_resolve`), so that what each of them keeps, every search keeps.
-/

namespace ChipLogic

theorem Gate.name_of_ofName? {name : String} {g : Gate} (h : Gate.ofName? name = some g) :
    g.name = name := by
  simpa using List.find?_some h

/-- The problem comes up in the search for a chip. -/
def Problem.isSearch : Problem → Bool
  | .chipNotFound _ | .unreadable .. | .fileMismatch .. | .shadowsGate _ => true
  | _ => false

namespace Session

variable {s : Session}

/-! ## Reporting -/

theorem advances_emitAll (s : Session) (ds : List Diagnostic) (work : Option Nat) :
    Advances work s (s.emitAll ds) :=
  .of_chips rfl rfl (List.prefix_append _ _) (.inr ⟨List.Subset.refl _, List.Subset.refl _⟩) rfl

theorem advances_emit (s : Session) (d : Diagnostic) (work : Option Nat) :
    Advances work s (s.emit d) :=
  advances_emitAll s [d] work

theorem advances_report (s : Session) (p : Problem) (span : Span) (work : Option Nat) :
    Advances work s (s.report p span) :=
  advances_emit s _ work

theorem hasErrors_emitAll {ds : List Diagnostic} {d : Diagnostic} (hd : d ∈ ds)
    (he : d.isError = true) : (s.emitAll ds).log.hasErrors := by
  rw [Log.hasErrors, List.any_eq_true]
  exact ⟨d, List.mem_append_right _ hd, he⟩

theorem hasErrors_report {p : Problem} (hp : p.severity = .error) (span : Span) :
    (s.report p span).log.hasErrors :=
  hasErrors_emitAll (List.mem_singleton_self (p.report span))
    (by rw [Diagnostic.isError, Problem.report, hp]; rfl)

/-- A name may be given up once an error is in the log. -/
theorem advances_giveUp {name : String} (h : s.log.hasErrors) (work : Option Nat) :
    Advances work s (s.giveUp name).2 :=
  .of_chips rfl rfl (List.prefix_refl _) (.inl h) rfl

/-! ## Registering -/

theorem advances_register {d : Definition} (hd : d.Declared) (work : Option Nat) :
    Advances work s (s.register d).2 := by
  unfold register
  split
  · exact advances_report s _ _ work
  · next h => exact .enroll hd h

theorem advances_registerAll {ds : List Definition} (hds : ∀ d ∈ ds, d.Declared)
    (work : Option Nat) : Advances work s (s.registerAll ds).2 := by
  induction ds generalizing s with
  | nil => exact .refl work s
  | cons d ds ih =>
    exact (advances_register (hds d List.mem_cons_self) work).trans
      (ih fun d' hd' => hds d' (List.mem_cons_of_mem _ hd'))

/-! ## Loading -/

/-- A text is registered as a whole, or it has a fault and its names fail. -/
theorem loadSource_cases (s : Session) (path text : String) :
    (∃ ds, (∀ d ∈ ds, Definition.Declared d) ∧
      s.loadSource path text =
        (some (registerAll { s with sources := s.sources.add path text } ds).1,
          (registerAll { s with sources := s.sources.add path text } ds).2)) ∨
    ∃ faults keys, faults ≠ [] ∧ Hdl.AllErrors faults ∧
      s.loadSource path text =
        (none, { emitAll { s with sources := s.sources.add path text } faults with
          failed := s.failed ++ keys }) := by
  unfold loadSource
  dsimp only
  generalize hp : Hdl.parse (some s.sources.size) text = parsed
  generalize hb : (if parsed.faults.isEmpty then Definition.ofDocument parsed.document
    else ⟨[], []⟩) = built
  have hdecl : ∀ d ∈ built.definitions, Definition.Declared d := by
    intro d hd
    rw [← hb] at hd
    split at hd
    · exact Definition.declared_ofDocument _ d hd
    · cases hd
  have herr : Hdl.AllErrors (parsed.faults ++ built.faults) := by
    refine Hdl.AllErrors.append ?_ ?_
    · rw [← hp]
      exact Hdl.allErrors_parse _ _
    · rw [← hb]
      split
      · exact Definition.allErrors_ofDocument _
      · exact .nil
  by_cases he : (parsed.faults ++ built.faults).isEmpty
  · exact .inl ⟨built.definitions, hdecl, if_pos he⟩
  · exact .inr ⟨_, _, by simpa using he, herr, if_neg he⟩

/-- A text that registers nothing leaves an error behind. -/
theorem hasErrors_loadSource {path text : String} (h : (s.loadSource path text).1 = none) :
    (s.loadSource path text).2.log.hasErrors := by
  rcases loadSource_cases s path text with ⟨ds, -, he⟩ | ⟨faults, keys, hne, herr, he⟩
  · rw [he] at h
    cases h
  · rw [he]
    obtain ⟨d, hd⟩ := List.exists_mem_of_ne_nil _ hne
    exact hasErrors_emitAll (s := { s with sources := s.sources.add path text }) hd (herr d hd)

theorem advances_loadSource (s : Session) (path text : String) (work : Option Nat) :
    Advances work s (s.loadSource path text).2 := by
  have hadd : Advances work s { s with sources := s.sources.add path text } :=
    .of_chips rfl rfl (List.prefix_refl _) (.inr ⟨List.Subset.refl _, List.Subset.refl _⟩) rfl
  rcases loadSource_cases s path text with ⟨ds, hds, he⟩ | ⟨faults, keys, hne, herr, he⟩
  · rw [he]
    exact hadd.trans (advances_registerAll hds work)
  · rw [he]
    obtain ⟨d, hd⟩ := List.exists_mem_of_ne_nil _ hne
    exact .of_chips rfl rfl (List.prefix_append _ _)
      (.inl (hasErrors_emitAll (s := { s with sources := s.sources.add path text }) hd
        (herr d hd))) rfl

theorem advances_addSource (s : Session) (name text : String) (work : Option Nat) :
    Advances work s (s.addSource name text).2 :=
  advances_loadSource s name text work

theorem advances_loadFile (s : Session) (path : String) (work : Option Nat) :
    Advances work s (s.loadFile path).2 := by
  unfold loadFile
  split
  · exact advances_addSource s _ _ work
  · exact advances_report s _ _ work

/-! ## Resolving -/

/-- What is done on the way to a chip. -/
inductive Seek : Session → Session → Prop
  | load (s : Session) (path : String) {text : String} (known : text ∈ s.disk.texts) :
      Seek s (s.loadSource path text).2
  | gate (s : Session) (g : Gate) : Seek s (s.register g.definition).2
  | ask (s : Session) (name : String) : Seek s { s with asked := s.asked ++ [name] }
  | report (s : Session) {p : Problem} (search : p.isSearch) (span : Span) :
      Seek s (s.report p span)
  /-- A name is given up only once there is an error. -/
  | giveUp {s : Session} (told : s.log.hasErrors) (name : String) : Seek s (s.giveUp name).2

/-- `s'` comes from `s` on the way to chips. -/
abbrev Seeks : Session → Session → Prop :=
  Relation.ReflTransGen Seek

/-- A dead end is reported and the name given up. -/
theorem seeks_deadEnd {p : Problem} (search : p.isSearch) (error : p.severity = .error)
    (s : Session) (span : Span) (name : String) :
    Seeks s ((s.report p span).giveUp name).2 := by
  have hreport : Seeks s (s.report p span) := .single (.report s search span)
  exact hreport.tail (.giveUp (hasErrors_report error span) name)

theorem seeks_resolveGate (s : Session) (name : String) (span : Span) :
    Seeks s (s.resolveGate name span).2 := by
  unfold resolveGate
  split
  · exact .single (.gate s _)
  · exact seeks_deadEnd rfl rfl s span name

theorem seeks_resolveText (s : Session) (path : String) {text : String}
    (known : text ∈ s.disk.texts) (name : String) (span : Span) :
    Seeks s (s.resolveText path text name span).2 := by
  have hload : Seeks s (s.loadSource path text).2 := .single (.load s path known)
  unfold resolveText
  dsimp only
  split
  · dsimp only
    split
    · exact hload.tail (.report _ rfl _)
    · exact hload
  · split
    · exact hload.trans (seeks_deadEnd rfl rfl _ span name)
    · next hn =>
      have hnone : (s.loadSource path text).1 = none := by simpa using hn
      exact hload.tail (.giveUp (hasErrors_loadSource hnone) name)

/-- **All that is done to find a chip**: files are asked for and loaded, gates are registered, dead
ends are reported, and the name is given up after an error. -/
theorem seeks_resolve (s : Session) (name : String) (span : Span) :
    Seeks s (s.resolve name span).2 := by
  unfold resolve
  split
  · exact .refl
  · split
    · exact .refl
    · split
      · exact seeks_resolveGate s name span
      · have hask : Seeks s { s with asked := s.asked ++ [name] } := .single (.ask s name)
        refine hask.trans ?_
        dsimp only
        split
        · next hread =>
          have htext := s.disk.mem_texts hread
          exact seeks_resolveText { s with asked := s.asked ++ [name] } _ htext name span
        · exact seeks_resolveGate _ name span
        · exact seeks_deadEnd rfl rfl _ .nowhere name

theorem Seek.advances {s' : Session} (h : Seek s s') (work : Option Nat) :
    Advances work s s' := by
  cases h with
  | load path known => exact advances_loadSource s path _ work
  | gate g => exact advances_register (Gate.declared_definition g) work
  | ask name =>
    exact .of_chips rfl rfl (List.prefix_refl _) (.inr ⟨List.Subset.refl _, List.Subset.refl _⟩) rfl
  | report search span => exact advances_report s _ span work
  | giveUp told name => exact advances_giveUp told work

theorem Seeks.advances {s' : Session} (h : Seeks s s') (work : Option Nat) :
    Advances work s s' := by
  induction h with
  | refl => exact .refl work s
  | tail _ h ih => exact ih.trans (h.advances work)

theorem advances_resolve (s : Session) (name : String) (span : Span) (work : Option Nat) :
    Advances work s (s.resolve name span).2 :=
  (seeks_resolve s name span).advances work

/-! ## Where names lead -/

variable {id : Nat}

/-- The chip at a position has a name, in some spelling. -/
def Named (s : Session) (name : String) (id : Nat) : Prop :=
  ∃ d, s.definition? id = some d ∧ d.key = foldCase name

theorem Named.mono {s' : Session} {work : Option Nat} {name : String} (h : s.Named name id)
    (ha : Advances work s s') : s'.Named name id := by
  obtain ⟨d, hd, hk⟩ := h
  obtain ⟨d', hd', hg⟩ := ha.definition? hd
  exact ⟨d', hd', hg.key.trans hk⟩

theorem named_of_register {d : Definition} (h : (s.register d).1 = some id) :
    (s.register d).2.Named d.name id := by
  unfold register at h ⊢
  split at h
  · cases h
  · cases h
    refine ⟨d, ?_, rfl⟩
    simp [definition?_eq]

theorem named_of_resolveGate {name : String} {span : Span}
    (h : (s.resolveGate name span).1 = some id) : (s.resolveGate name span).2.Named name id := by
  unfold resolveGate at h ⊢
  split at h
  · next g hg =>
    have hnamed := named_of_register h
    rwa [show g.definition.name = name from Gate.name_of_ofName? hg] at hnamed
  · cases h

theorem named_of_lookup? {name : String} (h : s.lookup? name = some id) : s.Named name id :=
  definition?_of_find? h

theorem named_of_resolveText {path text name : String} {span : Span}
    (h : (s.resolveText path text name span).1 = some id) :
    (s.resolveText path text name span).2.Named name id := by
  unfold resolveText at h ⊢
  dsimp only at h ⊢
  split at h
  · next hfound =>
    cases h
    dsimp only
    split <;> exact named_of_lookup? hfound
  · split at h <;> cases h

/-- **A name leads to the registered chip that has it.** -/
theorem named_of_resolve {name : String} {span : Span} (h : (s.resolve name span).1 = some id) :
    (s.resolve name span).2.Named name id := by
  unfold resolve at h ⊢
  split at h
  · next hfound =>
    cases h
    exact named_of_lookup? hfound
  · split at h
    · cases h
    · next hnew =>
      rw [if_neg hnew]
      split at h
      · exact named_of_resolveGate h
      · dsimp only at h ⊢
        split at h
        · exact named_of_resolveText h
        · exact named_of_resolveGate h
        · cases h

theorem exists_definition_of_resolve {name : String} {span : Span}
    (h : (s.resolve name span).1 = some id) :
    ∃ d, (s.resolve name span).2.definition? id = some d :=
  (named_of_resolve h).imp fun _ hd => hd.1

end Session

end ChipLogic
