import ChipLogic.Proofs.Chip.Spans
import ChipLogic.Proofs.Session.Walk
import ChipLogic.Proofs.Session.Script

/-!
# Every diagnostic can be shown

The linker reports problems at places that it did not find itself: at spans of the text in which a
part or a pin was declared, long after that text was read, with labels that point into other texts.

**Located sessions.** All spans that a session has stored, in its chips and in its log, stand in a
file of the session or nowhere (`Session.Located`). Whatever a session does at a place that is
located, it stays located, and its files stay where they are (`Session.StaysLocated`). There is one
lemma for each function of loading, finding, connecting and linking. Since all of them report at
spans that the session has stored, or nowhere, no other spans get into the log.

**Theorem (`Session.after_showable`).** After any calls that add no pin and report nothing at a
place of their own, all spans of all diagnostics stand in a file of the session or nowhere, and
every diagnostic is shown without a false step.
-/

namespace ChipLogic

namespace SourceBook

theorem hereditary_holds (b : SourceBook) : Hdl.Hereditary b.Holds :=
  ⟨holds_nowhere, Holds.merge⟩

/-- All stretches of a text that has been added stand in its file. -/
theorem stretches_add (b : SourceBook) (path text : String) :
    Hdl.Stretches (b.add path text).Holds (some b.size) text.toList := by
  intro before inside after htext n hn
  cases hn
  refine ⟨⟨path, text⟩, b.getElem?_size_add path text, ?_⟩
  refine SourceFile.holds_of_cuts (Nat.le_add_right _ _) ⟨before, inside ++ after, htext, rfl⟩
    ⟨before ++ inside, after, ?_, byteLength_append _ _⟩
  rw [htext, List.append_assoc]

end SourceBook

namespace Session

variable {s s' s'' : Session} {parent child : Nat} {span : Span}

/-- All spans that are stored stand in a file of the session or nowhere. -/
structure Located (s : Session) : Prop where
  chips : ∀ e ∈ s.chips, e.definition.AllSpans s.sources.Holds
  log : ∀ d ∈ s.log.history, d.AllSpans s.sources.Holds

/-- The session is located, and the files of the other one are still there. -/
structure StaysLocated (s s' : Session) : Prop where
  sources : s.sources.Grows s'.sources
  located : s'.Located

theorem Located.refl (h : s.Located) : StaysLocated s s := ⟨.refl _, h⟩

theorem StaysLocated.trans (h : StaysLocated s s') (h' : StaysLocated s' s'') :
    StaysLocated s s'' :=
  ⟨h.sources.trans h'.sources, h'.located⟩

theorem StaysLocated.holds (h : StaysLocated s s') (hs : s.sources.Holds span) :
    s'.sources.Holds span :=
  hs.mono h.sources

theorem StaysLocated.part (h : StaysLocated s s') {p : Part} (hp : p.AllSpans s.sources.Holds) :
    p.AllSpans s'.sources.Holds :=
  hp.mono fun _ => h.holds

/-! ## Where problems of connections and pins come from -/

theorem labels_of_innerPin {r : Reference} {p : Problem} (h : s.innerPin child r = .error p) :
    p.labels = [] := by
  unfold innerPin at h
  dsimp only at h
  split at h
  · cases h; rfl
  · split at h
    · cases h; rfl
    · split at h
      · cases h
      · split at h <;> cases h
        rfl

theorem labels_of_join {c : Connection} {inner outer : Nat × Pin} {p : Problem}
    (h : join c inner outer = .error p) : p.labels = [] := by
  unfold join at h
  dsimp only at h
  generalize (if inner.2.kind = .input then Direction.drive else .sense) = direction at h
  split at h
  · cases h; rfl
  · split at h <;> cases h
    rfl

theorem mem_of_mem_undriven {d : Definition} {p : Pin} (hp : p ∈ undriven d) : p ∈ d.pins := by
  obtain ⟨slot, hslot, rfl⟩ := List.mem_map.1 hp
  exact Numbered.mem_items (List.mem_of_mem_filter hslot)

namespace Located

theorem definition (h : s.Located) {id : Nat} {d : Definition} (hd : s.definition? id = some d) :
    d.AllSpans s.sources.Holds := by
  obtain ⟨e, he, rfl⟩ := definition?_eq_some_iff.1 hd
  exact h.chips e (Array.mem_of_getElem? he)

/-- The place of a chip is located, also if there is no such chip. -/
theorem place (h : s.Located) (id : Nat) :
    s.sources.Holds (((s.definition? id).map (·.span)).getD .nowhere) := by
  cases hd : s.definition? id with
  | none => exact SourceBook.holds_nowhere
  | some d => exact (h.definition hd).span

/-! ## Reports and changes of chips -/

theorem emitAll (h : s.Located) {ds : List Diagnostic}
    (hds : ∀ d ∈ ds, d.AllSpans s.sources.Holds) : (s.emitAll ds).Located :=
  ⟨h.chips, List.forall_mem_append.2 ⟨h.log, hds⟩⟩

theorem emit (h : s.Located) {d : Diagnostic} (hd : d.AllSpans s.sources.Holds) :
    (s.emit d).Located :=
  h.emitAll (List.forall_mem_singleton.2 hd)

theorem report (h : s.Located) {p : Problem} (hp : p.AllSpans s.sources.Holds)
    (hspan : s.sources.Holds span) : StaysLocated s (s.report p span) :=
  ⟨.refl _, h.emit (Problem.allSpans_report hp hspan)⟩

/-- A change of a chip. -/
theorem modify (h : s.Located) {id : Nat} {f : Entry → Entry} {r : Registry}
    (hc : r.entries = s.chips.modify id f)
    (hf : ∀ e ∈ s.chips, (f e).definition.AllSpans s.sources.Holds) :
    StaysLocated s { s with registry := r } := by
  refine ⟨.refl _, fun e he => ?_, h.log⟩
  obtain ⟨i, hi⟩ := Array.mem_iff_getElem?.1 he
  rw [Session.chips, hc, Array.getElem?_modify] at hi
  split at hi
  · obtain ⟨e', he', rfl⟩ := Option.map_eq_some_iff.1 hi
    exact hf e' (Array.mem_of_getElem? he')
  · exact h.chips e (Array.mem_of_getElem? hi)

theorem setStatus (h : s.Located) (id : Nat) (status : LinkStatus) :
    StaysLocated s (s.setStatus id status) :=
  h.modify (chips_setStatus ..) h.chips

theorem setLink (h : s.Located) (id index : Nat) (link : Link) :
    StaysLocated s (s.setLink id index link) :=
  h.modify (s.chips_modifyDefinition id _ fun d => d.key_setLink index link)
    fun e he => (h.chips e he).setLink index link

theorem addPinTo (h : s.Located) (id : Nat) {p : Pin} (hp : s.sources.Holds p.span) :
    StaysLocated s (s.addPinTo id p).2 := by
  rcases s.addPinTo_cases id p with ⟨-, hadd⟩ | ⟨d, refusal, hd, hr, hadd⟩ | ⟨d, -, -, hadd⟩
  · exact hadd ▸ h.refl
  · have hspans := h.definition hd
    exact hadd ▸ h.report (Problem.allSpans_pinRefused _ _ (hspans.previous hr)) hp
  · exact hadd ▸ h.modify (s.chips_modifyDefinition id _ fun d => d.key_push p)
      fun e he => (h.chips e he).push hp

theorem addPin (h : s.Located) (id : Nat) {p : Pin} (hp : s.sources.Holds p.span) :
    StaysLocated s (s.addPin id p).2 := by
  rcases s.addPin_cases id p with hadd | ⟨-, hadd⟩ | hadd
  · exact hadd ▸ h.refl
  · exact hadd ▸ h.addPinTo id hp
  · exact hadd ▸ h.report (Problem.allSpans_of_labels rfl) hp

/-! ## Loading -/

theorem register (h : s.Located) {d : Definition} (hd : d.AllSpans s.sources.Holds) :
    StaysLocated s (s.register d).2 := by
  unfold Session.register
  split
  · exact h.report (Problem.allSpans_duplicateChip _ (h.place _)) hd.span
  · refine ⟨.refl _, fun e he => ?_, h.log⟩
    rcases Array.mem_push.1 (s.chips_enroll d ▸ he) with he | rfl
    · exact h.chips e he
    · exact hd

theorem registerAll (h : s.Located) {ds : List Definition}
    (hds : ∀ d ∈ ds, d.AllSpans s.sources.Holds) : StaysLocated s (s.registerAll ds).2 := by
  induction ds generalizing s with
  | nil => exact h.refl
  | cons d ds ih =>
    obtain ⟨hd, hrest⟩ := List.forall_mem_cons.1 hds
    have hfirst := h.register hd
    exact hfirst.trans (ih hfirst.located fun d hd => (hrest d hd).mono fun _ => hfirst.holds)

theorem addFile (h : s.Located) (path text : String) :
    StaysLocated s { s with sources := s.sources.add path text } := by
  have hgrows := s.sources.grows_add path text
  exact ⟨hgrows, fun e he => (h.chips e he).mono fun _ hs => hs.mono hgrows,
    fun d hd => (h.log d hd).mono fun _ hs => hs.mono hgrows⟩

theorem loadSource (h : s.Located) (path text : String) :
    StaysLocated s (s.loadSource path text).2 := by
  have hadd := h.addFile path text
  obtain ⟨hdocument, hfaults⟩ := Hdl.allSpans_parse (SourceBook.hereditary_holds _)
    (s.sources.stretches_add path text)
  unfold Session.loadSource
  dsimp only
  generalize Hdl.parse (some s.sources.size) text = parsed at hdocument hfaults
  generalize hbuilt : (if parsed.faults.isEmpty then Definition.ofDocument parsed.document
    else ⟨[], []⟩) = built
  have hspans : (∀ d ∈ built.definitions, d.AllSpans (s.sources.add path text).Holds) ∧
      Hdl.AllMarked (s.sources.add path text).Holds built.faults := by
    rw [← hbuilt]
    split
    · exact Definition.allSpans_ofDocument hdocument
    · exact ⟨List.forall_mem_nil _, .nil⟩
  split
  · exact hadd.trans (hadd.located.registerAll hspans.1)
  · have hemit := hadd.located.emitAll (hfaults.append hspans.2)
    exact ⟨hadd.sources, hemit.chips, hemit.log⟩

theorem addSource (h : s.Located) (name text : String) :
    StaysLocated s (s.addSource name text).2 :=
  h.loadSource name text

theorem loadFile (h : s.Located) (path : String) : StaysLocated s (s.loadFile path).2 := by
  unfold Session.loadFile
  split
  · exact h.addSource _ _
  · exact h.report (Problem.allSpans_of_labels rfl) SourceBook.holds_nowhere

/-! ## Finding chips -/

theorem remember (h : s.Located) (missing asked : List String) :
    StaysLocated s { s with missing, asked } :=
  ⟨.refl _, h.chips, h.log⟩

theorem giveUp (h : s.Located) (name : String) : StaysLocated s (s.giveUp name).2 :=
  h.remember _ _

theorem resolveGate (h : s.Located) (name : String) (hspan : s.sources.Holds span) :
    StaysLocated s (s.resolveGate name span).2 := by
  unfold Session.resolveGate
  split
  · exact h.register (Gate.allSpans_definition SourceBook.holds_nowhere _)
  · have hreport := h.report (p := .chipNotFound name) (Problem.allSpans_of_labels rfl) hspan
    exact hreport.trans (hreport.located.giveUp name)

theorem resolveText (h : s.Located) (path text name : String) (hspan : s.sources.Holds span) :
    StaysLocated s (s.resolveText path text name span).2 := by
  have hload := h.loadSource path text
  unfold Session.resolveText
  dsimp only
  split
  · dsimp only
    split
    · exact hload.trans
        (hload.located.report (Problem.allSpans_of_labels rfl) (hload.located.place _))
    · exact hload
  · split
    · have hreport := hload.located.report (p := .fileMismatch name (chipFileName name))
        (Problem.allSpans_of_labels rfl) (hload.holds hspan)
      exact (hload.trans hreport).trans (hreport.located.giveUp name)
    · exact hload.trans (hload.located.giveUp name)

/-- **To find a chip** keeps a session located if the place that asks for it is. -/
theorem resolve (h : s.Located) (name : String) (hspan : s.sources.Holds span) :
    StaysLocated s (s.resolve name span).2 := by
  have hask : StaysLocated s { s with asked := s.asked ++ [name] } := h.remember _ _
  unfold Session.resolve
  split
  · exact h.refl
  · split
    · exact h.refl
    · split
      · exact h.resolveGate name hspan
      · dsimp only
        split
        · exact hask.trans (hask.located.resolveText _ _ name hspan)
        · exact hask.trans (hask.located.resolveGate name hspan)
        · next reason _ _ =>
          have hreport := hask.located.report (p := .unreadable (chipFileName name) reason)
            (Problem.allSpans_of_labels rfl) SourceBook.holds_nowhere
          exact hask.trans (hreport.trans (hreport.located.giveUp name))

/-! ## Connections -/

theorem mentions (h : s.Located) (parent : Nat) (key : String) :
    ∀ m ∈ s.mentions parent key, s.sources.Holds m.span := by
  intro m hm
  obtain ⟨p, hp, hm⟩ := List.mem_flatMap.1 hm
  obtain ⟨c, -, rfl⟩ := List.mem_map.1 hm
  cases hd : s.definition? parent with
  | none =>
    rw [hd] at hp
    cases hp
  | some d =>
    rw [hd] at hp
    exact ((h.definition hd).parts p (Array.mem_toList_iff.1 hp)).span

theorem mentionWidth (h : s.Located) {m : Mention} (hm : s.sources.Holds m.span) :
    StaysLocated s (s.mentionWidth m).2 := by
  unfold Session.mentionWidth
  split
  · exact h.refl
  · have hresolve := h.resolve m.chip hm
    split <;> next he => rw [he] at hresolve; exact hresolve

theorem widestMention (h : s.Located) (width : Nat) {ms : List Mention}
    (hms : ∀ m ∈ ms, s.sources.Holds m.span) : StaysLocated s (s.widestMention width ms).2 := by
  induction ms generalizing s width with
  | nil => exact h.refl
  | cons m ms ih =>
    obtain ⟨hm, hrest⟩ := List.forall_mem_cons.1 hms
    have hfirst := h.mentionWidth hm
    exact hfirst.trans (ih hfirst.located _ fun m hm => hfirst.holds (hrest m hm))

theorem addNet (h : s.Located) (parent : Nat) {r : Reference} (hr : s.sources.Holds r.span)
    (width : Nat) : StaysLocated s (s.addNet parent r width).2 := by
  rw [addNet_eq]
  have hw := h.widestMention (r.leastWidth width) (h.mentions parent r.key)
  exact hw.trans (hw.located.addPinTo parent (hw.holds hr))

theorem outerPin (h : s.Located) (parent : Nat) {r : Reference} (hr : s.sources.Holds r.span)
    (width : Nat) : StaysLocated s (s.outerPin parent r width).2 := by
  have hcase := s.outerRun_outerPin parent r width
  generalize s.outerPin parent r width = outer at hcase ⊢
  cases hcase with
  | found => exact h.refl
  | misfit | reversed => exact h.report (Problem.allSpans_of_labels rfl) hr
  | made => exact h.addNet parent hr width

theorem connect (h : s.Located) (parent child : Nat) {c : Connection}
    (hc : c.AllSpans s.sources.Holds) : StaysLocated s (s.connect parent child c).2 := by
  have houter := h.outerPin parent hc.outer
  have hcase := s.connectRun_connect parent child c
  generalize s.connect parent child c = r at hcase ⊢
  cases hcase with
  | noInner hi => exact h.report (Problem.allSpans_of_labels (labels_of_innerPin hi)) hc.inner
  | noOuter | wire => exact houter _
  | apart _ _ hj =>
    exact (houter _).trans ((houter _).located.report
      (Problem.allSpans_of_labels (labels_of_join hj)) ((houter _).holds hc.span))

theorem connectAll (h : s.Located) (parent child : Nat) {cs : List Connection}
    (hcs : ∀ c ∈ cs, c.AllSpans s.sources.Holds) :
    StaysLocated s (s.connectAll parent child cs).2 := by
  induction cs generalizing s with
  | nil => exact h.refl
  | cons c cs ih =>
    obtain ⟨hc, hrest⟩ := List.forall_mem_cons.1 hcs
    have hfirst := h.connect parent child hc
    exact hfirst.trans (ih hfirst.located fun c hc => (hrest c hc).mono fun _ => hfirst.holds)

/-! ## Linking -/

theorem warnUnfed (h : s.Located) (child : Nat) (wires : List Wire)
    (hspan : s.sources.Holds span) : StaysLocated s (s.warnUnfed child wires span) := by
  refine ⟨.refl _, h.emitAll fun d hd => ?_⟩
  obtain ⟨p, -, rfl⟩ := List.mem_map.1 hd
  exact Problem.allSpans_report (Problem.allSpans_of_labels rfl) hspan

theorem warnUndriven (h : s.Located) (id : Nat) : StaysLocated s (s.warnUndriven id) := by
  refine ⟨.refl _, h.emitAll fun d hd => ?_⟩
  obtain ⟨p, hp, rfl⟩ := List.mem_map.1 hd
  refine Problem.allSpans_report (Problem.allSpans_of_labels rfl) ?_
  have hpin := mem_of_mem_undriven hp
  cases hd : s.definition? id with
  | none =>
    rw [hd] at hpin
    cases Array.mem_toList_iff.2 hpin
  | some d =>
    rw [hd] at hpin
    exact (h.definition hd).pins p hpin

/-- A linker that keeps sessions located if the place of the part is. -/
def Keeps (linkChild : ChildLinker) : Prop :=
  ∀ child name span s, Located s → s.sources.Holds span →
    StaysLocated s (linkChild child name span s).2

theorem linkPart {linkChild : ChildLinker} (hl : Keeps linkChild) (h : s.Located)
    (parent index : Nat) : StaysLocated s (Session.linkPart linkChild parent index s).2 := by
  have hrun := partRun_linkPart linkChild parent index s
  generalize Session.linkPart linkChild parent index s = r at hrun ⊢
  have hpart {p : Part} (hp : s.part? parent index = some p) : p.AllSpans s.sources.Holds := by
    obtain ⟨d, hd, hi⟩ := definition?_of_part? hp
    exact (h.definition hd).parts p (Array.mem_of_getElem? hi)
  cases hrun with
  | absent => exact h.refl
  | @unresolved part s₁ hp hr =>
    have hresolve := h.resolve part.chip (hpart hp).span
    rw [hr] at hresolve
    exact hresolve
  | @steps part child ok good wires s₁ s₂ s₃ s₄ steps =>
    have hspans := hpart steps.found
    have h₁ := h.resolve part.chip hspans.span
    rw [steps.resolved] at h₁
    have h₂ := h₁.trans (hl child part.chip part.span s₁ h₁.located (h₁.part hspans).span)
    rw [steps.linked] at h₂
    have h₃ := h₂.trans (h₂.located.connectAll parent child (h₂.part hspans).connections)
    rw [steps.connected] at h₃
    have h₄ : StaysLocated s s₄ := by
      rw [steps.warned]
      split
      · exact h₃.trans (h₃.located.warnUnfed child _ (h₃.part hspans).span)
      · exact h₃
    exact h₄.trans (h₄.located.setLink _ _ _)

theorem linkParts {linkChild : ChildLinker} (hl : Keeps linkChild) (h : s.Located)
    (parent : Nat) (indices : List Nat) :
    StaysLocated s (Session.linkParts linkChild parent indices s).2 := by
  induction indices generalizing s with
  | nil => exact h.refl
  | cons index indices ih =>
    have hfirst := h.linkPart hl parent index
    exact hfirst.trans (ih hfirst.located)

theorem linkFresh {linkChild : ChildLinker} (hl : Keeps linkChild) (h : s.Located) {id : Nat}
    (hs : s.status? id = some .unlinked) :
    StaysLocated s (Session.linkFresh linkChild id s).2 := by
  have hrun := freshRun_linkFresh linkChild hs
  generalize Session.linkFresh linkChild id s = r at hrun ⊢
  cases hrun with
  | gate => exact h.setStatus id _
  | @parts d ok s₁ s₂ _ _ run warned =>
    have hstart := h.setStatus id .inProgress
    have hparts := hstart.trans (hstart.located.linkParts hl id (List.range d.parts.size))
    rw [run] at hparts
    have hwarned : StaysLocated s s₂ := by
      rw [warned]
      split
      · exact hparts.trans (hparts.located.warnUndriven id)
      · exact hparts
    exact hwarned.trans (hwarned.located.setStatus id _)

theorem keeps_linkWithin (depth : Nat) : Keeps (linkWithin depth) := by
  induction depth with
  | zero =>
    intro child name span s h hspan
    exact h.report (Problem.allSpans_of_labels rfl) hspan
  | succ depth ih =>
    intro child name span s h hspan
    unfold linkWithin
    split
    · exact h.refl
    · next hs => exact h.linkFresh ih hs
    · exact h.report (Problem.allSpans_of_labels rfl) hspan

/-- **To link a chip** keeps a session located. -/
theorem link (h : s.Located) (id : Nat) : StaysLocated s (s.link id).2 := by
  unfold Session.link
  split
  · exact h.refl
  · next hs => exact h.linkFresh (keeps_linkWithin _) hs
  · exact h.refl

theorem freeze (h : s.Located) (top : Nat) : StaysLocated s (s.freeze top).2 := by
  rw [freeze_snd]
  exact h.link top

theorem elaborate (h : s.Located) (name : String) : StaysLocated s (s.elaborate name).2 := by
  have hchip : StaysLocated s (s.resolve name .nowhere).2 := h.resolve name SourceBook.holds_nowhere
  unfold Session.elaborate Session.chip
  split
  · next he => rw [he] at hchip; exact hchip
  · next he =>
    rw [he] at hchip
    exact hchip.trans (hchip.located.freeze _)

end Located

/-! ## Scripts -/

/-- An action that brings no place of its own: the pin that it adds or the diagnostic that it
reports stands nowhere. -/
def Action.Unplaced : Action → Prop
  | .addPin _ p => p.span.file = none
  | .emit d => d.AllSpans (·.file = none)
  | _ => True

theorem Located.run (h : s.Located) {a : Action} (ha : a.Unplaced) : (a.run s).Located := by
  cases a with
  | remount disk => exact ⟨h.chips, h.log⟩
  | addSource name text => exact (h.addSource name text).located
  | loadFile path => exact (h.loadFile path).located
  | chip name => exact (h.resolve name SourceBook.holds_nowhere).located
  | addPin id p => exact (h.addPin id (SourceBook.holds_of_file_eq_none ha)).located
  | emit d =>
    have hspans : d.AllSpans (·.file = none) := ha
    exact h.emit (hspans.mono fun _ => SourceBook.holds_of_file_eq_none)
  | takeAll => exact ⟨h.chips, h.log⟩
  | link id => exact (h.link id).located
  | freeze top => exact (h.freeze top).located
  | elaborate name => exact (h.elaborate name).located

theorem located_after (disk : Disk) (library : Option String) {script : List Action}
    (hscript : ∀ a ∈ script, a.Unplaced) : (after { disk, library } script).Located := by
  have hstart : Located { disk, library } :=
    ⟨fun _ he => (nomatch Array.mem_toList_iff.2 he), List.forall_mem_nil _⟩
  exact after_induction hstart fun a ha _ h => h.run (hscript a ha)

/-- **Every diagnostic can be shown.** After calls that bring no places of their own, on any texts
and any files, the spans of all diagnostics that were ever emitted stand in the files of the session
or nowhere, and so every step of showing them is possible. -/
theorem after_showable (disk : Disk) (library : Option String) {script : List Action}
    (hscript : ∀ a ∈ script, a.Unplaced) {d : Diagnostic}
    (hd : d ∈ (after { disk, library } script).log.history) :
    d.AllSpans (after { disk, library } script).sources.Holds ∧ ∀ colour,
      d.render? (after { disk, library } script).sources colour =
        some (d.render (after { disk, library } script).sources colour) := by
  have hspans := (located_after disk library hscript).log d hd
  exact ⟨hspans, Diagnostic.render?_eq hspans⟩

/-- A file with a letter that no name has, a chip, its copy in another text, and a pin that the chip
has already. -/
def troubles : List Action :=
  [.loadFile "B.hdl", .addSource "A.hdl" "CHIP A\x7bIN x;OUT y;\x7d",
    .addSource "C.hdl" "// é\nCHIP A\x7bIN x;OUT y;\x7d", .addPin 0 ⟨"x", 1, .input, .nowhere⟩,
    .elaborate "A"]

def troubled : Session :=
  Session.after { disk := .ofSnapshots [⟨"B.hdl", true, .ok "CHIP B\x7bIN ü;\x7d"⟩] } troubles

theorem after_showable_troubled :
    (troubled.log.history.map fun d => (d.span, d.labels.map (·.span))) =
        [(⟨some 0, 10, 12⟩, []), (⟨some 0, 10, 12⟩, []), (⟨some 2, 11, 12⟩, [⟨some 1, 5, 6⟩]),
          (.nowhere, [⟨some 1, 10, 11⟩]), (⟨some 1, 16, 17⟩, [])] ∧
      ∀ d ∈ troubled.log.history, d.AllSpans troubled.sources.Holds ∧
        ∀ colour, (d.render? troubled.sources colour).isSome := by
  have hunplaced : ∀ a ∈ troubles, a.Unplaced := by
    simp [troubles, Action.Unplaced, Span.nowhere]
  refine ⟨by decide +kernel, fun d hd => ?_⟩
  obtain ⟨hspans, hrender⟩ := after_showable _ _ hunplaced hd
  exact ⟨hspans, fun colour => Option.isSome_of_eq_some (hrender colour)⟩

end Session

end ChipLogic
