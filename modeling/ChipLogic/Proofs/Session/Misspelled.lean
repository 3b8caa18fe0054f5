import ChipLogic.Proofs.Session.Fitting
import ChipLogic.Proofs.Session.Offline

/-!
# What a good link reports

A link that fails leaves an error behind (`Session.answers_link`). A link that goes well reports
none, with one exception.

The width of a net is found by a look-ahead, which searches for the chips of parts whose turn has
not come. If such a part names a gate in another spelling, the look-ahead reports that there is no
such chip and goes on. Another part may name the gate rightly, and so register it. When the turn of
the first part comes, its name finds the gate, since registered chips are found in any spelling. The
link goes well although it has reported an error (`Session.link_misspelled`), and whether it does
depends on the order of the parts.

**The exception is the only one** (`Session.errors_of_link`). The errors of a link that goes well
are reports on names of parts that stood for no chip, are no names of gates, and stand for a chip in
the end. Such a name is the name of a gate in another spelling (`Session.Misspells`). The induction
follows the walk (`Session.Misses`): while the parts of a chip are linked, reports on names of its
own parts are waiting to be excused, and they are once all its parts have found their chips.

**Theorem (`Session.Reachable.link_iff_no_error`).** In a session without errors in which no part
misspells the name of a gate, a link goes well if and only if it reports no error.
-/

namespace ChipLogic

namespace Session

variable {s s' s'' : Session} {parent child : Nat} {linkChild : ChildLinker}
  {names names' : String → Prop}

/-- The name stands for no chip, and it is the name of a gate in another spelling only. -/
def Misspells (s : Session) (name : String) : Prop :=
  s.lookup? name = none ∧ Gate.ofName? name = none ∧ ∃ g ∈ Gate.all, foldCase g.name = foldCase name

instance (s : Session) (name : String) : Decidable (s.Misspells name) :=
  inferInstanceAs (Decidable (_ ∧ _ ∧ _))

/-- Some part of the chip has this name. -/
def Writes (s : Session) (a : Nat) (name : String) : Prop :=
  ∃ i p, s.part? a i = some p ∧ p.chip = name

/-- A name that stands for a chip by now, and that some part has. -/
def Excused (s : Session) (name : String) : Prop :=
  (s.lookup? name).isSome ∧ ∃ a, s.Writes a name

/-! ## Reports on names of parts -/

/-- The new errors are reports on `names`, which stood for no chip and are no names of gates. -/
structure Misses (names : String → Prop) (s s' : Session) : Prop extends Local s s' where
  told : ∃ new, s'.log.history = s.log.history ++ new ∧ ∀ d ∈ new, d.isError = true →
    ∃ name span, d = (Problem.chipNotFound name).report span ∧ names name ∧
      s.lookup? name = none ∧ Gate.ofName? name = none

theorem Local.writes (h : Local s s') {a : Nat} {name : String} (hw : s.Writes a name) :
    s'.Writes a name := by
  obtain ⟨i, p, hp, rfl⟩ := hw
  obtain ⟨p', hp', hchip⟩ := h.grown.part?_chip hp
  exact ⟨i, p', hp', hchip⟩

theorem Local.excused (h : Local s s') {name : String} (he : s.Excused name) : s'.Excused name := by
  obtain ⟨hl, a, hw⟩ := he
  exact ⟨h.grown.lookup?_isSome hl, a, h.writes hw⟩

namespace Misses

theorem mono (h : Misses names s s') (hn : ∀ name, names name → names' name) :
    Misses names' s s' where
  toLocal := h.toLocal
  told := by
    obtain ⟨new, hnew, htold⟩ := h.told
    refine ⟨new, hnew, fun d hd he => ?_⟩
    obtain ⟨name, span, rfl, hname, hrest⟩ := htold d hd he
    exact ⟨name, span, rfl, hn name hname, hrest⟩

theorem trans (h : Misses names s s') (h' : Misses names s' s'') : Misses names s s'' where
  toLocal := h.toLocal.trans h'.toLocal
  told := by
    obtain ⟨new, hnew, htold⟩ := h.told
    obtain ⟨new', hnew', htold'⟩ := h'.told
    refine ⟨new ++ new', by rw [hnew', hnew, List.append_assoc], fun d hd he => ?_⟩
    rcases List.mem_append.1 hd with hd | hd
    · exact htold d hd he
    · obtain ⟨name, span, rfl, hname, hl, hg⟩ := htold' d hd he
      -- what stands for no chip later stood for none before
      refine ⟨name, span, rfl, hname, ?_, hg⟩
      by_contra hsome
      have hlater := h.grown.lookup?_isSome (Option.isSome_iff_ne_none.2 hsome)
      rw [hl] at hlater
      cases hlater

/-- A step without an error. -/
theorem of_local (h : Local s s') {new : List Diagnostic}
    (hnew : s'.log.history = s.log.history ++ new) (hnone : ∀ d ∈ new, d.isError = false) :
    Misses names s s' := by
  refine ⟨h, new, hnew, fun d hd he => ?_⟩
  rw [hnone d hd] at he
  cases he

theorem of_log_eq (h : Local s s') (hlog : s'.log = s.log) : Misses names s s' :=
  of_local h (by rw [hlog, List.append_nil]) (List.forall_mem_nil _)

theorem refl (hlib : s.library = none) (ho : s.Orderly) : Misses names s s :=
  of_log_eq (.refl hlib ho) rfl

end Misses

theorem misses_warnings (hlib : s.library = none) (ho : s.Orderly) {ds : List Diagnostic}
    (h : ∀ d ∈ ds, d.isError = false) : Misses names s (s.emitAll ds) :=
  .of_local (.of_definition? hlib ho rfl (List.Subset.refl _) fun _ => rfl) rfl h

theorem misses_setStatus (hlib : s.library = none) (ho : s.Orderly) (a : Nat)
    (status : LinkStatus) : Misses names s (s.setStatus a status) :=
  .of_log_eq (Stride.local (.setStatus s a status) hlib ho) rfl

/-! ## Searches -/

/-- A search reports on its own name, and only if it comes to nothing. -/
theorem misses_resolve (hlib : s.library = none) (ho : s.Orderly) (name : String) (span : Span) :
    Misses (fun n => n = name ∧ (s.resolve name span).1 = none) s (s.resolve name span).2 := by
  have hlocal := local_resolve hlib ho name span
  have hsearch := localSearch_resolve hlib name span
  generalize s.resolve name span = r at hlocal hsearch ⊢
  cases hsearch with
  | answered _ => exact .refl hlib ho
  | gate _ _ => exact .of_log_eq hlocal rfl
  | nothing unknown unnamed =>
    refine ⟨hlocal, [_], rfl, List.forall_mem_singleton.2 fun _ => ?_⟩
    exact ⟨name, span, rfl, ⟨rfl, rfl⟩,
      Option.not_isSome_iff_eq_none.1 fun hl => unknown (.inl hl), unnamed⟩

/-- A search that finds a chip reports no error, and from then on the name stands for the chip. -/
theorem misses_of_resolve (hlib : s.library = none) (ho : s.Orderly) {name : String} {span : Span}
    (h : s.resolve name span = (some child, s')) :
    Misses names s s' ∧ (s'.lookup? name).isSome := by
  have hmisses := misses_resolve hlib ho name span
  have hanswer := (answered_resolve s name span).2
  rw [h] at hmisses hanswer
  exact ⟨hmisses.mono fun n hn => by simp at hn, by rw [hanswer]; rfl⟩

theorem misses_mentionWidth (hlib : s.library = none) (ho : s.Orderly) (m : Mention) :
    Misses (· = m.chip) s (s.mentionWidth m).2 := by
  unfold mentionWidth
  split
  · exact .refl hlib ho
  · have hmisses := (misses_resolve hlib ho m.chip m.span).mono fun _ hn => hn.1
    split <;> next he => rw [he] at hmisses; exact hmisses

theorem misses_widestMention (hlib : s.library = none) (ho : s.Orderly) (width : Nat)
    {ms : List Mention} (hms : ∀ m ∈ ms, names m.chip) :
    Misses names s (s.widestMention width ms).2 := by
  induction ms generalizing s width with
  | nil => exact .refl hlib ho
  | cons m ms ih =>
    obtain ⟨hm, hms⟩ := List.forall_mem_cons.1 hms
    have hfirst : Misses names s (s.mentionWidth m).2 :=
      (misses_mentionWidth hlib ho m).mono fun _ hn => hn ▸ hm
    exact hfirst.trans (ih hfirst.library hfirst.orderly _ hms)

/-! ## Connections -/

/-- Only names of parts are mentioned. -/
theorem writes_of_mem_mentions {key : String} {m : Mention} (hm : m ∈ s.mentions parent key) :
    s.Writes parent m.chip := by
  cases hd : s.definition? parent with
  | none => simp [mentions, hd] at hm
  | some d =>
    rw [mentions_eq hd] at hm
    obtain ⟨p, hp, c, -, -, rfl⟩ := Definition.mem_mentions.1 hm
    obtain ⟨i, hi⟩ := Array.mem_iff_getElem?.1 hp
    exact ⟨i, p, by rw [part?, hd, Option.bind_some, hi], rfl⟩

theorem misses_addNet (hlib : s.library = none) (ho : s.Orderly)
    (hw : ∀ name, s.Writes parent name → names name) {r : Reference} {width : Nat}
    (hok : (s.addNet parent r width).1.isSome) : Misses names s (s.addNet parent r width).2 := by
  rw [addNet_eq] at hok ⊢
  have hwidth : Misses names s (s.netWidth parent r.key (r.leastWidth width)).2 :=
    misses_widestMention hlib ho _ fun m hm => hw _ (writes_of_mem_mentions hm)
  generalize s.netWidth parent r.key (r.leastWidth width) = net at hok hwidth ⊢
  have hadd := local_addPinTo hwidth.library hwidth.orderly parent (r.net net.1)
  refine hwidth.trans (.of_log_eq hadd ?_)
  rw [Option.isSome_map] at hok
  exact log_addPinTo hok

theorem misses_outerPin (hlib : s.library = none) (ho : s.Orderly)
    (hw : ∀ name, s.Writes parent name → names name) {r : Reference} {width : Nat}
    (hok : (s.outerPin parent r width).1.isSome) :
    Misses names s (s.outerPin parent r width).2 := by
  have hcase := s.outerRun_outerPin parent r width
  generalize s.outerPin parent r width = outer at hcase hok ⊢
  cases hcase with
  | found => exact .refl hlib ho
  | misfit | reversed => cases hok
  | made => exact misses_addNet hlib ho hw hok

theorem misses_connect (hlib : s.library = none) (ho : s.Orderly)
    (hw : ∀ name, s.Writes parent name → names name) {c : Connection}
    (hok : (s.connect parent child c).1.isSome) : Misses names s (s.connect parent child c).2 := by
  have hcase := s.connectRun_connect parent child c
  generalize s.connect parent child c = r at hcase hok ⊢
  cases hcase with
  | noInner | noOuter | apart => cases hok
  | wire _ houter _ => exact misses_outerPin hlib ho hw (houter ▸ rfl)

theorem misses_connectAll (hlib : s.library = none) (ho : s.Orderly)
    (hs : s.status? parent = some .inProgress) (hw : ∀ name, s.Writes parent name → names name)
    {cs : List Connection} (hok : (s.connectAll parent child cs).1.all Option.isSome) :
    Misses names s (s.connectAll parent child cs).2 := by
  induction cs generalizing s with
  | nil => exact .refl hlib ho
  | cons c cs ih =>
    have hsplit : (s.connect parent child c).1.isSome ∧
        ((s.connect parent child c).2.connectAll parent child cs).1.all Option.isSome := by
      simpa [connectAll] using hok
    have hfirst := misses_connect hlib ho hw hsplit.1
    have hstep := connects_connect child hs c
    refine hfirst.trans (ih hfirst.library hfirst.orderly (hstep.status_inProgress hs) ?_ hsplit.2)
    rintro name ⟨i, p, hp, rfl⟩
    exact hw _ ⟨i, p, (hstep.parts i).symm.trans hp, rfl⟩

/-! ## Parts and chips -/

/-- A linker of the chips of parts that reports nothing but excused names when it succeeds. -/
def Excusing (linkChild : ChildLinker) : Prop :=
  ∀ child name span s, s.library = none → s.Orderly → (linkChild child name span s).1 = true →
    Misses (linkChild child name span s).2.Excused s (linkChild child name span s).2

/-- The chip of a part that is linked well has been found. -/
theorem misses_linkPart (hl : Links linkChild) (hc : Excusing linkChild) (hlib : s.library = none)
    (ho : s.Orderly) {index : Nat} (hs : s.status? parent = some .inProgress)
    (hok : (linkPart linkChild parent index s).1 = true) :
    let r := linkPart linkChild parent index s
    Misses (fun name => r.2.Excused name ∨ r.2.Writes parent name) s r.2 ∧
      ∀ p, s.part? parent index = some p → (r.2.lookup? p.chip).isSome := by
  have hrun := partRun_linkPart linkChild parent index s
  generalize linkPart linkChild parent index s = r at hrun hok ⊢
  cases hrun with
  | absent => cases hok
  | unresolved => cases hok
  | @steps part child ok good wires s₁ s₂ s₃ s₄ h =>
    dsimp only at hok ⊢
    obtain ⟨hgood, hwires⟩ := Bool.and_eq_true_iff.1 (h.verdict.trans hok)
    obtain ⟨hfound, hname⟩ : Misses s₂.Excused s s₁ ∧ (s₁.lookup? part.chip).isSome :=
      misses_of_resolve hlib ho h.resolved
    have hinner := hc child part.chip part.span s₁ hfound.library hfound.orderly
    rw [h.linked] at hinner
    have hinner := hinner hgood
    have hconnect := @misses_connectAll s₂ parent child (s₂.Writes parent) hinner.library
      hinner.orderly (h.inProgress hl hs) (fun _ hn => hn) part.connections
    rw [h.connected] at hconnect
    have hconnect := hconnect hwires
    have hwarn : Misses (s₂.Writes parent) s₃ s₄ := by
      rw [h.warned, if_pos hok]
      refine misses_warnings hconnect.library hconnect.orderly fun d hd => ?_
      obtain ⟨p, -, rfl⟩ := List.mem_map.1 hd
      rfl
    have hset := (h.stride hl hs).local hwarn.library hwarn.orderly
    have hrest := (hconnect.trans hwarn).trans (.of_log_eq hset rfl)
    have hlater := hrest.toLocal
    refine ⟨?_, fun p hp => ?_⟩
    · refine ((hfound.trans hinner).mono fun name hn => .inl (hlater.excused hn)).trans ?_
      exact hrest.mono fun name hn => .inr (hlater.writes hn)
    · obtain rfl : part = p := Option.some.inj (h.found.symm.trans hp)
      exact (hinner.toLocal.trans hlater).grown.lookup?_isSome hname

theorem misses_linkParts (hl : Links linkChild) (hc : Excusing linkChild)
    (hlib : s.library = none) (ho : s.Orderly) {indices : List Nat}
    (hs : s.status? parent = some .inProgress)
    (hok : (linkParts linkChild parent indices s).1 = true) :
    let r := linkParts linkChild parent indices s
    Misses (fun name => r.2.Excused name ∨ r.2.Writes parent name) s r.2 ∧
      ∀ i ∈ indices, ∀ p, s.part? parent i = some p → (r.2.lookup? p.chip).isSome := by
  induction indices generalizing s with
  | nil => exact ⟨.refl hlib ho, fun i hi => by cases hi⟩
  | cons index indices ih =>
    obtain ⟨hfirst, hrest⟩ := Bool.and_eq_true_iff.1 hok
    obtain ⟨hmisses, hfound⟩ := misses_linkPart hl hc hlib ho hs hfirst
    have hs' := (linksPart_linkPart hl index hs).advances.status_inProgress hs
    obtain ⟨hmisses', hfound'⟩ := ih hmisses.library hmisses.orderly hs' hrest
    have hlater := hmisses'.toLocal
    refine ⟨(hmisses.mono fun name hn => ?_).trans hmisses', fun i hi p hp => ?_⟩
    · exact hn.imp hlater.excused hlater.writes
    · rcases List.mem_cons.1 hi with rfl | hi
      · exact hlater.grown.lookup?_isSome (hfound p hp)
      · obtain ⟨p', hp', hchip⟩ := hmisses.grown.part?_chip hp
        exact hchip ▸ hfound' i hi p' hp'

/-- **Once all parts of a chip have found their chips, no report is left to excuse.** -/
theorem misses_linkFresh (hl : Links linkChild) (hc : Excusing linkChild)
    (hlib : s.library = none) (ho : s.Orderly) (hs : s.status? child = some .unlinked)
    (hok : (linkFresh linkChild child s).1 = true) :
    Misses (linkFresh linkChild child s).2.Excused s (linkFresh linkChild child s).2 := by
  obtain ⟨e, he, -⟩ := status?_eq_some_iff.1 hs
  have hrun := freshRun_linkFresh linkChild hs
  generalize linkFresh linkChild child s = r at hok hrun ⊢
  cases hrun with
  | gate _ _ => exact misses_setStatus hlib ho child _
  | @parts d ok s₁ s₂ found _ run warned =>
    dsimp only at hok ⊢
    subst hok
    have hstart := (Stride.setStatus s child .inProgress).local hlib ho
    have hparts := @misses_linkParts (s.setStatus child .inProgress) child linkChild hl hc
      hstart.library hstart.orderly (List.range d.parts.size) (status?_setStatus he .inProgress)
    rw [run] at hparts
    obtain ⟨hmisses, hfound⟩ := hparts rfl
    dsimp only at hmisses hfound
    have hwarn : Misses s₁.Excused s₁ s₂ := by
      rw [warned, if_pos rfl]
      refine misses_warnings hmisses.library hmisses.orderly fun d hd => ?_
      obtain ⟨p, -, rfl⟩ := List.mem_map.1 hd
      rfl
    have hend := hwarn.trans (misses_setStatus hwarn.library hwarn.orderly child (.linked true))
    -- a part that is there in the end was there at the start, and its chip has been found
    have hown : ∀ name, s₁.Writes child name → s₁.Excused name := by
      rintro name ⟨i, p', hp', rfl⟩
      obtain ⟨p, hp, hw⟩ := hmisses.part? hp'
      have hi := hmisses.mem_range ((definition?_setStatus s child _ child).trans found) hp'
      refine ⟨?_, child, i, p', hp', rfl⟩
      rw [Part.chip_of_written hw]
      exact hfound i hi p hp
    have hall := (misses_setStatus hlib ho child .inProgress).trans hmisses
    refine Misses.mono ?_ fun name => hend.excused
    exact (hall.mono fun name hn => hn.elim (fun h => h) (hown name)).trans hend

theorem excusing_linkWithin (depth : Nat) : Excusing (linkWithin depth) := by
  induction depth with
  | zero => exact fun child name span s hlib ho hok => by cases hok
  | succ depth ih =>
    intro child name span s hlib ho hok
    unfold linkWithin at hok ⊢
    split at hok
    · exact .refl hlib ho
    · next hs => exact misses_linkFresh (links_linkWithin depth) ih hlib ho hs hok
    · cases hok

theorem misses_link (hlib : s.library = none) (ho : s.Orderly) {a : Nat}
    (hok : (s.link a).1 = true) : Misses (s.link a).2.Excused s (s.link a).2 := by
  unfold link at hok ⊢
  split at hok
  · exact .refl hlib ho
  · next hs => exact misses_linkFresh (links_linkWithin _) (excusing_linkWithin _) hlib ho hs hok
  · cases hok

/-! ## Links -/

/-- **The errors of a link that goes well** are reports on parts that misspell the name of a gate.
-/
theorem errors_of_link (hs : s.Sound) (hlib : s.library = none) {a : Nat}
    (hok : (s.link a).1 = true) : ∀ d ∈ s.news (s.link a).2, d.isError = true →
      ∃ b i p span, s.part? b i = some p ∧ s.Misspells p.chip ∧
        d = (Problem.chipNotFound p.chip).report span := by
  have hmisses := misses_link hlib hs.orderly hok
  obtain ⟨new, hnew, htold⟩ := hmisses.told
  intro d hd he
  rw [news_eq hnew] at hd
  obtain ⟨name, span, rfl, ⟨hfound, b, i, p', hp', rfl⟩, hl, hg⟩ := htold d hd he
  obtain ⟨p, hp, hw⟩ := hmisses.toLocal.part? hp'
  obtain ⟨g, hgate⟩ := hmisses.toLocal.exists_gate hl hfound
  rw [Part.chip_of_written hw] at hl hg hgate ⊢
  exact ⟨b, i, p, span, hp, ⟨hl, hg, g, by cases g <;> decide, hgate⟩, rfl⟩

/-- **A link goes well if and only if it reports no error**, in a session without errors where no
part misspells the name of a gate. -/
theorem Reachable.link_iff_no_error (h : s.Reachable) (hlib : s.library = none)
    (hclean : s.log.errorCount = 0)
    (hspell : ∀ e ∈ s.chips, ∀ p ∈ e.definition.parts, ¬ s.Misspells p.chip) {a : Nat}
    {d : Definition} (hd : s.definition? a = some d) :
    (s.link a).1 = true ↔ ∀ e ∈ s.news (s.link a).2, e.isError = false := by
  constructor
  · intro hok e he
    by_contra herror
    obtain ⟨b, i, p, span, hp, hmis, -⟩ :=
      errors_of_link h.sound hlib hok e he (by simpa using herror)
    obtain ⟨d, hd, hi⟩ := definition?_of_part? hp
    obtain ⟨entry, hentry, rfl⟩ := definition?_eq_some_iff.1 hd
    exact hspell entry (Array.mem_of_getElem? hentry) p (Array.mem_of_getElem? hi) hmis
  · intro hnone
    by_contra hbad
    have hanswers := answers_link (h.idle a) hd
    have herrors := hanswers.failed h.accounted (by simpa using hbad)
    obtain ⟨new, hnew⟩ := hanswers.log
    rw [news_eq hnew.symm] at hnone
    rw [Log.hasErrors, ← hnew, List.any_append, Bool.or_eq_true] at herrors
    rcases herrors with hold | hlater
    · have hpos := (Log.hasErrors_iff s.log).1 hold
      omega
    · obtain ⟨e, he, herror⟩ := List.any_eq_true.1 hlater
      rw [hnone e he] at herror
      cases herror

/-- All parts of the crossed design have right names, and it links without an error. -/
theorem Reachable.link_iff_no_error_crossed :
    (crossed.link 0).1 = true ∧ ∀ e ∈ crossed.news (crossed.link 0).2, e.isError = false := by
  have hruns : crossed.library = none ∧ crossed.log.errorCount = 0 ∧
      (∀ e ∈ crossed.chips, ∀ p ∈ e.definition.parts, ¬ crossed.Misspells p.chip) ∧
      (crossed.definition? 0).isSome ∧ (crossed.link 0).1 = true := by decide +kernel
  obtain ⟨hlib, hclean, hspell, hdef, hok⟩ := hruns
  obtain ⟨d, hd⟩ := Option.isSome_iff_exists.1 hdef
  exact ⟨hok, (reachable_crossed.link_iff_no_error hlib hclean hspell hd).1 hok⟩

/-- The net `w` is looked ahead for, and `and` is no name of a gate. The last part registers the
gate, and then `and` finds it. -/
def misspelled : Session :=
  (Session.addSource { disk := .empty } "t.hdl"
    ("CHIP T \x7b\n    IN x;\n    OUT o1, o2;\n    PARTS:\n    Not(in=x, out=w);\n" ++
      "    and(a=w, b=x, out=o1);\n    And(a=w, b=x, out=o2);\n\x7d\n")).2

/-- **A link may go well and report an error**, where a part misspells the name of a gate. -/
theorem link_misspelled :
    misspelled.library = none ∧ misspelled.log.errorCount = 0 ∧
      (∀ e ∈ misspelled.chips, e.status = .unlinked) ∧ (misspelled.definition? 0).isSome ∧
      (misspelled.link 0).1 = true ∧
      (misspelled.news (misspelled.link 0).2).any Diagnostic.isError = true := by
  decide +kernel

end Session

end ChipLogic
