import ChipLogic.Proofs.Session.Drawn
import ChipLogic.Proofs.Session.Ledger
import ChipLogic.Proofs.Session.Questions
import ChipLogic.Proofs.Session.Quiet

/-!
# Warnings are exact

A **loose end** is an output or a net of a chip that no wire of a part drives, or an input of a part
that none of the part's wires feeds. `Session.warning?` says of a pin what there is to warn of, as
the chips are now.

The warnings are given at two moments: those of the inputs of a part when the part is linked, those
of a chip's own pins after its last part. Nets come up in between, and a chip can be a part many
times. `Session.Warned own s s'` says that a session has warned of all that became loose on the
way from `s` to `s'`, of each end once. The ends of chips that were linked on the way were due, and
so were those of the pins in `own`, which belong to a chip that is not done yet (`Session.Due`).

**Nothing changes afterwards.** A chip that linked well is finished, and so are the chips inside it,
so what there is to warn of stays the same (`Session.warning?_of_finished`). It also stays the same
for a part that is linked, while other parts are (`Session.warning?_of_partLinked`). So two ways can
be put together (`Session.Warned.trans`), and the walk of a link needs no more than that.

**Theorem (`Session.Reachable.warns_exactly`).** A link that succeeds warns of the loose ends of the
chips that it decides, of each of them once, and of nothing else.
-/

namespace ChipLogic

/-- A pin that may have been left open. -/
inductive LooseEnd
  /-- An output or a net of a chip. -/
  | net (chip pin : Nat)
  /-- An input of the chip of a part. -/
  | input (chip part pin : Nat)
  deriving DecidableEq

/-- The chip in whose text the pin was left open. -/
def LooseEnd.chip : LooseEnd → Nat
  | net chip _ => chip
  | input chip _ _ => chip

namespace Session

variable {s s' s'' : Session} {parent child index a : Nat} {linkChild : ChildLinker} {e : LooseEnd}
  {own own' : Set LooseEnd}

/-! ## Loose ends -/

/-- The warning of a pin that was left open, if it was: that of an output or a net of a chip with
parts on which no part's wire out of the part ends, or that of an input of a part's chip at which
none of the part's wires ends. -/
def warning? (s : Session) : LooseEnd → Option Diagnostic
  | .net chip pin =>
    (s.definition? chip).bind fun d => (d.pins[pin]?).bind fun p =>
      if d.gate = none ∧ (p.kind = .output ∨ p.kind = .internal) ∧
          ∀ q ∈ d.parts.toList, ∀ w ∈ q.wires, w.direction = .sense → w.outer ≠ pin then
        some ((Problem.undriven p.name p.kind d.name).report p.span)
      else none
  | .input chip part pin =>
    (s.part? chip part).bind fun q => q.link.bind fun link =>
      (s.definition? link.chip).bind fun d => (d.pins[pin]?).bind fun p =>
        if p.kind = .input ∧ ∀ w ∈ link.wires, w.inner ≠ pin then
          some ((Problem.unconnected p.name d.name).report q.span)
        else none

/-- An output or a net is picked out as the search for undriven pins does it. -/
theorem warning?_net {d : Definition} (hd : s.definition? a = some d) (hg : d.gate = none)
    (pin : Nat) : s.warning? (.net a pin) = (d.pins[pin]?).bind fun p =>
      if (p.kind != .input && !(d.parts.toList.flatMap Part.wires).any fun w =>
          w.direction == .sense && w.outer == pin) = true then
        some ((Problem.undriven p.name p.kind d.name).report p.span)
      else none := by
  have hkind : ∀ p : Pin, (p.kind = .output ∨ p.kind = .internal) ↔ p.kind ≠ .input := by
    intro p
    cases p.kind <;> simp
  simp only [warning?, hd, Option.bind_some, hg, true_and, hkind]
  congr 1
  funext p
  congr 1
  rw [Bool.and_eq_true, Bool.not_eq_true', List.any_eq_false, bne_iff_ne]
  simp only [List.mem_flatMap, forall_exists_index, and_imp, Bool.and_eq_true, beq_iff_eq, not_and]
  refine congrArg (And _) (propext ⟨fun h w q hq hw => h q hq w hw, fun h q hq w hw => h w q hq hw⟩)

/-- An input is picked out as the search for unfed pins does it. -/
theorem warning?_input {q : Part} {link : Link} {d : Definition}
    (hq : s.part? parent index = some q) (hlink : q.link = some link)
    (hd : s.definition? link.chip = some d) (pin : Nat) :
    s.warning? (.input parent index pin) = (d.pins[pin]?).bind fun p =>
      if (p.kind == .input && !link.wires.any (·.inner == pin)) = true then
        some ((Problem.unconnected p.name d.name).report q.span)
      else none := by
  simp only [warning?, hq, Option.bind_some, hlink, hd]
  congr 1
  funext p
  congr 1
  simp

theorem warning?_net_congr {chip : Nat} (h : s'.definition? chip = s.definition? chip) (pin : Nat) :
    s'.warning? (.net chip pin) = s.warning? (.net chip pin) := by
  rw [warning?, warning?, h]

/-- What there is to say of an input depends on the part and on its chip. -/
theorem warning?_input_congr {chip part : Nat} (hp : s'.part? chip part = s.part? chip part)
    (hd : ∀ q link, s.part? chip part = some q → q.link = some link →
      s'.definition? link.chip = s.definition? link.chip) (pin : Nat) :
    s'.warning? (.input chip part pin) = s.warning? (.input chip part pin) := by
  rw [warning?, warning?, hp]
  cases hq : s.part? chip part with
  | none => rfl
  | some q =>
    cases hlink : q.link with
    | none => simp [hlink]
    | some link => simp only [Option.bind_some, hlink, hd q link hq hlink]

theorem warning?_congr (h : ∀ a, s'.definition? a = s.definition? a) (e : LooseEnd) :
    s'.warning? e = s.warning? e := by
  cases e with
  | net chip pin => exact warning?_net_congr (h chip) pin
  | input chip part pin =>
    exact warning?_input_congr (by rw [part?, part?, h]) (fun _ link _ _ => h link.chip) pin

theorem Finished.status? {id : Nat} (h : s.Finished id) : s.status? id = some (.linked true) := by
  cases h with
  | intro entry status => rw [status?_of_entry entry, status]

theorem Advances.definition?_linked {work : Option Nat} {ok : Bool} (h : Advances work s s')
    (hs : s.status? a = some (.linked ok)) : s'.definition? a = s.definition? a := by
  rw [Session.definition?_eq, Session.definition?_eq, h.linked hs]

/-- **A finished chip keeps its loose ends.** -/
theorem warning?_of_finished {work : Option Nat} (h : s.Finished e.chip)
    (ha : Advances work s s') : s'.warning? e = s.warning? e := by
  have hsame := ha.definition?_linked h.status?
  cases e with
  | net chip pin => exact warning?_net_congr hsame pin
  | input chip part pin =>
    have hpart : s'.part? chip part = s.part? chip part := by
      rw [part?, part?]
      exact congrArg (fun d => d.bind (·.parts[part]?)) hsame
    refine warning?_input_congr hpart (fun q link hq hlink => ?_) pin
    obtain ⟨d, hd, hi⟩ := definition?_of_part? hq
    exact ha.definition?_linked (h.part hd (Array.mem_of_getElem? hi) hlink).1.status?

/-- A linked part keeps its loose ends while other parts are linked. -/
theorem warning?_of_partLinked {work : Option Nat} (h : s.PartLinked parent index)
    (ha : Advances work s s') (hp : s'.part? parent index = s.part? parent index) (pin : Nat) :
    s'.warning? (.input parent index pin) = s.warning? (.input parent index pin) := by
  obtain ⟨p, link, hpart, hlink, hstatus, -⟩ := h
  refine warning?_input_congr hp (fun q link' hq hlink' => ?_) pin
  obtain rfl : p = q := Option.some.inj (hpart.symm.trans hq)
  obtain rfl : link = link' := Option.some.inj (hlink.symm.trans hlink')
  exact ha.definition?_linked hstatus

/-- The pins of a chip that are picked out by position, as ends. -/
theorem exists_ends (t : PinTable) {pick : Numbered Pin → Bool} {picked : List Pin}
    (hpicked : picked = (t.slots.toList.filter pick).map (·.item)) (say : Pin → Diagnostic)
    {mk : Nat → LooseEnd} (hmk : Function.Injective mk) {what : LooseEnd → Option Diagnostic}
    (hwhat : ∀ i, what (mk i) =
      (t.pins[i]?).bind fun p => if pick ⟨i, p⟩ = true then some (say p) else none) :
    ∃ ends : List LooseEnd, ends.Nodup ∧ ends.map what = (picked.map say).map some ∧
      ∀ e, e ∈ ends ↔ (∃ i, e = mk i) ∧ (what e).isSome := by
  have hmem : ∀ slot, slot ∈ t.slots.toList.filter pick ↔
      t.pins[slot.index]? = some slot.item ∧ pick slot = true := by
    intro slot
    rw [List.mem_filter, t.mem_slots_iff]
  refine ⟨((t.slots.toList.filter pick).map (·.index)).map mk, ?_, ?_, fun e => ?_⟩
  · exact List.Nodup.map hmk ((List.filter_sublist.map _).nodup t.inPlace.nodup_index)
  · simp only [hpicked, List.map_map]
    refine List.map_congr_left fun slot hslot => ?_
    obtain ⟨hp, hpick⟩ := (hmem slot).1 hslot
    simp [hwhat, hp, hpick]
  · constructor
    · intro he
      obtain ⟨i, hi, rfl⟩ := List.mem_map.1 he
      obtain ⟨slot, hslot, rfl⟩ := List.mem_map.1 hi
      obtain ⟨hp, hpick⟩ := (hmem slot).1 hslot
      exact ⟨⟨_, rfl⟩, by simp [hwhat, hp, hpick]⟩
    · rintro ⟨⟨i, rfl⟩, hsome⟩
      rw [hwhat] at hsome
      cases hp : t.pins[i]? with
      | none => simp [hp] at hsome
      | some p =>
        by_cases hpick : pick ⟨i, p⟩ = true
        · exact List.mem_map_of_mem (List.mem_map_of_mem ((hmem ⟨i, p⟩).2 ⟨hp, hpick⟩))
        · simp [hp, hpick] at hsome

/-! ## Warned sessions -/

/-- The chip came to be linked between `s` and `s'`. -/
def Gains (s s' : Session) (a : Nat) : Prop := ¬ s.Linked a ∧ s'.Linked a

theorem Advances.linked_mono {work : Option Nat} (h : Advances work s s') (ha : s.Linked a) :
    s'.Linked a := by
  obtain ⟨ok, hok⟩ := ha
  exact ⟨ok, h.status_linked hok⟩

theorem gains_trans (hl : ∀ a, s.Linked a → s'.Linked a) (hl' : ∀ a, s'.Linked a → s''.Linked a)
    (a : Nat) : s.Gains s'' a ↔ s.Gains s' a ∨ s'.Gains s'' a := by
  have h := hl a
  have h' := hl' a
  unfold Gains
  tauto

/-- Between `s` and `s'` the pin was to be warned of, if it was left open: it is in `own`, or its
chip came to be linked. -/
def Due (own : Set LooseEnd) (s s' : Session) (e : LooseEnd) : Prop :=
  e ∈ own ∨ s.Gains s' e.chip

/-- Between `s` and `s'` each pin that was left open was warned of when it was due, and the chips
that came to be linked linked well. -/
structure Warned (own : Set LooseEnd) (s s' : Session) : Prop where
  told : ∃ ends : List LooseEnd, ends.Nodup ∧
    s'.warnings.map some = s.warnings.map some ++ ends.map s'.warning? ∧
    ∀ e, e ∈ ends ↔ Due own s s' e ∧ (s'.warning? e).isSome
  good : ∀ a, s.Gains s' a → s'.status? a = some (.linked true)

/-- The inputs of a part. -/
def inputsOf (parent index : Nat) : Set LooseEnd := {e | ∃ pin, e = .input parent index pin}

theorem chip_of_mem_inputsOf (h : e ∈ inputsOf parent index) : e.chip = parent := by
  obtain ⟨pin, rfl⟩ := h
  rfl

/-- The inputs of some parts of a chip. -/
def inputsIn (parent : Nat) (indices : List Nat) : Set LooseEnd :=
  {e | ∃ index ∈ indices, e ∈ inputsOf parent index}

theorem inputsIn_nil (parent : Nat) : inputsIn parent [] = ∅ := by
  simp [inputsIn]

theorem inputsIn_cons (parent index : Nat) (indices : List Nat) :
    inputsIn parent (index :: indices) = inputsOf parent index ∪ inputsIn parent indices := by
  ext e
  simp [inputsIn]

theorem chip_of_mem_inputsIn {indices : List Nat} (h : e ∈ inputsIn parent indices) :
    e.chip = parent := by
  obtain ⟨index, -, he⟩ := h
  exact chip_of_mem_inputsOf he

/-- Where no chip comes to be linked, the pins in `own` are all there is to warn of. -/
theorem Warned.of_own (hl : ∀ a, s'.Linked a ↔ s.Linked a) {ends : List LooseEnd}
    (hnodup : ends.Nodup)
    (hw : s'.warnings.map some = s.warnings.map some ++ ends.map s'.warning?)
    (hmem : ∀ e, e ∈ ends ↔ e ∈ own ∧ (s'.warning? e).isSome) : Warned own s s' := by
  have hnone : ∀ a, ¬ s.Gains s' a := fun a ha => ha.1 ((hl a).1 ha.2)
  refine ⟨⟨ends, hnodup, hw, fun e => ?_⟩, fun a ha => absurd ha (hnone a)⟩
  rw [hmem, Due, or_iff_left (hnone e.chip)]

theorem Warned.of_quiet (hl : ∀ a, s'.Linked a ↔ s.Linked a) (hw : s'.warnings = s.warnings) :
    Warned ∅ s s' :=
  .of_own hl .nil (by simp [hw]) (by simp)

theorem due_trans (hl : ∀ a, s.Linked a → s'.Linked a) (hl' : ∀ a, s'.Linked a → s''.Linked a) :
    Due (own ∪ own') s s'' e ↔ Due own s s' e ∨ Due own' s' s'' e := by
  rw [Due, Due, Due, gains_trans hl hl', Set.mem_union]
  exact or_or_or_comm

/-- No pin is due on both ways, if the chips with pins of their own are not done in the end. -/
theorem Due.not_due (h : Due own s s' e) (hl' : ∀ a, s'.Linked a → s''.Linked a)
    (hopen : ∀ e ∈ own ∪ own', ¬ s''.Linked e.chip) (hdisjoint : ∀ e ∈ own, e ∉ own') :
    ¬ Due own' s' s'' e := by
  rintro (hown' | hgain')
  · rcases h with hown | hgain
    · exact hdisjoint e hown hown'
    · exact hopen e (.inr hown') (hl' e.chip hgain.2)
  · rcases h with hown | hgain
    · exact hopen e (.inl hown) hgain'.2
    · exact hgain'.1 hgain.2

/-- **One way after the other.** The chips with pins of their own are not done in the end, and these
pins do not change. -/
theorem Warned.trans {work work' : Option Nat} (h : Warned own s s') (h' : Warned own' s' s'')
    (ha : Advances work s s') (ha' : Advances work' s' s'') (hsound : s'.Sound)
    (hkept : ∀ e ∈ own, s''.warning? e = s'.warning? e)
    (hopen : ∀ e ∈ own ∪ own', ¬ s''.Linked e.chip) (hdisjoint : ∀ e ∈ own, e ∉ own') :
    Warned (own ∪ own') s s'' := by
  obtain ⟨ends, hnodup, hw, hmem⟩ := h.told
  obtain ⟨ends', hnodup', hw', hmem'⟩ := h'.told
  have hl : ∀ a, s.Linked a → s'.Linked a := fun _ => ha.linked_mono
  have hl' : ∀ a, s'.Linked a → s''.Linked a := fun _ => ha'.linked_mono
  have hsame : ∀ e, Due own s s' e → s''.warning? e = s'.warning? e := by
    rintro e (he | he)
    · exact hkept e he
    · exact warning?_of_finished (hsound.finished e.chip (h.good e.chip he)) ha'
  refine ⟨⟨ends ++ ends', ?_, ?_, fun e => ?_⟩, fun a hgain => ?_⟩
  · refine List.nodup_append'.2 ⟨hnodup, hnodup', fun e he he' => ?_⟩
    exact ((hmem e).1 he).1.not_due hl' hopen hdisjoint ((hmem' e).1 he').1
  · have hends : ends.map s''.warning? = ends.map s'.warning? :=
      List.map_congr_left fun e he => hsame e ((hmem e).1 he).1
    rw [hw', hw, List.map_append, hends, List.append_assoc]
  · have hfirst : e ∈ ends ↔ Due own s s' e ∧ (s''.warning? e).isSome := by
      rw [hmem]
      exact and_congr_right fun hdue => by rw [hsame e hdue]
    rw [List.mem_append, hfirst, hmem', due_trans hl hl', or_and_right]
  · rcases (gains_trans hl hl' a).1 hgain with hfirst | hsecond
    · exact ha'.status_linked (h.good a hfirst)
    · exact h'.good a hsecond

/-- A quiet way first. -/
theorem Warned.quiet_trans {work work' : Option Nat} (h : Warned ∅ s s') (h' : Warned own s' s'')
    (ha : Advances work s s') (ha' : Advances work' s' s'') (hsound : s'.Sound)
    (hopen : ∀ e ∈ own, ¬ s''.Linked e.chip) : Warned own s s'' := by
  have hall := h.trans h' ha ha' hsound (fun _ he => he.elim) (fun e he => ?_) fun _ he => he.elim
  · rwa [Set.empty_union] at hall
  · exact hopen e (by rwa [Set.empty_union] at he)

/-- A linker of the chips of parts that warns of all that became loose, if it succeeds. -/
def Warning (linkChild : ChildLinker) : Prop :=
  ∀ child name span s, s.Sound → (linkChild child name span s).1 = true →
    Warned ∅ s (linkChild child name span s).2

/-! ## Parts -/

theorem warnings_reports (s : Session) {α : Type} (xs : List α) (p : α → Problem) (span : α → Span)
    (h : ∀ x, (p x).isLoose = true) :
    (s.emitAll (xs.map fun x => (p x).report (span x))).warnings =
      s.warnings ++ xs.map fun x => (p x).report (span x) := by
  rw [warnings_emitAll, List.filter_eq_self.2 fun d hd => ?_]
  obtain ⟨x, -, rfl⟩ := List.mem_map.1 hd
  rw [Problem.isConnectivity_report, h x]

theorem not_linked_of_inProgress (h : s.status? a = some .inProgress) : ¬ s.Linked a := by
  rintro ⟨ok, hok⟩
  rw [h] at hok
  cases hok

/-- From the making of the wires on, a part that links is warned of its inputs. -/
theorem PartSteps.warns {part : Part} {ok : Bool} {wires : List (Option Wire)}
    {s₁ s₂ s₃ s₄ : Session}
    (h : PartSteps linkChild parent index s part child s₁ ok s₂ wires s₃ true s₄)
    (hl : Links linkChild) (hs : s.status? parent = some .inProgress) :
    Warned (inputsOf parent index) s₂
      (s₄.setLink parent index ⟨child, wires.filterMap id⟩) := by
  have hset := h.advances_setLink hl hs ⟨child, wires.filterMap id⟩
  have hpart : (s₄.setLink parent index ⟨child, wires.filterMap id⟩).part? parent index =
      some { part with link := some ⟨child, wires.filterMap id⟩ } :=
    (part?_setLink (h.found_warned hl hs) _ index).trans (if_pos rfl)
  -- the chip of the part is linked before the wires are made, and so it stays as it is
  have hstatus : s₃.status? child = some (.linked true) := by
    have hchild := hl.linked child part.chip part.span s₁
    rw [h.linked] at hchild
    exact (h.connects hl hs).status_linked (hchild (Bool.and_eq_true_iff.1 h.verdict).1)
  obtain ⟨d, hd⟩ := exists_definition_of_status hstatus
  have hdef : (s₄.setLink parent index ⟨child, wires.filterMap id⟩).definition? child = some d := by
    rw [hset.definition?_linked (h.advances_warned.status_linked hstatus),
      h.advances_warned.definition?_linked hstatus, hd]
  obtain ⟨ends, hnodup, hends, hmem⟩ :=
    exists_ends d.pinTable (rfl : unfed d (wires.filterMap id) = _)
      (fun p => (Problem.unconnected p.name d.name).report part.span)
      (fun i j hij => (LooseEnd.input.inj hij).2.2) (warning?_input hpart rfl hdef)
  refine .of_own (fun a => ?_) hnodup ?_ hmem
  · have hlink : (s₄.setLink parent index ⟨child, wires.filterMap id⟩).Linked a ↔ s₄.Linked a := by
      rw [Linked, Linked, status?_setLink]
    exact hlink.trans ((h.paces hl hs).errands.calm.linked_iff a)
  · have hquiet := warnings_connectAll s₂ parent child part.connections
    rw [h.connected] at hquiet
    have hwarned : s₄.warnings = s₃.warnings ++ (unfed d (wires.filterMap id)).map
        fun p => (Problem.unconnected p.name d.name).report part.span := by
      rw [h.warned, if_pos rfl, warnUnfed, hd, Option.getD_some]
      exact warnings_reports s₃ _ _ (fun _ => part.span) fun _ => rfl
    have hset : (s₄.setLink parent index ⟨child, wires.filterMap id⟩).warnings = s₄.warnings := rfl
    rw [hset, hwarned, hquiet, List.map_append, hends]

/-- **A part that links is warned of**, and so is all that its chip brings along. -/
theorem warned_linkPart (hl : Links linkChild) (hw : Warning linkChild) (hsound : s.Sound)
    (hs : s.status? parent = some .inProgress)
    (hok : (linkPart linkChild parent index s).1 = true) :
    Warned (inputsOf parent index) s (linkPart linkChild parent index s).2 := by
  have hrun := partRun_linkPart linkChild parent index s
  generalize linkPart linkChild parent index s = r at hrun hok ⊢
  cases hrun with
  | absent => cases hok
  | unresolved => cases hok
  | @steps part child ok good wires s₁ s₂ s₃ s₄ h =>
    obtain rfl : good = true := hok
    have hfirst := advances_of_resolve h.resolved
    have hlinked := hl.advances child part.chip part.span s₁
    have hchild := hw child part.chip part.span s₁ (hfirst.sound hsound)
    have hquiet := warnings_resolve s part.chip part.span
    rw [h.linked] at hlinked hchild
    rw [h.resolved] at hquiet
    have hsearch : Warned ∅ s s₁ :=
      .of_quiet (errands_of_resolve h.resolved).calm.linked_iff hquiet
    have hinner : Warned ∅ s s₂ :=
      hsearch.quiet_trans (hchild (Bool.and_eq_true_iff.1 h.verdict).1) hfirst hlinked
        (hfirst.sound hsound) fun _ he => he.elim
    have hwired := (h.connects hl hs).toAdvances
    have hset := h.advances_setLink hl hs ⟨child, wires.filterMap id⟩
    have hrest := (hwired.trans h.advances_warned.of_none).trans hset
    refine hinner.quiet_trans (h.warns hl hs) (h.advances hl) hrest
      ((h.advances hl).sound hsound) fun e he => ?_
    rw [chip_of_mem_inputsOf he]
    exact not_linked_of_inProgress (hrest.status_inProgress (h.inProgress hl hs))

theorem warned_linkParts (hl : Links linkChild) (hw : Warning linkChild) {indices : List Nat}
    (hn : indices.Nodup) (hsound : s.Sound) (hs : s.status? parent = some .inProgress)
    (hok : (linkParts linkChild parent indices s).1 = true) :
    Warned (inputsIn parent indices) s (linkParts linkChild parent indices s).2 := by
  induction indices generalizing s with
  | nil =>
    rw [inputsIn_nil]
    exact .of_quiet (fun _ => Iff.rfl) rfl
  | cons index indices ih =>
    obtain ⟨hfresh, hn'⟩ := List.nodup_cons.1 hn
    obtain ⟨hfirst, hrest⟩ := Bool.and_eq_true_iff.1 hok
    have hstep := linksPart_linkPart hl index hs
    have hs' := hstep.advances.status_inProgress hs
    have hsound' := hstep.advances.sound hsound
    obtain ⟨ha, hothers, -⟩ := linkParts_spec hl hn' hs'
    rw [inputsIn_cons]
    refine (warned_linkPart hl hw hsound hs hfirst).trans (ih hn' hsound' hs' hrest) hstep.advances
      ha hsound' ?_ (fun e he => ?_) ?_
    · -- the first part stays as it is while the others are linked
      rintro e ⟨pin, rfl⟩
      exact warning?_of_partLinked (hstep.linked hfirst) ha (hothers index hfresh) pin
    · have hchip : e.chip = parent := by
        exact he.elim chip_of_mem_inputsOf chip_of_mem_inputsIn
      rw [hchip]
      exact not_linked_of_inProgress (ha.status_inProgress hs')
    · rintro e ⟨pin, rfl⟩ ⟨i, hi, pin', he⟩
      obtain ⟨-, rfl, -⟩ := LooseEnd.input.inj he
      exact hfresh hi

/-! ## Chips -/

/-- The outputs and nets of a chip. -/
def netsOf (chip : Nat) : Set LooseEnd := {e | ∃ pin, e = .net chip pin}

/-- A chip in progress is warned of its own pins. -/
theorem warned_warnUndriven {d : Definition} (hd : s.definition? a = some d) (hg : d.gate = none) :
    Warned (netsOf a) s (s.warnUndriven a) := by
  have hd' : (s.warnUndriven a).definition? a = some d := hd
  obtain ⟨ends, hnodup, hends, hmem⟩ := exists_ends d.pinTable (rfl : undriven d = _)
    (fun p => (Problem.undriven p.name p.kind d.name).report p.span)
    (fun i j hij => (LooseEnd.net.inj hij).2) (warning?_net hd' hg)
  have hwarned : (s.warnUndriven a).warnings = s.warnings ++ (undriven d).map
      fun p => (Problem.undriven p.name p.kind d.name).report p.span := by
    rw [warnUndriven, hd, Option.getD_some]
    exact warnings_reports s _ _ _ fun _ => rfl
  refine .of_own (fun _ => Iff.rfl) hnodup ?_ hmem
  rw [hwarned, List.map_append, hends]

/-- There is nothing to warn of in a gate. -/
theorem warning?_gate (h : s.Sound) {d : Definition} (hd : s.definition? e.chip = some d)
    (hg : d.gate.isSome) : s.warning? e = none := by
  obtain ⟨g, hg⟩ := Option.isSome_iff_exists.1 hg
  cases e with
  | net chip pin =>
    have hd' : s.definition? chip = some d := hd
    simp [warning?, hd', hg]
  | input chip part pin =>
    have hd' : s.definition? chip = some d := hd
    simp [warning?, part?, hd', ((h.sane_definition hd).gate g hg).2]

/-- **A chip is done**: all there is to warn of in it has been warned of. -/
theorem Warned.close {id : Nat} (h : Warned own s s') (hs : s.status? id = some .unlinked)
    {status : LinkStatus} (hin : s'.status? id = some status) (hown : ∀ e ∈ own, e.chip = id)
    (hall : ∀ e, e.chip = id → (s'.warning? e).isSome → e ∈ own) :
    Warned ∅ s (s'.setStatus id (.linked true)) := by
  obtain ⟨ends, hnodup, hw, hmem⟩ := h.told
  have hsame := warning?_congr (definition?_setStatus s' id (.linked true))
  have hgains : ∀ a, s.Gains (s'.setStatus id (.linked true)) a ↔ a = id ∨ s.Gains s' a := by
    intro a
    rw [Gains, Gains, linked_setStatus_iff hin]
    by_cases ha : id = a
    · subst ha
      simp [Linked, hs]
    · simp [ha, Ne.symm ha]
  refine ⟨⟨ends, hnodup, ?_, fun e => ?_⟩, fun a ha => ?_⟩
  · rw [List.map_congr_left fun e _ => hsame e]
    exact hw
  · rw [hmem, Due, Due, hgains, hsame]
    constructor
    · rintro ⟨he | he, hsome⟩
      · exact ⟨.inr (.inl (hown e he)), hsome⟩
      · exact ⟨.inr (.inr he), hsome⟩
    · rintro ⟨he | he | he, hsome⟩
      · exact he.elim
      · exact ⟨.inl (hall e he hsome), hsome⟩
      · exact ⟨.inr he, hsome⟩
  · rw [status?_setStatus_eq]
    split
    · next he => rw [← he, hin]; rfl
    · next he => exact h.good a (((hgains a).1 ha).resolve_left (Ne.symm he))

/-- To start a chip links none. -/
theorem linked_start_iff {id : Nat} (hs : s.status? id = some .unlinked) (a : Nat) :
    (s.setStatus id .inProgress).Linked a ↔ s.Linked a := by
  rw [linked_setStatus_iff hs]
  split
  · next he =>
    subst he
    simp [Linked, hs]
  · rfl

/-- Of inputs there is something to say only where there is a part. -/
theorem exists_part_of_warning? {pin : Nat} (h : (s.warning? (.input a index pin)).isSome) :
    ∃ q, s.part? a index = some q := by
  cases hq : s.part? a index with
  | some q => exact ⟨q, rfl⟩
  | none => simp [warning?, hq] at h

/-- **The loose ends of a chip** are among its nets and the inputs of its parts. -/
theorem mem_of_warning? {id : Nat} {d : Definition} (hd : s.definition? id = some d)
    (hchip : e.chip = id) (hsome : (s.warning? e).isSome) :
    e ∈ inputsIn id (List.range d.parts.size) ∪ netsOf id := by
  cases e with
  | net chip pin => exact .inr ⟨pin, congrArg (LooseEnd.net · pin) hchip⟩
  | input chip index pin =>
    obtain rfl : chip = id := hchip
    obtain ⟨q, hq⟩ := exists_part_of_warning? hsome
    obtain ⟨d', hd', hi⟩ := definition?_of_part? hq
    obtain rfl : d = d' := Option.some.inj (hd.symm.trans hd')
    have hlt := (Array.getElem?_eq_some_iff.1 hi).1
    exact .inl ⟨index, List.mem_range.2 hlt, pin, rfl⟩

/-- A chip whose parts were linked well is warned of its own pins, and is done. -/
theorem warned_finish {d : Definition} {id : Nat} {s₁ : Session}
    (hs : s.status? id = some .unlinked) (hd : s.definition? id = some d) (hg : d.gate = none)
    (hstep : Advances (some id) (s.setStatus id .inProgress) s₁) (hsound : s.Sound)
    (hparts : Warned (inputsIn id (List.range d.parts.size)) (s.setStatus id .inProgress) s₁) :
    Warned ∅ s ((s₁.warnUndriven id).setStatus id (.linked true)) := by
  have hstart := advances_start hs
  have hsound₀ := hstart.sound hsound
  have hin₁ : s₁.status? id = some .inProgress := by
    obtain ⟨entry, he, -⟩ := status?_eq_some_iff.1 hs
    exact hstep.status_inProgress (status?_setStatus he _)
  have hin₂ : (s₁.warnUndriven id).status? id = some .inProgress := hin₁
  obtain ⟨d₁, hd₁, hgrows⟩ := hstep.definition? ((definition?_setStatus s id _ id).trans hd)
  have hchip : ∀ e ∈ inputsIn id (List.range d.parts.size) ∪ netsOf id, e.chip = id := by
    rintro e (he | ⟨pin, rfl⟩)
    · exact chip_of_mem_inputsIn he
    · rfl
  have hstarted : Warned ∅ s (s.setStatus id .inProgress) :=
    .of_quiet (linked_start_iff hs) rfl
  have h₁ := hstarted.quiet_trans hparts hstart hstep hsound₀
    fun e he => chip_of_mem_inputsIn he ▸ not_linked_of_inProgress hin₁
  have hopen : ∀ e ∈ inputsIn id (List.range d.parts.size) ∪ netsOf id,
      ¬ (s₁.warnUndriven id).Linked e.chip := by
    intro e he
    rw [hchip e he]
    exact not_linked_of_inProgress hin₂
  have h₂ := h₁.trans (warned_warnUndriven hd₁ (hgrows.gate.trans hg)) (hstart.of_none.trans hstep)
    (advances_emitAll s₁ _ none) (hstep.sound hsound₀) (fun e _ => warning?_congr (fun _ => rfl) e)
    hopen ?_
  · refine h₂.close hs hin₂ hchip fun e he hsome => ?_
    rw [← hgrows.size_parts]
    exact mem_of_warning? hd₁ he hsome
  · rintro e ⟨i, -, pin, rfl⟩ ⟨pin', he⟩
    cases he

/-- **A chip that links is warned of**, and so are the chips inside it that were not linked. -/
theorem warned_linkFresh (hl : Links linkChild) (hw : Warning linkChild) (hsound : s.Sound)
    {id : Nat} (hs : s.status? id = some .unlinked)
    (hok : (linkFresh linkChild id s).1 = true) :
    Warned ∅ s (linkFresh linkChild id s).2 := by
  obtain ⟨entry, he, -⟩ := status?_eq_some_iff.1 hs
  have hrun := freshRun_linkFresh linkChild hs
  generalize linkFresh linkChild id s = r at hrun hok ⊢
  cases hrun with
  | gate found gate =>
    have hrefl : Warned ∅ s s := .of_quiet (fun _ => Iff.rfl) rfl
    refine hrefl.close hs hs (fun _ he => he.elim) fun e hchip hsome => ?_
    rw [warning?_gate hsound (hchip ▸ found) gate] at hsome
    cases hsome
  | @parts d ok s₁ s₂ found composite run warned =>
    obtain rfl : ok = true := hok
    have hin : (s.setStatus id .inProgress).status? id = some .inProgress :=
      status?_setStatus he _
    have hrange := @List.nodup_range d.parts.size
    have hstep := (linkParts_spec hl hrange hin).1
    have hparts := warned_linkParts hl hw hrange ((advances_start hs).sound hsound) hin
    rw [run] at hparts hstep
    rw [if_pos rfl] at warned
    subst warned
    exact warned_finish hs found composite hstep hsound (hparts rfl)

theorem warning_linkWithin (depth : Nat) : Warning (linkWithin depth) := by
  induction depth with
  | zero =>
    intro child name span s _ hok
    cases hok
  | succ depth ih =>
    intro child name span s hsound hok
    unfold linkWithin at hok ⊢
    split
    · exact .of_quiet (fun _ => Iff.rfl) rfl
    · next hs =>
      rw [hs] at hok
      exact warned_linkFresh (links_linkWithin depth) ih hsound hs hok
    · next hne hne' =>
      split at hok
      · next h => exact absurd h (hne _)
      · next h => exact absurd h hne'
      · cases hok

theorem warned_link (hsound : s.Sound) {id : Nat} (hok : (s.link id).1 = true) :
    Warned ∅ s (s.link id).2 := by
  unfold link at hok ⊢
  split
  · exact .of_quiet (fun _ => Iff.rfl) rfl
  · next hs =>
    rw [hs] at hok
    exact warned_linkFresh (links_linkWithin _) (warning_linkWithin _) hsound hs hok
  · exact .of_quiet (fun _ => Iff.rfl) rfl

/-! ## Links -/

/-- Where there is something to warn of, there is a chip with parts. -/
theorem composite_of_warning? (h : s.Sound) (hsome : (s.warning? e).isSome) :
    ∃ d, s.definition? e.chip = some d ∧ d.gate = none := by
  cases hd : s.definition? e.chip with
  | none =>
    cases e with
    | net chip pin =>
      have hd' : s.definition? chip = none := hd
      simp [warning?, hd'] at hsome
    | input chip part pin =>
      have hd' : s.definition? chip = none := hd
      simp [warning?, part?, hd'] at hsome
  | some d =>
    refine ⟨d, rfl, ?_⟩
    by_contra hg
    rw [warning?_gate h hd (Option.isSome_iff_ne_none.2 hg)] at hsome
    cases hsome

theorem mem_decided_iff_gains {d : Definition} (hd : s'.definition? a = some d)
    (hg : d.gate = none) : a ∈ s.decided s' ↔ s.Gains s' a := by
  have hlt : a < s'.chips.size := by
    obtain ⟨entry, he, -⟩ := definition?_eq_some_iff.1 hd
    exact (Array.getElem?_eq_some_iff.1 he).1
  rw [decided, Finset.mem_filter, Finset.mem_range, Gains, linked_iff_linkResult?,
    linked_iff_linkResult?, not_not, Option.isSome_iff_ne_none]
  simp [hlt, hd, hg]

/-- **Warnings are exact.** A link that succeeds warns of each output and net that no wire drives,
and of each input of a part that no wire feeds, in the chips with parts that it decides: of each of
them once, however often its chip is a part, and of nothing else. -/
theorem Reachable.warns_exactly (h : s.Reachable) {id : Nat} (hok : (s.link id).1 = true) :
    let s' := (s.link id).2
    ∃ ends : List LooseEnd, ends.Nodup ∧
      (∀ e, e ∈ ends ↔ e.chip ∈ s.decided s' ∧ (s'.warning? e).isSome) ∧
      ((s.news s').filter Diagnostic.isConnectivity).map some = ends.map s'.warning? := by
  intro s'
  have hsound' : s'.Sound := (advances_link s id).sound h.sound
  obtain ⟨⟨ends, hnodup, hw, hmem⟩, -⟩ := warned_link h.sound hok
  obtain ⟨new, hnew⟩ := (advances_link s id).log
  have hwarnings : s'.warnings = s.warnings ++ new.filter Diagnostic.isConnectivity := by
    rw [warnings, ← hnew, List.filter_append]
    rfl
  refine ⟨ends, hnodup, fun e => ?_, ?_⟩
  · rw [hmem]
    refine and_congr_left fun hsome => ?_
    obtain ⟨d, hd, hg⟩ := composite_of_warning? hsound' hsome
    rw [mem_decided_iff_gains hd hg]
    exact or_iff_right (Set.notMem_empty e)
  · rw [news_eq hnew.symm]
    rw [hwarnings, List.map_append] at hw
    exact List.append_cancel_left hw

/-- The chip `K` has a net that nothing drives and a gate with an open input, and it is a part
twice, with another input left open each time. The output `z` comes from nowhere. -/
def dangling : Session :=
  Session.after { disk := .empty }
    [.addSource "T.hdl" ("CHIP K\x7bIN a,b;OUT y;PARTS:Not(in=a,out=y);And(a=n,out=q);\x7d" ++
      "CHIP T\x7bIN x;OUT y,z;PARTS:K(a=x,y=y);K(b=x,y=m);\x7d")]

theorem Reachable.warns_exactly_dangling :
    let s' := (dangling.link 1).2
    (dangling.link 1).1 = true ∧ dangling.decided s' = ({0, 1} : Finset Nat) ∧
      ((dangling.news s').filter Diagnostic.isConnectivity).map (·.code.number) =
        [201, 200, 201, 201, 200] ∧
      ∃ ends : List LooseEnd, ends.Nodup ∧ ends.length = 5 ∧ .net 0 3 ∈ ends ∧
        .input 0 1 1 ∈ ends ∧ .input 1 0 1 ∈ ends ∧ .input 1 1 0 ∈ ends ∧ .net 1 2 ∈ ends ∧
        .net 1 1 ∉ ends ∧ .input 1 0 0 ∉ ends := by
  intro s'
  have hruns : (dangling.link 1).1 = true ∧ dangling.decided s' = ({0, 1} : Finset Nat) ∧
      ((dangling.news s').filter Diagnostic.isConnectivity).map (·.code.number) =
        [201, 200, 201, 201, 200] ∧
      [LooseEnd.net 0 3, .input 0 1 1, .input 1 0 1, .input 1 1 0, .net 1 2, .net 1 1,
        .input 1 0 0].map (fun e => (s'.warning? e).isSome) =
          [true, true, true, true, true, false, false] := by
    decide +kernel
  obtain ⟨hok, hdecided, hcodes, hends⟩ := hruns
  have hreach : dangling.Reachable := reachable_after .empty none _
  obtain ⟨ends, hnodup, hmem, htold⟩ := hreach.warns_exactly hok
  have hlength := congrArg List.length htold
  have hcount := congrArg List.length hcodes
  simp only [List.length_map] at hlength hcount
  have hin : ∀ e : LooseEnd, e ∈ ends ↔ e.chip ∈ ({0, 1} : Finset Nat) ∧ (s'.warning? e).isSome :=
    fun e => hdecided ▸ hmem e
  simp only [List.map_cons, List.map_nil, List.cons.injEq, and_true] at hends
  refine ⟨hok, hdecided, hcodes, ends, hnodup, hlength.symm.trans hcount, ?_⟩
  simp only [hin, hends]
  decide

end Session

end ChipLogic
