import ChipLogic.Proofs.Session.Connect
import ChipLogic.Session.Link

/-!
# Linking finishes chips

A chip that links well is finished (`Session.Finished`). The proof follows the walk:

* a part is linked in some steps (`Session.PartRun`), and all of them but the last leave the parts
  of the chip around it alone (`Session.PartSteps.connects_warned`);
* linking a part sets its link and leaves the other parts alone (`Session.LinksPart`); if it goes
  well, the part's chip is linked and all its wires fit (`Session.PartLinked`);
* that stays so while the other parts are linked, since the part's chip does not change any more and
  the chip around it only gets pins (`Session.PartLinked.mono`);
* so a chip whose parts all link well may be marked as linked (`Session.finished_of_parts`).

The induction is on the depth to which parts are followed. All the rest of the session is left alone
(`Session.Advances none`): what was linked or in progress before does not change.
-/

namespace ChipLogic

namespace Session

variable {s s' : Session} {parent child : Nat}

/-! ## Parts -/

/-- A part whose chip is linked and whose wires fit. -/
def PartLinked (s : Session) (parent index : Nat) : Prop :=
  ∃ p link, s.part? parent index = some p ∧ p.link = some link ∧
    s.status? link.chip = some (.linked true) ∧ ∀ w ∈ link.wires, s.WireFits parent link.chip w

theorem PartLinked.mono {work : Option Nat} {index : Nat} (h : s.PartLinked parent index)
    (ha : Advances work s s') (hp : s'.part? parent index = s.part? parent index) :
    s'.PartLinked parent index := by
  obtain ⟨p, link, hpart, hlink, hs, hw⟩ := h
  exact ⟨p, link, hp.trans hpart, hlink, ha.status_linked hs, fun w hm => (hw w hm).mono ha⟩

/-- What is asked of a linker of the chips of parts. -/
structure Links (linkChild : ChildLinker) : Prop where
  advances : ∀ child name span s, Advances none s (linkChild child name span s).2
  linked : ∀ child name span s, (linkChild child name span s).1 = true →
    (linkChild child name span s).2.status? child = some (.linked true)

/-- The outcome of linking the part at `index` of the chip in progress. -/
structure LinksPart (parent index : Nat) (s : Session) (r : Bool × Session) : Prop where
  advances : Advances (some parent) s r.2
  others : ∀ i, i ≠ index → r.2.part? parent i = s.part? parent i
  linked : r.1 = true → r.2.PartLinked parent index

theorem definition?_of_part? {index : Nat} {p : Part} (h : s.part? parent index = some p) :
    ∃ d, s.definition? parent = some d ∧ d.parts[index]? = some p :=
  Option.bind_eq_some_iff.1 h

/-- Setting the link of a part of the chip in progress. -/
theorem advances_setLink (hs : s.status? parent = some .inProgress) {index : Nat} {p : Part}
    (hp : s.part? parent index = some p) (link : Link) :
    Advances (some parent) s (s.setLink parent index link) := by
  obtain ⟨d, hd, hi⟩ := definition?_of_part? hp
  exact advances_modifyDefinition hd hs (.setLink d index link) fun h => h.setLink index link

theorem part?_setLink {index : Nat} {p : Part} (hp : s.part? parent index = some p) (link : Link)
    (i : Nat) : (s.setLink parent index link).part? parent i =
      if index = i then some { p with link := some link } else s.part? parent i := by
  obtain ⟨d, hd, hi⟩ := definition?_of_part? hp
  rw [part?, setLink, definition?_modifyDefinition hd, Option.bind_some, d.parts_setLink,
    getElem?_modify_eq hi, part?, hd, Option.bind_some]

/-! ### The steps -/

/-- The steps of linking a part whose chip is found: `s₁` comes after the search for the chip, `s₂`
after the linking of the chip, `s₃` after the making of the wires, and `s₄` after the warnings. -/
structure PartSteps (linkChild : ChildLinker) (parent index : Nat) (s : Session) (part : Part)
    (child : Nat) (s₁ : Session) (ok : Bool) (s₂ : Session) (wires : List (Option Wire))
    (s₃ : Session) (good : Bool) (s₄ : Session) : Prop where
  found : s.part? parent index = some part
  resolved : s.resolve part.chip part.span = (some child, s₁)
  linked : linkChild child part.chip part.span s₁ = (ok, s₂)
  connected : s₂.connectAll parent child part.connections = (wires, s₃)
  verdict : (ok && wires.all Option.isSome) = good
  warned : s₄ = if good then s₃.warnUnfed child (wires.filterMap id) part.span else s₃

/-- How linking a part goes. -/
inductive PartRun (linkChild : ChildLinker) (parent index : Nat) (s : Session) :
    Bool × Session → Prop
  | absent (missing : s.part? parent index = none) : PartRun linkChild parent index s (false, s)
  | unresolved {part : Part} {s₁ : Session} (found : s.part? parent index = some part)
      (resolved : s.resolve part.chip part.span = (none, s₁)) :
      PartRun linkChild parent index s (false, s₁)
  | steps {part : Part} {child : Nat} {ok good : Bool} {wires : List (Option Wire)}
      {s₁ s₂ s₃ s₄ : Session}
      (steps : PartSteps linkChild parent index s part child s₁ ok s₂ wires s₃ good s₄) :
      PartRun linkChild parent index s (good, s₄.setLink parent index ⟨child, wires.filterMap id⟩)

theorem partRun_linkPart (linkChild : ChildLinker) (parent index : Nat) (s : Session) :
    PartRun linkChild parent index s (linkPart linkChild parent index s) := by
  unfold linkPart
  split
  · next hpart => exact .absent hpart
  · next part hpart =>
    cases hr : s.resolve part.chip part.span with
    | mk found s₁ =>
      cases found with
      | none => exact .unresolved hpart hr
      | some child => exact .steps ⟨hpart, hr, rfl, rfl, rfl, rfl⟩

theorem advances_of_resolve {name : String} {span : Span} {found : Option Nat}
    (h : s.resolve name span = (found, s')) : Advances none s s' := by
  have hr := advances_resolve s name span none
  rwa [h] at hr

namespace PartSteps

variable {linkChild : ChildLinker} {index : Nat} {part : Part} {ok good : Bool}
  {wires : List (Option Wire)} {s₁ s₂ s₃ s₄ : Session}
  (h : PartSteps linkChild parent index s part child s₁ ok s₂ wires s₃ good s₄)

include h

/-- Nothing in progress is touched while the chip of the part is linked. -/
theorem advances (hl : Links linkChild) : Advances none s s₂ := by
  have hc := hl.advances child part.chip part.span s₁
  rw [h.linked] at hc
  exact (advances_of_resolve h.resolved).trans hc

theorem advances_warned : Advances none s₃ s₄ := by
  rw [h.warned]
  split
  · exact advances_emitAll s₃ _ none
  · exact .refl none s₃

variable (hl : Links linkChild) (hs : s.status? parent = some .inProgress)

include hl hs

theorem inProgress : s₂.status? parent = some .inProgress := (h.advances hl).status_inProgress hs

theorem connects : Connects parent s₂ s₃ := by
  have hw := connects_connectAll child (h.inProgress hl hs) part.connections
  rwa [h.connected] at hw

/-- The parts are left alone up to the end. -/
theorem connects_warned : Connects parent s s₄ := by
  have h₃ := (Connects.of_none hs (h.advances hl)).trans (h.connects hl hs)
  exact h₃.trans (.of_none (h₃.status_inProgress hs) h.advances_warned)

theorem found_warned : s₄.part? parent index = some part :=
  ((h.connects_warned hl hs).parts index).trans h.found

theorem advances_setLink (link : Link) :
    Advances (some parent) s₄ (s₄.setLink parent index link) :=
  Session.advances_setLink ((h.connects_warned hl hs).status_inProgress hs)
    (h.found_warned hl hs) link

end PartSteps

/-- **Linking a part.** -/
theorem linksPart_linkPart {linkChild : ChildLinker} (hl : Links linkChild) (index : Nat)
    (hs : s.status? parent = some .inProgress) :
    LinksPart parent index s (linkPart linkChild parent index s) := by
  have hrun := partRun_linkPart linkChild parent index s
  generalize linkPart linkChild parent index s = r at hrun ⊢
  cases hrun with
  | absent => exact ⟨.refl _ s, fun i _ => rfl, nofun⟩
  | unresolved hpart hr =>
    have hr := advances_of_resolve hr
    exact ⟨hr.of_none, fun i _ => (Connects.of_none hs hr).parts i, nofun⟩
  | @steps part child ok good wires s₁ s₂ s₃ s₄ h =>
    have h₄ := h.connects_warned hl hs
    have hset := h.advances_setLink hl hs ⟨child, wires.filterMap id⟩
    have hparts := part?_setLink (h.found_warned hl hs) ⟨child, wires.filterMap id⟩
    refine ⟨h₄.toAdvances.trans hset, fun i hi => ?_, fun hgood => ?_⟩
    · rw [hparts, if_neg (Ne.symm hi)]
      exact h₄.parts i
    · rw [← h.verdict, Bool.and_eq_true] at hgood
      refine ⟨_, _, (hparts index).trans (if_pos rfl), rfl, ?_, fun w hm => ?_⟩
      · have hchild := hl.linked child part.chip part.span s₁
        rw [h.linked] at hchild
        have hwired := (h.connects hl hs).status_linked (hchild hgood.1)
        exact hset.status_linked (h.advances_warned.status_linked hwired)
      · obtain ⟨w', hm', hw'⟩ := List.mem_filterMap.1 hm
        have hfit := @fits_of_connectAll s₂ parent child (h.inProgress hl hs) part.connections w
        rw [h.connected] at hfit
        exact ((hfit (by rw [← hw']; exact hm')).mono h.advances_warned).mono hset

/-- The parts at several positions, one after the other. -/
theorem linkParts_spec {linkChild : ChildLinker} (hl : Links linkChild) {indices : List Nat}
    (hn : indices.Nodup) (hs : s.status? parent = some .inProgress) :
    Advances (some parent) s (linkParts linkChild parent indices s).2 ∧
      (∀ i, i ∉ indices → (linkParts linkChild parent indices s).2.part? parent i =
        s.part? parent i) ∧
      ((linkParts linkChild parent indices s).1 = true →
        ∀ i ∈ indices, (linkParts linkChild parent indices s).2.PartLinked parent i) := by
  induction indices generalizing s with
  | nil => exact ⟨.refl _ s, fun i _ => rfl, fun _ i hi => by cases hi⟩
  | cons index indices ih =>
    obtain ⟨hfresh, hn'⟩ := List.nodup_cons.1 hn
    have hp := linksPart_linkPart hl index hs
    obtain ⟨ha, ho, hk⟩ := ih hn' (hp.advances.status_inProgress hs)
    unfold linkParts
    refine ⟨hp.advances.trans ha, fun i hi => ?_, fun hok i hi => ?_⟩
    · rw [List.mem_cons, not_or] at hi
      exact (ho i hi.2).trans (hp.others i hi.1)
    · rw [Bool.and_eq_true] at hok
      rcases List.mem_cons.1 hi with rfl | hi
      · exact (hp.linked hok.1).mono ha (ho i hfresh)
      · exact hk hok.2 i hi

/-! ## Chips -/

/-- How linking a chip that was not linked before goes: a gate is marked as linked, and other chips
are linked part by part. -/
inductive FreshRun (linkChild : ChildLinker) (id : Nat) (s : Session) : Bool × Session → Prop
  | gate {d : Definition} (found : s.definition? id = some d) (gate : d.gate.isSome) :
      FreshRun linkChild id s (true, s.setStatus id (.linked true))
  | parts {d : Definition} {ok : Bool} {s₁ s₂ : Session} (found : s.definition? id = some d)
      (composite : d.gate = none)
      (run : linkParts linkChild id (List.range d.parts.size) (s.setStatus id .inProgress) =
        (ok, s₁))
      (warned : s₂ = if ok then s₁.warnUndriven id else s₁) :
      FreshRun linkChild id s (ok, s₂.setStatus id (.linked ok))

theorem freshRun_linkFresh (linkChild : ChildLinker) {id : Nat}
    (hs : s.status? id = some .unlinked) :
    FreshRun linkChild id s (linkFresh linkChild id s) := by
  obtain ⟨e, he, -⟩ := status?_eq_some_iff.1 hs
  have hd := definition?_of_entry he
  unfold linkFresh
  rw [hd, Option.getD_some]
  dsimp only
  split
  · next hg => exact .gate hd hg
  · next hg => exact .parts hd (by simpa using hg) rfl rfl

theorem advances_warned {ok : Bool} {id : Nat} {s₁ s₂ : Session}
    (warned : s₂ = if ok then s₁.warnUndriven id else s₁) : Advances none s₁ s₂ := by
  rw [warned]
  split
  · exact advances_emitAll s₁ _ _
  · exact .refl _ s₁

/-- A chip whose parts are all linked is finished once it is marked so. -/
theorem finished_of_parts {id : Nat} {e : Entry} (hs : s.Sound) (he : s.chips[id]? = some e)
    (hst : e.status = .inProgress)
    (hp : ∀ i < e.definition.parts.size, s.PartLinked id i) :
    (s.setStatus id (.linked true)).Finished id := by
  have hget : ∀ j, (s.setStatus id (.linked true)).chips[j]? =
      if id = j then some { e with status := .linked true } else s.chips[j]? := by
    rw [chips_setStatus]
    exact getElem?_modify_eq he
  have hlinked : ∀ p ∈ e.definition.parts, ∃ link, p.link = some link ∧
      s.status? link.chip = some (.linked true) ∧ ∀ w ∈ link.wires, s.WireFits id link.chip w := by
    intro p hm
    obtain ⟨i, hi⟩ := Array.mem_iff_getElem?.1 hm
    obtain ⟨hlt, -⟩ := Array.getElem?_eq_some_iff.1 hi
    obtain ⟨p', link, hpart, hlink⟩ := hp i hlt
    rw [part?, definition?_of_entry he, Option.bind_some, hi, Option.some.injEq] at hpart
    exact ⟨link, hpart ▸ hlink⟩
  refine .intro (by rw [hget, if_pos rfl]) rfl (fun p hm => ?_) fun p hm link hlink => ?_
  · obtain ⟨link, hlink, hstatus, hw⟩ := hlinked p hm
    obtain ⟨c, hc, -⟩ := status?_eq_some_iff.1 hstatus
    have hd := definition?_of_entry hc
    refine ⟨link, c.definition, hlink, hd, fun w hwm => ?_⟩
    obtain ⟨inner, outer, hin, hout, hfit⟩ := hw w hwm
    rw [hd] at hin
    rw [definition?_of_entry he] at hout
    cases hin
    cases hout
    exact hfit
  · obtain ⟨link', hlink', hstatus, -⟩ := hlinked p hm
    rw [hlink, Option.some.injEq] at hlink'
    subst hlink'
    refine (hs.finished _ hstatus).mono fun j hj => ?_
    rw [hget]
    split
    · next hij =>
      subst hij
      rw [status?_of_entry he, hst] at hj
      cases hj
    · rfl

theorem status?_setStatus {id : Nat} {e : Entry} (he : s.chips[id]? = some e)
    (status : LinkStatus) : (s.setStatus id status).status? id = some status := by
  rw [status?_eq, chips_setStatus, getElem?_modify_eq he, if_pos rfl]
  rfl

/-- Marking the chip in progress as linked, seen from the session in which it was unlinked. -/
theorem Advances.finish {id : Nat} {ok : Bool} (hs : s.status? id = some .unlinked)
    (h : Advances (some id) s s') (hin : s'.status? id = some .inProgress)
    (hok : ok = true → s'.Sound → (s'.setStatus id (.linked true)).Finished id) :
    Advances none s (s'.setStatus id (.linked ok)) where
  disk := h.disk
  library := h.library
  log := h.log
  candid := h.candid
  chips j e he := by
    obtain ⟨e', he', hk⟩ := h.chips j e he
    obtain ⟨c, hc, hcs⟩ := status?_eq_some_iff.1 hin
    rw [chips_setStatus, getElem?_modify_eq hc]
    by_cases hj : id = j
    · subst hj
      rw [hc] at he'
      cases he'
      rw [status?_eq, he, Option.map_some, Option.some.injEq] at hs
      exact ⟨_, if_pos rfl, hk.grows, fun ok hok => by simp [hs] at hok,
        fun hp => by simp [hs] at hp⟩
    · refine ⟨e', by rw [if_neg hj, he'], hk.grows, hk.linked, fun hp => ?_⟩
      exact ⟨(hk.inProgress hp).1, fun _ => (hk.inProgress hp).2 (by simp [hj])⟩
  sound hsound := by
    obtain ⟨c, hc, hcs⟩ := status?_eq_some_iff.1 hin
    refine (h.sound hsound).modify (chips_setStatus ..) hc rfl (fun hsane => hsane)
      (fun hl => ?_) fun hl => ?_
    · rw [hcs] at hl
      cases hl
    · cases hl
      exact hok rfl (h.sound hsound)

/-- Starting to link a chip. -/
theorem advances_start {id : Nat} (hs : s.status? id = some .unlinked) :
    Advances none s (s.setStatus id .inProgress) := by
  obtain ⟨e, he, hst⟩ := status?_eq_some_iff.1 hs
  refine .modify (chips_setStatus ..) he ⟨.refl _, fun ok hok => ?_, fun hp => ?_⟩
    (fun hsane => hsane) fun hl => ?_
  · rw [hst] at hok
    cases hok
  · rw [hst] at hp
    cases hp
  · cases hl

/-- A gate has no parts, so it is finished once it is marked as linked. -/
theorem advances_linkGate {id : Nat} {d : Definition} (hs : s.status? id = some .unlinked)
    (hd : s.definition? id = some d) (hg : d.gate.isSome) :
    Advances none s (s.setStatus id (.linked true)) := by
  obtain ⟨e, he, hst⟩ := status?_eq_some_iff.1 hs
  rw [definition?_eq, he] at hd
  cases hd
  refine .modify (chips_setStatus ..) he ⟨.refl _, fun ok hok => ?_, fun hp => ?_⟩
    (fun hsane => hsane) fun _ hsound => ?_
  · rw [hst] at hok
    cases hok
  · rw [hst] at hp
    cases hp
  · obtain ⟨g, hg⟩ := Option.isSome_iff_exists.1 hg
    have hparts := ((hsound.sane e (Array.mem_of_getElem? he)).gate g hg).2
    have he' : (s.setStatus id (.linked true)).chips[id]? =
        some { e with status := .linked true } := by
      rw [chips_setStatus, getElem?_modify_eq he, if_pos rfl]
    refine .intro he' rfl (fun p hp => ?_) fun p hp => ?_
    · rw [hparts] at hp
      simp at hp
    · rw [hparts] at hp
      simp at hp

/-- **Linking a chip** leaves it linked, and finished if it went well. -/
theorem linkFresh_spec {linkChild : ChildLinker} (hl : Links linkChild) {id : Nat}
    (hs : s.status? id = some .unlinked) :
    Advances none s (linkFresh linkChild id s).2 ∧
      (linkFresh linkChild id s).2.status? id = some (.linked (linkFresh linkChild id s).1) := by
  obtain ⟨e, he, -⟩ := status?_eq_some_iff.1 hs
  have hrun := freshRun_linkFresh linkChild hs
  generalize linkFresh linkChild id s = r at hrun ⊢
  cases hrun with
  | gate found gate => exact ⟨advances_linkGate hs found gate, status?_setStatus he _⟩
  | @parts d ok s₁ s₂ found _ run warned =>
    have hin : (s.setStatus id .inProgress).status? id = some .inProgress :=
      status?_setStatus he _
    obtain ⟨h₁, -, hparts⟩ := linkParts_spec hl (@List.nodup_range d.parts.size) hin
    rw [run] at h₁ hparts
    have hin₁ := h₁.status_inProgress hin
    have hwarn := advances_warned warned
    have h₂ : Advances (some id) s s₂ := ((advances_start hs).of_none.trans h₁).trans hwarn.of_none
    have hin₂ := hwarn.status_inProgress hin₁
    obtain ⟨c, hc, hcs⟩ := status?_eq_some_iff.1 hin₂
    refine ⟨h₂.finish hs hin₂ fun hok hsound => ?_, status?_setStatus hc _⟩
    refine finished_of_parts hsound hc hcs fun i hi => ?_
    obtain ⟨d', hd', hg⟩ := h₂.definition? found
    obtain rfl : c.definition = d' := Option.some.inj ((definition?_of_entry hc).symm.trans hd')
    rw [hg.size_parts] at hi
    exact (hparts hok i (List.mem_range.2 hi)).mono hwarn
      ((Connects.of_none hin₁ hwarn).parts i)

/-- The linkers of children do what is asked of them, however deep they look. -/
theorem links_linkWithin (depth : Nat) : Links (linkWithin depth) := by
  induction depth with
  | zero =>
    refine ⟨fun child name span s => ?_, fun child name span s h => ?_⟩
    · exact advances_report s _ _ _
    · cases h
  | succ depth ih =>
    refine ⟨fun child name span s => ?_, fun child name span s h => ?_⟩
    · unfold linkWithin
      split
      · exact .refl _ s
      · next hs => exact (linkFresh_spec ih hs).1
      · exact advances_report s _ _ _
    · unfold linkWithin at h ⊢
      split at h
      · next hs => rw [hs]; cases h; rfl
      · next hs => rw [(linkFresh_spec ih hs).2, h]
      · cases h

theorem advances_link (s : Session) (id : Nat) : Advances none s (s.link id).2 := by
  unfold link
  split
  · exact .refl _ s
  · next hs => exact (linkFresh_spec (links_linkWithin _) hs).1
  · exact .refl _ s

/-- **A chip that links is finished.** -/
theorem finished_of_link (hs : s.Sound) {id : Nat} (h : (s.link id).1 = true) :
    (s.link id).2.Finished id := by
  refine ((advances_link s id).sound hs).finished id ?_
  unfold link at h ⊢
  split at h
  · next hst => rw [hst]; cases h; rfl
  · next hst => rw [(linkFresh_spec (links_linkWithin _) hst).2, h]
  · cases h

end Session

end ChipLogic
