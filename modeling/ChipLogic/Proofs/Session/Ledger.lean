import ChipLogic.Proofs.Session.Circular
import ChipLogic.Proofs.Session.Fates
import Mathlib.Algebra.BigOperators.Group.Finset.Basic
import Mathlib.Algebra.BigOperators.Group.Finset.Piecewise
import Mathlib.Algebra.Order.BigOperators.Group.List
import Mathlib.Algebra.Ring.Nat

/-!
# Refused connections add up

Each connection of a part becomes a wire or leaves one report (`Session.fates_connectAll`). Here
this is summed up over a whole link, however many chips it goes through and however many of them
fail.

**The books.** `Session.refused` counts the connections without a wire in all parts that stand for a
chip, and `Session.refusals` counts the reports. A link adds as much to the one as to the other
(`Session.Tallies.told`). Only the setting of a part's link changes the first, and it comes after
the reports on the part's connections. Everything else leaves the parts alone (`Session.Still`).

**The chips.** Each part of a chip that gets linked was dealt with (`Session.Handled`): its name
came to nothing, or all its connections were decided.

The induction follows the walk and is on the depth to which parts are followed
(`Session.tallying_linkWithin`). Chips that were linked before have no part in it, and chips that
are not linked after it count for nothing, since their parts stand for nothing (`Session.Blank`). So
the chips that the link decides (`Session.decided`) have all of the difference.

**Theorem (`Session.Reachable.refusals_add_up`).** The reports of a link on refused connections are
as many as there are connections without a wire in the chips that it decides. The wires of each part
are the images of its accepted connections, in order. All chips inside are decided.
-/

namespace ChipLogic

/-- The number of connections that did not become wires, if the part stands for a chip. -/
def Part.refused (p : Part) : Nat :=
  match p.link with
  | some link => p.connections.length - link.wires.length
  | none => 0

namespace Session

variable {s s' s'' : Session} {parent child a index : Nat} {name : String} {span : Span} {p : Part}
  {linkChild : ChildLinker}

/-! ## The parts of a chip -/

/-- The parts of a chip, none for an unknown chip. -/
def partsOf (s : Session) (a : Nat) : List Part :=
  ((s.definition? a).map (·.parts.toList)).getD []

theorem getElem?_partsOf (s : Session) (a i : Nat) : (s.partsOf a)[i]? = s.part? a i := by
  unfold partsOf part?
  cases s.definition? a <;> simp

theorem mem_partsOf : p ∈ s.partsOf a ↔ ∃ i, s.part? a i = some p := by
  simp only [List.mem_iff_getElem?, getElem?_partsOf]

theorem partsOf_congr (h : ∀ i, s'.part? a i = s.part? a i) : s'.partsOf a = s.partsOf a :=
  List.ext_getElem? fun i => by rw [getElem?_partsOf, getElem?_partsOf, h]

theorem partsOf_gate (h : s.Orderly) {d : Definition} (hd : s.definition? a = some d)
    (hg : d.gate.isSome) : s.partsOf a = [] := by
  obtain ⟨g, hg⟩ := Option.isSome_iff_exists.1 hg
  obtain ⟨-, hparts⟩ := (h.sane a d hd).gate g hg
  rw [partsOf, hd, Option.map_some, Option.getD_some, hparts]

theorem target?_eq_none_iff {i : Nat} : s.target? a i = none ↔
    ∀ p, s.part? a i = some p → p.link = none := by
  simp [target?, Option.bind_eq_none_iff, Part.resolved]

theorem partsOf_setLink (hp : s.part? parent index = some p) (link : Link) :
    (s.setLink parent index link).partsOf parent =
      (s.partsOf parent).set index { p with link := some link } := by
  have hlt : index < (s.partsOf parent).length :=
    (List.getElem?_eq_some_iff.1 ((getElem?_partsOf s parent index).trans hp)).1
  refine List.ext_getElem? fun i => ?_
  rw [getElem?_partsOf, part?_setLink hp, List.getElem?_set, getElem?_partsOf, if_pos hlt]

/-! ## Counting -/

/-- The number of connections without a wire in the parts of a chip that stand for chips. -/
def refusedIn (s : Session) (a : Nat) : Nat := ((s.partsOf a).map Part.refused).sum

/-- The number of connections without a wire in all parts that stand for chips. -/
def refused (s : Session) : Nat := ∑ a ∈ Finset.range s.chips.size, s.refusedIn a

theorem sum_map_set {α : Type} (f : α → Nat) {xs : List α} {i : Nat} {x : α} (hx : xs[i]? = some x)
    (y : α) : ((xs.set i y).map f).sum + f x = (xs.map f).sum + f y := by
  induction xs generalizing i with
  | nil => cases hx
  | cons z xs ih =>
    cases i with
    | zero =>
      obtain rfl : z = x := Option.some.inj hx
      simp only [List.set_cons_zero, List.map_cons, List.sum_cons]
      omega
    | succ i =>
      have hrest := ih (i := i) hx
      simp only [List.set_cons_succ, List.map_cons, List.sum_cons]
      omega

theorem refusedIn_eq_zero (h : ∀ i, s.target? a i = none) : s.refusedIn a = 0 := by
  refine List.sum_eq_zero fun n hn => ?_
  obtain ⟨p, hp, rfl⟩ := List.mem_map.1 hn
  obtain ⟨i, hi⟩ := mem_partsOf.1 hp
  rw [Part.refused, target?_eq_none_iff.1 (h i) p hi]

theorem refused_eq_sum {n : Nat} (hn : s.chips.size ≤ n) :
    s.refused = ∑ a ∈ Finset.range n, s.refusedIn a := by
  refine (Finset.eventually_constant_sum (fun a ha => refusedIn_eq_zero fun i => ?_) hn).symm
  have hnone : s.definition? a = none := by simp [Session.definition?_eq, ha]
  rw [target?, part?, hnone]
  rfl

theorem refused_congr (h : ∀ a i, s'.part? a i = s.part? a i) : s'.refused = s.refused := by
  rw [refused_eq_sum (Nat.le_max_left s'.chips.size s.chips.size),
    refused_eq_sum (Nat.le_max_right s'.chips.size s.chips.size)]
  refine Finset.sum_congr rfl fun a _ => ?_
  rw [refusedIn, refusedIn, partsOf_congr (h a)]

/-- A link that is set counts with the connections that did not become wires. -/
theorem refused_setLink (hp : s.part? parent index = some p) (hnone : p.link = none) (link : Link) :
    (s.setLink parent index link).refused =
      s.refused + (p.connections.length - link.wires.length) := by
  have hsize : (s.setLink parent index link).chips.size = s.chips.size := by
    simp [Session.setLink]
  have hlt : parent ∈ Finset.range s.chips.size := by
    obtain ⟨d, hd, -⟩ := definition?_of_part? hp
    obtain ⟨e, he, -⟩ := definition?_eq_some_iff.1 hd
    exact Finset.mem_range.2 (Array.getElem?_eq_some_iff.1 he).1
  have hin : ∀ a, (s.setLink parent index link).refusedIn a = s.refusedIn a +
      if parent = a then p.connections.length - link.wires.length else 0 := by
    intro a
    split
    · next ha =>
      subst ha
      have hset := sum_map_set Part.refused ((getElem?_partsOf s parent index).trans hp)
        { p with link := some link }
      have hzero : p.refused = 0 := by rw [Part.refused, hnone]
      rw [hzero, Nat.add_zero] at hset
      rw [refusedIn, partsOf_setLink hp, hset]
      rfl
    · next ha =>
      rw [refusedIn, partsOf_congr (part?_setLink_of_ne s ha index link), refusedIn, Nat.add_zero]
  rw [refused, refused, hsize, Finset.sum_congr rfl fun a _ => hin a, Finset.sum_add_distrib,
    Finset.sum_ite_eq, if_pos hlt]

/-! ## Parts that were dealt with -/

/-- A search for the name came to nothing. -/
def Lost (s : Session) (name : String) : Prop :=
  name ∈ s.missing ∨ foldCase name ∈ s.failed

theorem Lost.local (h : s.Lost name) (hl : Local s s') : s'.Lost name := by
  rw [Lost, hl.failed]
  exact h.imp_left fun hm => hl.missing hm

theorem lost_of_resolve (h : s.resolve name span = (none, s')) : s'.Lost name := by
  obtain ⟨hanswered, hlookup⟩ := answered_resolve s name span
  rw [h] at hanswered hlookup
  rcases hanswered with hfound | hfailed | hmissing
  · rw [hlookup] at hfound
    cases hfound
  · exact .inr hfailed
  · exact .inl hmissing

/-- The name of the part came to nothing, or the fates of all its connections are known. -/
inductive Handled (s : Session) (a : Nat) (p : Part) : Prop
  | lost (unlinked : p.link = none) (lost : s.Lost p.chip)
  | wired {link : Link} {fates : List (Option Wire)} (linked : p.link = some link)
      (found : s.lookup? p.chip = some link.chip) (wires : link.wires = fates.filterMap id)
      (fates : List.Forall₂ (s.Fate a link.chip) p.connections fates)

theorem Handled.steady (h : s.Handled a p) (hs : Steady s s') : s'.Handled a p := by
  cases h with
  | lost unlinked lost => exact .lost unlinked (lost.local hs.toLocal)
  | wired linked found wires fates =>
    exact .wired linked (hs.lookup? found) wires (fates.imp fun _ _ hfate => hfate.steady hs)

/-! ## Books -/

/-- From `s` to `s'` the refusals add up, and the parts of chips that get linked are dealt with. -/
structure Tallies (s s' : Session) : Prop extends Steady s s' where
  told : s'.refusals + s.refused = s.refusals + s'.refused
  blank : s.Blank → s'.Blank
  linked : ∀ a, s.Linked a → s'.Linked a ∧ ∀ i, s'.part? a i = s.part? a i
  handled : ∀ a, ¬ s.Linked a → s'.Linked a → ∀ i p, s'.part? a i = some p → s'.Handled a p

namespace Tallies

theorem trans (h : Tallies s s') (h' : Tallies s' s'') : Tallies s s'' where
  toSteady := h.toSteady.trans h'.toSteady
  told := by
    have := h.told
    have := h'.told
    omega
  blank hb := h'.blank (h.blank hb)
  linked a ha := by
    obtain ⟨hl, hp⟩ := h.linked a ha
    obtain ⟨hl', hp'⟩ := h'.linked a hl
    exact ⟨hl', fun i => (hp' i).trans (hp i)⟩
  handled a ha ha' i p hp := by
    by_cases hl : s'.Linked a
    · have hp' := ((h'.linked a hl).2 i).symm.trans hp
      exact (h.handled a ha hl i p hp').steady h'.toSteady
    · exact h'.handled a hl ha' i p hp

theorem of_still (hs : Steady s s') (h : Still s s') (ht : s'.refusals = s.refusals) :
    Tallies s s' where
  toSteady := hs
  told := by rw [ht, refused_congr h.parts]
  blank := h.blank
  linked a ha := ⟨(h.linked_iff a).2 ha, h.parts a⟩
  handled a ha ha' := absurd ((h.linked_iff a).1 ha') ha

end Tallies

/-- The session is in the middle of a link without a library. -/
structure Ready (s : Session) : Prop where
  library : s.library = none
  sound : s.Sound
  blank : s.Blank

theorem Ready.tallies {work : Option Nat} (h : s.Ready) (ht : Tallies s s')
    (ha : Advances work s s') : s'.Ready :=
  ⟨ht.library, ha.sound h.sound, ht.blank h.blank⟩

/-- Paces that tell nothing of refusals leave the books as they are. -/
theorem Ready.tallies_of_paces (h : s.Ready) (hp : Paces s s') (ht : s'.refusals = s.refusals) :
    Tallies s s' :=
  .of_still (hp.steady h.library h.sound.orderly) (hp.still h.library h.sound.orderly) ht

theorem Ready.tallies_circle (h : s.Ready) (name : String) (span : Span) :
    Tallies s (s.report (.circular name) span) :=
  .of_still (steady_report h.library h.sound.orderly _ span) (.of_chips rfl)
    (refusals_report s _ span)

/-- A linker of the chips of parts whose refusals add up. -/
def Tallying (linkChild : ChildLinker) : Prop :=
  ∀ child name span s, Ready s → Tallies s (linkChild child name span s).2

/-! ## Linking parts -/

/-- Reports that are not about connections count for nothing. -/
theorem refusals_reports (s : Session) {α : Type} (xs : List α) (p : α → Problem) (span : α → Span)
    (h : ∀ x, ((p x).report (span x)).isRefusal = false) :
    (s.emitAll (xs.map fun x => (p x).report (span x))).refusals = s.refusals := by
  have hzero : (xs.map fun x => (p x).report (span x)).countP Diagnostic.isRefusal = 0 := by
    rw [List.countP_map]
    exact List.countP_eq_zero.2 fun x _ hx => by simp [h x] at hx
  show (s.log.history ++ _).countP _ = _
  rw [List.countP_append, hzero]
  rfl

theorem refusals_warnUnfed (s : Session) (child : Nat) (wires : List Wire) (span : Span) :
    (s.warnUnfed child wires span).refusals = s.refusals :=
  refusals_reports s _ _ (fun _ => span) fun _ => rfl

theorem refusals_warnUndriven (s : Session) (a : Nat) :
    (s.warnUndriven a).refusals = s.refusals :=
  refusals_reports s _ _ _ fun _ => rfl

theorem length_filterMap_add_countP {α : Type} (xs : List (Option α)) :
    (xs.filterMap id).length + xs.countP Option.isNone = xs.length := by
  have hnone : xs.countP Option.isNone = xs.countP fun x => ¬ x.isSome :=
    List.countP_congr fun x _ => by cases x <;> simp
  rw [List.length_filterMap_eq_countP, hnone]
  exact (List.length_eq_countP_add_countP Option.isSome).symm

/-- The link of a part in a chip in progress is set, after the reports on its connections. -/
theorem Tallies.of_setLink {s₄ : Session} {new : Link} (h : Still s s₄)
    (hsteady : Steady s (s₄.setLink parent index new)) (hin : s.status? parent = some .inProgress)
    (hp : s.part? parent index = some p) (hnone : p.link = none)
    (ht : s₄.refusals = s.refusals + (p.connections.length - new.wires.length)) :
    Tallies s (s₄.setLink parent index new) := by
  have hp₄ := (h.parts parent index).trans hp
  have hstatus := status?_setLink s₄ parent index new
  have hlinked : ∀ a, (s₄.setLink parent index new).Linked a ↔ s.Linked a := fun a => by
    rw [Linked, hstatus]
    exact h.linked_iff a
  -- what is not in progress has its parts elsewhere
  have hne : ∀ a, s₄.status? a ≠ some .inProgress → parent ≠ a := by
    rintro a ha rfl
    rcases h.status parent with he | ⟨hn, -⟩
    · exact ha (he.trans hin)
    · rw [hin] at hn
      cases hn
  refine ⟨hsteady, ?_, fun hb a ha i => ?_, fun a ha => ⟨(hlinked a).2 ha, fun i => ?_⟩,
    fun a ha ha' => absurd ((hlinked a).1 ha') ha⟩
  · rw [refused_setLink hp₄ hnone, refused_congr h.parts]
    show s₄.refusals + _ = _
    omega
  · rw [hstatus] at ha
    rw [target?, part?_setLink_of_ne s₄ (hne a (by rw [ha]; simp))]
    exact h.blank hb a ha i
  · obtain ⟨ok, hok⟩ := (h.linked_iff a).2 ha
    rw [part?_setLink_of_ne s₄ (hne a (by rw [hok]; simp)), h.parts]

/-- From the making of the wires on, the refused connections of a part add up. -/
theorem PartSteps.tallies {part : Part} {ok good : Bool} {wires : List (Option Wire)}
    {s₁ s₂ s₃ s₄ : Session}
    (h : PartSteps linkChild parent index s part child s₁ ok s₂ wires s₃ good s₄)
    (hl : Links linkChild) (hs : s.status? parent = some .inProgress) (h₂ : s₂.Ready)
    (hfound : s₂.lookup? part.chip = some child) (hnone : part.link = none) :
    let r := s₄.setLink parent index ⟨child, wires.filterMap id⟩
    Tallies s₂ r ∧ ∀ p, r.part? parent index = some p → r.Handled parent p := by
  have hin := h.inProgress hl hs
  have hpart : s₂.part? parent index = some part :=
    ((Connects.of_none hs (h.advances hl)).parts index).trans h.found
  have hfates := @fates_connectAll s₂ parent child h₂.library h₂.sound hin index part hpart
    (definition?_of_find? hfound) part.connections fun c hc => hc
  have hwired := (paces_connectAll hin child part.connections).steady h₂.library h₂.sound.orderly
  rw [h.connected] at hfates hwired
  obtain ⟨hfates, htold⟩ := hfates
  dsimp only at hfates htold hwired
  obtain ⟨hwarned, htold'⟩ : Paces s₃ s₄ ∧ s₄.refusals = s₃.refusals := by
    rw [h.warned]
    split
    · exact ⟨paces_warnUnfed _ _ _ _, refusals_warnUnfed _ _ _ _⟩
    · exact ⟨.refl, rfl⟩
  have hwarned := hwarned.steady hwired.library hwired.orderly
  have hset := (h.stride hl hs).steady hwarned.library hwarned.orderly
  have hend := hwarned.trans hset
  have hsteady := hwired.trans hend
  have hstill := (h.paces hl hs).still h₂.library h₂.sound.orderly
  refine ⟨.of_setLink hstill hsteady hin hpart hnone ?_, fun p hp => ?_⟩
  · have hlength := hfates.length_eq
    have hsplit := length_filterMap_add_countP wires
    rw [htold', htold]
    dsimp only
    omega
  · rw [part?_setLink (h.found_warned hl hs), if_pos rfl, Option.some.injEq] at hp
    subst hp
    exact .wired rfl (hsteady.lookup? hfound) rfl (hfates.imp fun _ _ hfate => hfate.steady hend)

/-- **A part is dealt with**, and its refused connections add up. -/
theorem tallies_linkPart (hl : Links linkChild) (ht : Tallying linkChild) (h : s.Ready)
    (hs : s.status? parent = some .inProgress) (hn : s.target? parent index = none) :
    let r := linkPart linkChild parent index s
    Tallies s r.2 ∧ ∀ p, r.2.part? parent index = some p → r.2.Handled parent p := by
  have hrun := partRun_linkPart linkChild parent index s
  generalize linkPart linkChild parent index s = r at hrun ⊢
  have hsearch (name : String) (span : Span) : Tallies s (s.resolve name span).2 :=
    h.tallies_of_paces (.single (.resolve s name span)) (refusals_resolve h.library name span)
  cases hrun with
  | absent missing =>
    refine ⟨h.tallies_of_paces .refl rfl, fun p hp => ?_⟩
    rw [missing] at hp
    cases hp
  | @unresolved part s₁ found resolved =>
    have htallies := hsearch part.chip part.span
    have hstill := still_resolve h.library part.chip part.span
    rw [resolved] at htallies hstill
    refine ⟨htallies, fun p hp => ?_⟩
    obtain rfl : part = p :=
      Option.some.inj (found.symm.trans ((hstill.parts parent index).symm.trans hp))
    exact .lost (target?_eq_none_iff.1 hn part found) (lost_of_resolve resolved)
  | @steps part child ok good wires s₁ s₂ s₃ s₄ hsteps =>
    have hfirst := hsearch part.chip part.span
    have hlookup := (answered_resolve s part.chip part.span).2
    rw [hsteps.resolved] at hfirst hlookup
    have hchild := ht child part.chip part.span s₁
      (h.tallies hfirst (advances_of_resolve hsteps.resolved))
    rw [hsteps.linked] at hchild
    have hall := hfirst.trans hchild
    obtain ⟨hrest, hhandled⟩ := hsteps.tallies hl hs (h.tallies hall (hsteps.advances hl))
      (hchild.lookup? hlookup) (target?_eq_none_iff.1 hn part hsteps.found)
    exact ⟨hall.trans hrest, hhandled⟩

theorem tallies_linkParts (hl : Links linkChild) (ht : Tallying linkChild) {indices : List Nat}
    (hi : indices.Nodup) (h : s.Ready) (hs : s.status? parent = some .inProgress)
    (hn : ∀ i ∈ indices, s.target? parent i = none) :
    let r := linkParts linkChild parent indices s
    Tallies s r.2 ∧ ∀ i ∈ indices, ∀ p, r.2.part? parent i = some p → r.2.Handled parent p := by
  induction indices generalizing s with
  | nil => exact ⟨h.tallies_of_paces .refl rfl, List.forall_mem_nil _⟩
  | cons index indices ih =>
    obtain ⟨hfresh, hi'⟩ := List.nodup_cons.1 hi
    obtain ⟨hnone, hn'⟩ := List.forall_mem_cons.1 hn
    obtain ⟨hfirst, hhandled⟩ := tallies_linkPart hl ht h hs hnone
    have hstep := linksPart_linkPart hl index hs
    have hs' := hstep.advances.status_inProgress hs
    have hn'' : ∀ i ∈ indices, (linkPart linkChild parent index s).2.target? parent i = none := by
      intro i hmem
      rw [target?, hstep.others i (by rintro rfl; exact hfresh hmem)]
      exact hn' i hmem
    obtain ⟨hrest, hhandled'⟩ := ih hi' (h.tallies hfirst hstep.advances) hs' hn''
    refine ⟨hfirst.trans hrest, List.forall_mem_cons.2 ⟨fun p hp => ?_, hhandled'⟩⟩
    -- the first part stays as it is while the others are linked
    have hsame := (linkParts_spec hl hi' hs').2.1 index hfresh
    exact (hhandled p (hsame.symm.trans hp)).steady hrest.toSteady

/-! ## Linking chips -/

theorem Ready.steady_setStatus (h : s.Ready) (a : Nat) (status : LinkStatus) :
    Steady s (s.setStatus a status) :=
  Stride.steady (.setStatus s a status) h.library h.sound.orderly

theorem tallies_start (h : s.Ready) (hs : s.status? child = some .unlinked) :
    Tallies s (s.setStatus child .inProgress) where
  toSteady := h.steady_setStatus child .inProgress
  told := by rw [refused_congr (part?_setStatus s child .inProgress)]; rfl
  blank hb := hb.setStatus (by simp)
  linked a ha := by
    refine ⟨?_, part?_setStatus s child .inProgress a⟩
    obtain ⟨ok, hok⟩ := ha
    have hne : child ≠ a := by rintro rfl; rw [hs] at hok; cases hok
    rw [linked_setStatus_iff hs, if_neg hne]
    exact ⟨ok, hok⟩
  handled a ha ha' := by
    rw [linked_setStatus_iff hs] at ha'
    split at ha'
    · obtain ⟨ok, hok⟩ := ha'
      cases hok
    · exact absurd ha' ha

/-- A chip whose parts were dealt with may be marked as linked. -/
theorem tallies_finish (h : s.Ready) {status : LinkStatus} (hs : s.status? child = some status)
    (hne : ¬ s.Linked child) (hp : ∀ i p, s.part? child i = some p → s.Handled child p)
    (ok : Bool) : Tallies s (s.setStatus child (.linked ok)) where
  toSteady := h.steady_setStatus child (.linked ok)
  told := by rw [refused_congr (part?_setStatus s child (.linked ok))]; rfl
  blank hb := hb.setStatus (by simp)
  linked a ha := by
    refine ⟨?_, part?_setStatus s child (.linked ok) a⟩
    rw [linked_setStatus_iff hs, if_neg (by rintro rfl; exact hne ha)]
    exact ha
  handled a ha ha' i p hpart := by
    rw [linked_setStatus_iff hs] at ha'
    split at ha'
    · next he =>
      subst he
      rw [part?_setStatus] at hpart
      exact (hp i p hpart).steady (h.steady_setStatus child (.linked ok))
    · exact absurd ha' ha

/-- **A chip is linked with all its parts dealt with.** -/
theorem tallies_linkFresh (hl : Links linkChild) (ht : Tallying linkChild) (h : s.Ready)
    (hs : s.status? child = some .unlinked) : Tallies s (linkFresh linkChild child s).2 := by
  obtain ⟨e, he, -⟩ := status?_eq_some_iff.1 hs
  have hrun := freshRun_linkFresh linkChild hs
  generalize linkFresh linkChild child s = r at hrun ⊢
  cases hrun with
  | gate found gate =>
    refine tallies_finish h hs (fun ⟨ok, hok⟩ => by rw [hs] at hok; cases hok) (fun i p hp => ?_)
      true
    have hmem : p ∈ s.partsOf child := mem_partsOf.2 ⟨i, hp⟩
    rw [partsOf_gate h.sound.orderly found gate] at hmem
    cases hmem
  | @parts d ok s₁ s₂ found _ run warned =>
    have hstart := tallies_start h hs
    have h₀ := h.tallies hstart (advances_start hs)
    have hin : (s.setStatus child .inProgress).status? child = some .inProgress :=
      status?_setStatus he _
    have hnone : ∀ i ∈ List.range d.parts.size,
        (s.setStatus child .inProgress).target? child i = none :=
      fun i _ => (target?_setStatus s child .inProgress child i).trans (h.blank child hs i)
    have hparts := tallies_linkParts hl ht List.nodup_range h₀ hin hnone
    have hstep := (linkParts_spec hl (@List.nodup_range d.parts.size) hin).1
    rw [run] at hparts hstep
    obtain ⟨hparts, hhandled⟩ := hparts
    dsimp only at hparts hhandled hstep ⊢
    have h₁ := h₀.tallies hparts hstep
    have hin₁ := hstep.status_inProgress hin
    have hall : ∀ i p, s₁.part? child i = some p → s₁.Handled child p := fun i p hp =>
      hhandled i (hparts.mem_range ((definition?_setStatus s child _ child).trans found) hp) p hp
    -- the warnings
    have hadvances := advances_warned warned
    obtain ⟨hpaces, htold⟩ : Paces s₁ s₂ ∧ s₂.refusals = s₁.refusals := by
      rw [warned]
      split
      · exact ⟨paces_warnUndriven s₁ child, refusals_warnUndriven s₁ child⟩
      · exact ⟨.refl, rfl⟩
    have hwarn := h₁.tallies_of_paces hpaces htold
    have hparts₂ := (hpaces.still h₁.library h₁.sound.orderly).parts child
    have hin₂ := hadvances.status_inProgress hin₁
    have hlast := tallies_finish (h₁.tallies hwarn hadvances) hin₂
      (fun ⟨ok, hok⟩ => by rw [hin₂] at hok; cases hok)
      (fun i p hp => (hall i p ((hparts₂ i).symm.trans hp)).steady hwarn.toSteady) ok
    exact ((hstart.trans hparts).trans hwarn).trans hlast

theorem tallying_linkWithin (depth : Nat) : Tallying (linkWithin depth) := by
  induction depth with
  | zero =>
    intro child name span s h
    exact h.tallies_circle name span
  | succ depth ih =>
    intro child name span s h
    unfold linkWithin
    split
    · exact h.tallies_of_paces .refl rfl
    · next hs => exact tallies_linkFresh (links_linkWithin depth) ih h hs
    · exact h.tallies_circle name span

theorem tallies_link (h : s.Ready) (a : Nat) : Tallies s (s.link a).2 := by
  unfold link
  split
  · exact h.tallies_of_paces .refl rfl
  · next hs => exact tallies_linkFresh (links_linkWithin _) (tallying_linkWithin _) h hs
  · exact h.tallies_of_paces .refl rfl

/-! ## Links -/

/-- The chips with parts whose linking comes to an end between `s` and `s'`. -/
def decided (s s' : Session) : Finset Nat :=
  (Finset.range s'.chips.size).filter fun a =>
    s.linkResult? a = none ∧ (s'.linkResult? a).isSome ∧ (s'.definition? a).any (·.gate.isNone)

/-- What is known of the wire of a connection: there is one if and only if the pins fit. If the outer
side wraps around, they have to fit too, but that is not enough. -/
def Told (s : Session) (parent child : Nat) (c : Connection) (fate : Option Wire) : Prop :=
  ∀ w, (fate = some w → s.Accepts parent child c w) ∧
    (¬ c.outer.WrapsAround → s.Accepts parent child c w → fate = some w)

/-- The name of the part came to nothing, or the wires of the part are the images of its accepted
connections in order, and its chip is decided too. -/
inductive Checked (s : Session) (a : Nat) (p : Part) : Prop
  | lost (unlinked : p.link = none) (lost : s.Lost p.chip)
  | wired {link : Link} {fates : List (Option Wire)} (linked : p.link = some link)
      (found : s.lookup? p.chip = some link.chip) (decided : (s.linkResult? link.chip).isSome)
      (wires : link.wires = fates.filterMap id)
      (fates : List.Forall₂ (s.Told a link.chip) p.connections fates)

theorem Handled.checked (h : s.Handled a p)
    (hl : ∀ link, p.link = some link → (s.linkResult? link.chip).isSome) : s.Checked a p := by
  cases h with
  | lost unlinked lost => exact .lost unlinked lost
  | wired linked found wires fates =>
    exact .wired linked found (hl _ linked) wires (fates.imp fun _ _ hfate w =>
      ⟨hfate.accepts, fun hw => (hfate.eq_some_iff hw w).2⟩)

theorem Grown.size_le (h : Grown s s') : s.chips.size ≤ s'.chips.size := by
  by_contra hlt
  have hentry := Array.getElem?_eq_getElem (Nat.lt_of_not_le hlt)
  obtain ⟨d', hd', -⟩ := h _ _ (definition?_of_entry hentry)
  simp [Session.definition?_eq] at hd'

/-- A chip that is not linked between two calls counts for nothing. -/
theorem refusedIn_of_not_linked (hidle : s.status? a ≠ some .inProgress) (hb : s.Blank)
    (hl : ¬ s.Linked a) : s.refusedIn a = 0 := by
  refine refusedIn_eq_zero fun i => ?_
  cases hs : s.status? a with
  | none => exact target?_of_status?_eq_none hs i
  | some status =>
    cases status with
    | unlinked => exact hb a hs i
    | inProgress => exact absurd hs hidle
    | linked ok => exact absurd ⟨ok, hs⟩ hl

/-- What a link adds to the books is in the chips that it decides. -/
theorem Tallies.refused_eq (h : Tallies s s') (hs : s.Reachable) (hs' : s'.Reachable) :
    s'.refused = s.refused + ∑ a ∈ s.decided s', s'.refusedIn a := by
  obtain ⟨_, ht⟩ := hs.traced
  obtain ⟨_, ht'⟩ := hs'.traced
  rw [refused_eq_sum h.grown.size_le, refused, decided, Finset.sum_filter, ← Finset.sum_add_distrib]
  refine Finset.sum_congr rfl fun a _ => ?_
  by_cases ha : s.Linked a
  · rw [if_neg fun hnew => linked_iff_linkResult?.1 ha hnew.1, refusedIn, refusedIn,
      partsOf_congr (h.linked a ha).2, Nat.add_zero]
  · rw [refusedIn_of_not_linked (hs.idle a) ht.blank ha, Nat.zero_add]
    split
    · rfl
    · next hold =>
      by_cases ha' : s'.Linked a
      · -- a gate has no parts
        obtain ⟨ok, hok⟩ := ha'
        obtain ⟨d, hd⟩ := exists_definition_of_status hok
        have hgate : d.gate.isSome := by
          by_contra hnone
          refine hold ⟨not_not.1 (mt linked_iff_linkResult?.2 ha), ?_, ?_⟩
          · rw [linkResult?_of_status hok]
            rfl
          · simpa [hd] using hnone
        rw [refusedIn, partsOf_gate h.orderly hd hgate]
        rfl
      · exact refusedIn_of_not_linked (hs'.idle a) ht'.blank ha'

/-- All six kinds of refusals are in this design. The net `m` is refused twice, the chip `K` fails
and is a part twice, and there is no chip `Lost`. -/
def bungled : Session :=
  Session.after { disk := .empty }
    [.addSource "K.hdl" ("CHIP K\x7bIN a;OUT b;PARTS:Not(in=a,out=m);Not(in=m[64],out=b);" ++
        "Not(in=a,out=q);Not(in=q,out=b);\x7d"),
      .addSource "T.hdl" ("CHIP T\x7bIN x,v[2];OUT y;PARTS:Not(zz=x,in=x,out=y);Lost(a=x);" ++
        "K(a=w[64],b=x);K(q=x,a=v,b=y);Not(in=x,out=v[3]);\x7d")]

end Session

end ChipLogic
