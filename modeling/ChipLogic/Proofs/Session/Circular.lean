import ChipLogic.Proofs.Session.Walk
import Mathlib.Data.List.Induction

/-!
# Circular instantiation

The graph of chips becomes known while it is walked through. Files of the library are loaded on the
way, by parts and by nets that look ahead for a width; failed chips are remembered while chips
around them are still in progress. Nevertheless linking does with circles what a search through a
known graph would do.

**Between two calls** (`Session.Traced`). Linked chips lead to linked chips, parts of other chips
stand for nothing yet, and all reports of circles are accounted for: some were reported from
outside, and each of the others belongs to a part of its own that closes a circle. A link is a tour
from such a session (`Session.Reachable.tour_link`) and leads to one (`Session.Traced.tour`).

**Theorem (`Session.circular_instantiation`).** After any calls, the reports of circles are genuine,
no part has two of them (`Session.ReportsCircles`), and the next link finds the circles that it
should (`Session.FindsCircles`): it comes to an end, it reports a circle if and only if it can reach
one, and all chips that reach one have failed.
-/

namespace ChipLogic

namespace Session

variable {s s' : Session} {id : Nat} {owners : List (Nat × Nat)} {foreign : List Diagnostic}

/-! ## Chips that reach no circle -/

/-- A circle inside a chip is inside one of its targets. -/
theorem not_circular_of_targets {x : Nat}
    (h : ∀ b, s.Contains x b → ∀ c, s.Inside b c → ¬ s.Circular c) :
    ∀ c, s.Inside x c → ¬ s.Circular c := by
  intro c hc hcircle
  rcases Relation.ReflTransGen.cases_head hc with rfl | ⟨b, hb, hbc⟩
  · -- the way around the circle starts at a target
    obtain ⟨b, hb, hback⟩ := Relation.TransGen.head'_iff.1 hcircle
    exact h b hb x hback hcircle
  · exact h b hb c hbc hcircle

/-- **A finished chip reaches no circle.** -/
theorem Finished.not_circular (h : s.Finished id) : ∀ c, s.Inside id c → ¬ s.Circular c := by
  induction h with
  | @intro id e entry status links children ih =>
    refine not_circular_of_targets fun b hb => ?_
    obtain ⟨i, hi⟩ := hb
    obtain ⟨p, hp, hr⟩ := Option.bind_eq_some_iff.1 hi
    rw [part?, definition?_of_entry entry, Option.bind_some] at hp
    obtain ⟨link, hlink, rfl⟩ := Option.map_eq_some_iff.1 hr
    exact ih p (Array.mem_of_getElem? hp) link hlink

/-! ## Between two calls -/

theorem Carries.contains (h : Carries s s') {a b : Nat} (hb : s.Contains a b) : s'.Contains a b :=
  hb.imp fun i hi => h.target a i b hi

theorem Carries.inside (h : Carries s s') {a b : Nat} (hb : s.Inside a b) : s'.Inside a b :=
  Relation.ReflTransGen.mono (fun _ _ => h.contains) _ _ hb

theorem Carries.closes (h : Carries s s') {o : Nat × Nat} (ho : s.Closes o) : s'.Closes o :=
  ho.imp fun b hb => ⟨h.target _ _ b hb.1, h.inside hb.2⟩

/-- What holds of circles between two calls; `foreign` are the reports from outside. -/
structure Traced (foreign : List Diagnostic) (s : Session) : Prop where
  blank : s.Blank
  titled : s.Titled
  settled : ∀ a b, s.Linked a → s.Contains a b → s.Linked b
  owned : ∃ owners : List (Nat × Nat), owners.Nodup ∧ (∀ o ∈ owners, s.Closes o) ∧
    ∃ new, List.Forall₂ (fun o d => s.circleAt? o = some d) owners new ∧
      s.circles.Perm (foreign ++ new)

/-- **A tour from a session between two calls leads to one.** -/
theorem Traced.tour (h : s.Traced foreign) (ht : Tour [] s s' owners)
    (hg : Genuine [] id s' owners) (hn : s'.Titled) : s'.Traced foreign where
  blank := ht.blank h.blank
  titled := hn
  settled a b ha hb := by
    rcases ht.closed s' (.refl s') (List.forall_mem_nil _) a ha with ha₀ | hall
    · obtain ⟨i, hi⟩ := hb
      rw [(ht.linked a ha₀).2 i] at hi
      exact (ht.linked b (h.settled a b ha₀ ⟨i, hi⟩)).1
    · exact hall b hb
  owned := by
    obtain ⟨old, hold, hclose, olds, hreports, hperm⟩ := h.owned
    obtain ⟨new, hcircles, hnew⟩ := ht.reports
    have hclose' : ∀ o ∈ owners, s'.Closes o :=
      fun o ho => (hg s' (.refl s') (List.forall_mem_nil _) o ho).1
    refine ⟨old ++ owners, List.nodup_append.2 ⟨hold, ht.nodup, fun o ho o' ho' he => ?_⟩,
      List.forall_mem_append.2 ⟨fun o ho => ht.toCarries.closes (hclose o ho), hclose'⟩,
      olds ++ new, List.rel_append (hreports.imp ht.circleAt) hnew, ?_⟩
    · -- an old owner has an edge already
      obtain ⟨b, hb, -⟩ := hclose o ho
      rw [he, ht.before o' ho'] at hb
      cases hb
    · rw [hcircles, ← List.append_assoc]
      exact hperm.append_right new

theorem Traced.calm (h : s.Traced foreign) (hc : Calm s s') (hg : Grown s s') :
    s'.Traced foreign :=
  h.tour (.of_calm [] hc) (.nil [] 0 s') (h.titled.calm hg hc)

/-- A report from outside. -/
theorem Traced.emit (h : s.Traced foreign) (d : Diagnostic) :
    (s.emit d).Traced (foreign ++ [d].filter Diagnostic.isCircle) where
  blank := h.blank
  titled := h.titled
  settled := h.settled
  owned := by
    obtain ⟨owners, hn, hclose, new, hreports, hperm⟩ := h.owned
    refine ⟨owners, hn, hclose, new, hreports, ?_⟩
    have hcircles : (s.emit d).circles = s.circles ++ [d].filter Diagnostic.isCircle :=
      circles_emitAll s [d]
    rw [hcircles, List.append_assoc]
    refine (hperm.append_right _).trans ?_
    rw [List.append_assoc]
    exact List.perm_append_comm.append_left foreign

/-! ## A link -/

theorem Reachable.descent (h : s.Reachable) (hb : s.Blank) : Descent s.roof [] s where
  sound := h.sound
  roofed := s.roofed_roof
  blank := hb
  nodup := List.nodup_nil
  inProgress id := iff_of_false (h.idle id) List.not_mem_nil

/-- The number of keys bounds the depth, and so does any greater number. -/
theorem Reachable.link_deeper (h : s.Reachable) (hb : s.Blank)
    (hs : s.status? id = some .unlinked) {depth : Nat} (hdepth : s.chipBound ≤ depth) :
    linkFresh (linkWithin depth) id s = s.link id := by
  have hbound := s.length_roof_le
  have hd := h.descent hb
  rw [Session.link, hs]
  dsimp only
  rw [linkFresh_deeper hd hs (Nat.le_trans hbound hdepth), linkFresh_deeper hd hs hbound]

/-- **A link is a tour.** -/
theorem Reachable.tour_link (h : s.Reachable) (hb : s.Blank) (id : Nat) :
    ∃ owners, Tour [] s (s.link id).2 owners ∧ Genuine [] id (s.link id).2 owners := by
  have hrefl : ∃ owners, Tour [] s s owners ∧ Genuine [] id s owners :=
    ⟨[], .refl [] s, .nil [] id s⟩
  unfold Session.link
  split
  · exact hrefl
  · next hs =>
    have hbound := s.length_roof_le
    exact tour_linkFresh (links_linkWithin _) (strides_linkWithin _)
      (explores_linkWithin _ (by rw [List.length_singleton]; omega)) (h.descent hb) hs
  · exact hrefl

theorem Traced.link (h : s.Traced foreign) (hr : s.Reachable) (id : Nat) :
    (s.link id).2.Traced foreign := by
  obtain ⟨owners, ht, hg⟩ := hr.tour_link h.blank id
  exact h.tour ht hg (h.titled.moves (moves_link s id))

/-! ## Scripts -/

/-- What an action reports itself. -/
def Action.reported? : Action → Option Diagnostic
  | .emit d => some d
  | _ => none

/-- What a script reports itself. -/
def reported (script : List Action) : List Diagnostic :=
  script.filterMap Action.reported?

theorem Traced.freeze (h : s.Traced foreign) (hr : s.Reachable) (top : Nat) :
    (s.freeze top).2.Traced foreign := by
  rw [freeze_snd]
  exact h.link hr top

theorem Traced.chip (h : s.Traced foreign) (name : String) : (s.chip name).2.Traced foreign :=
  h.calm (errands_resolve s name .nowhere).calm fun _ _ hd =>
    (advances_resolve s name .nowhere none).definition? hd

theorem Traced.load (h : s.Traced foreign) (path text : String) :
    (s.loadSource path text).2.Traced foreign :=
  h.calm ((registers_loadSource s path text).1.calm fun _ => declared_of_mem_definitionsOf)
    fun _ _ hd => (advances_loadSource s path text none).definition? hd

/-- A report from inside that is not about a circle. -/
theorem Traced.report {p : Problem} (h : s.Traced foreign) (hp : ∀ name, p ≠ .circular name)
    (span : Span) : (s.report p span).Traced foreign :=
  h.calm (errands_report hp s span).calm fun _ d hd => ⟨d, hd, .refl d⟩

theorem Traced.run (h : s.Traced foreign) (hr : s.Reachable) {a : Action}
    (ha : a.reported? = none) : (a.run s).Traced foreign := by
  cases a with
  | emit d => cases ha
  | remount disk => exact ⟨h.blank, h.titled, h.settled, h.owned⟩
  | takeAll => exact ⟨h.blank, h.titled, h.settled, h.owned⟩
  | addSource name text => exact h.load name text
  | loadFile path =>
    show (s.loadFile path).2.Traced foreign
    unfold loadFile
    split
    · exact h.load _ _
    · exact h.report (by simp) .nowhere
  | chip name => exact h.chip name
  | addPin id p =>
    show (s.addPin id p).2.Traced foreign
    rcases s.addPin_cases id p with hadd | ⟨-, hadd⟩ | hadd
    · exact hadd ▸ h
    · exact hadd ▸ h.calm (calm_addPinTo s id p) (grown_addPinTo s id p)
    · exact hadd ▸ h.report (by simp) p.span
  | link id => exact h.link hr id
  | freeze top => exact h.freeze hr top
  | elaborate name =>
    show (s.elaborate name).2.Traced foreign
    have hchip := h.chip name
    have hreach := hr.chip name
    unfold Session.elaborate
    cases hc : s.chip name with
    | mk found s₁ =>
      rw [hc] at hchip hreach
      cases found with
      | none => exact hchip
      | some top => exact hchip.freeze hreach top

theorem reachable_after (disk : Disk) (library : Option String) (script : List Action) :
    (Session.after { disk, library } script).Reachable :=
  (Reachable.start disk library).later (later_iff_after.2 ⟨script, rfl⟩)

theorem traced_after (disk : Disk) (library : Option String) (script : List Action) :
    (Session.after { disk, library } script).Traced
      ((reported script).filter Diagnostic.isCircle) := by
  induction script using List.reverseRecOn with
  | nil =>
    have hnone : ∀ a i, (Session.after { disk, library } []).target? a i = none :=
      fun a i => by simp [Session.after, target?, part?, definition?_eq]
    refine ⟨fun a _ => hnone a, fun a i b hb => ?_, fun a b _ hb => ?_, [], List.nodup_nil,
      List.forall_mem_nil _, [], .nil, List.Perm.refl _⟩
    · rw [hnone] at hb
      cases hb
    · obtain ⟨i, hi⟩ := hb
      rw [hnone] at hi
      cases hi
  | append_singleton script a ih =>
    rw [after_append, reported, List.filterMap_append]
    cases ha : a.reported? with
    | none =>
      have hnil : [a].filterMap Action.reported? = [] := by simp [ha]
      rw [hnil, List.append_nil]
      exact ih.run (reachable_after disk library script) ha
    | some d =>
      have hd : [a].filterMap Action.reported? = [d] := by simp [ha]
      rw [hd, List.filter_append]
      cases a with
      | emit d' =>
        cases ha
        exact ih.emit d
      | _ => cases ha

theorem Reachable.traced (h : s.Reachable) : ∃ foreign, s.Traced foreign := by
  obtain ⟨disk, library, hl⟩ := reachable_iff_later.1 h
  obtain ⟨script, rfl⟩ := later_iff_after.1 hl
  exact ⟨_, traced_after disk library script⟩

theorem Reachable.titled (h : s.Reachable) : s.Titled :=
  h.traced.elim fun _ ht => ht.titled

/-! ## Reports -/

/-- The number of reports of circles at a place. -/
def circlesAt (ds : List Diagnostic) (span : Span) : Nat :=
  ds.countP fun d => d.isCircle && d.span == span

/-- After the calls of a script, the reports of circles are as they should be. -/
structure ReportsCircles (script : List Action) (s : Session) : Prop where
  /-- A report that is not from outside is about a part whose name means a chip that contains the
  chip around the part. -/
  genuine : ∀ d ∈ s.log.history, d.isCircle → d ∈ reported script ∨
    ∃ a i p b, s.part? a i = some p ∧ d = (Problem.circular p.chip).report p.span ∧
      p.resolved = some b ∧ s.Named p.chip b ∧ s.Inside b a
  /-- A part has no two reports, apart from those from outside. -/
  once : ∀ a i p, s.part? a i = some p →
    circlesAt s.log.history p.span ≤ circlesAt (reported script) p.span + 1

theorem circlesAt_eq (ds : List Diagnostic) (span : Span) :
    circlesAt ds span = (ds.filter Diagnostic.isCircle).countP (·.span == span) := by
  rw [circlesAt, List.countP_filter]
  congr 1
  funext d
  rw [Bool.and_comm]

/-- If only `x` has a partner with a property, the partners with it are no more than the `x`. -/
theorem countP_le_count_of_forall₂ {α β : Type} [BEq α] [LawfulBEq α] {R : α → β → Prop}
    {q : β → Bool} {x : α} {xs : List α} {ys : List β} (h : List.Forall₂ R xs ys)
    (hq : ∀ x' y, R x' y → q y = true → x' = x) : ys.countP q ≤ xs.count x := by
  induction h with
  | nil => exact Nat.le_refl _
  | @cons x' y xs ys hr _ ih =>
    rw [List.countP_cons, List.count_cons]
    by_cases hy : q y = true
    · rw [hq x' y hr hy]
      simpa [hy] using ih
    · rw [if_neg hy]
      omega

theorem Traced.reportsCircles {script : List Action}
    (h : s.Traced ((reported script).filter Diagnostic.isCircle)) (hp : s.Placed) :
    s.ReportsCircles script := by
  obtain ⟨owners, hn, hclose, new, hreports, hperm⟩ := h.owned
  constructor
  · intro d hd hcircle
    have hmem : d ∈ s.circles := List.mem_filter.2 ⟨hd, hcircle⟩
    rcases List.mem_append.1 (hperm.mem_iff.1 hmem) with hforeign | hnew
    · exact .inl (List.mem_filter.1 hforeign).1
    · obtain ⟨o, ho, hod⟩ : ∃ o ∈ owners, s.circleAt? o = some d := by
        obtain ⟨i, hlt, rfl⟩ := List.mem_iff_getElem.1 hnew
        have hlen := hreports.length_eq
        exact ⟨owners[i], List.getElem_mem (by omega), hreports.get (by omega) hlt⟩
      obtain ⟨b, hb, hback⟩ := hclose o ho
      obtain ⟨p, hpart, hnamed⟩ := h.titled _ _ b hb
      have hres : p.resolved = some b := by
        rw [target?, hpart, Option.bind_some] at hb
        exact hb
      rw [circleAt?, hpart, Option.map_some, Option.some.injEq] at hod
      exact .inr ⟨o.1, o.2, p, b, hpart, hod.symm, hres, hnamed, hback⟩
  · intro a i p hpart
    have hone : new.countP (·.span == p.span) ≤ owners.count (a, i) := by
      refine countP_le_count_of_forall₂ hreports fun o d hod hspan => ?_
      obtain ⟨p', hp', rfl⟩ := Option.map_eq_some_iff.1 hod
      have hplace : p'.span = p.span := by simpa [Problem.report] using hspan
      obtain ⟨ha, hi⟩ := hp.part_unique hp' hpart (by rw [hplace])
      exact Prod.ext ha hi
    have hcount := List.nodup_iff_count_le_one.1 hn (a, i)
    rw [circlesAt_eq, circlesAt_eq]
    have hall := hperm.countP_eq (·.span == p.span)
    rw [List.countP_append] at hall
    have : s.log.history.filter Diagnostic.isCircle = s.circles := rfl
    rw [this]
    omega

/-! ## What a link finds -/

/-- Linking the chip finds the circles that it should. -/
structure FindsCircles (s : Session) (id : Nat) : Prop where
  /-- The walk comes to an end before any limit on its depth. -/
  ends : s.status? id = some .unlinked → ∀ depth, s.chipBound ≤ depth →
    linkFresh (linkWithin depth) id s = s.link id
  /-- If nothing inside was linked before, there is a report exactly if there is a circle inside. -/
  finds : (∀ a, (s.link id).2.Inside id a → s.linkResult? a = none) →
    ((∃ d ∈ (s.link id).2.log.history.drop s.log.history.length, d.isCircle) ↔
      ∃ a, (s.link id).2.Inside id a ∧ (s.link id).2.Circular a)
  /-- Every chip inside that reaches a circle has failed. -/
  fails : ∀ a c, (s.link id).2.Inside id a → (s.link id).2.Inside a c → (s.link id).2.Circular c →
    (s.link id).2.linkResult? a = some false

theorem linked_iff_linkResult? {a : Nat} : s.Linked a ↔ s.linkResult? a ≠ none := by
  constructor
  · rintro ⟨ok, hok⟩
    rw [linkResult?_of_status hok]
    simp
  · intro h
    obtain ⟨ok, hok⟩ := Option.ne_none_iff_exists'.1 h
    exact ⟨ok, status_of_linkResult? hok⟩

/-- A walk without a report has found all chips inside, and none of them is on a circle. -/
theorem Tour.not_circular {path : List Nat} (h : Tour path s s' []) (hl : s'.Linked id)
    (hfresh : ∀ a, s'.Inside id a → ¬ s.Linked a) : ∀ c, s'.Inside id c → ¬ s'.Circular c := by
  have hall := h.grounded rfl s' (.refl s')
    (fun x => s'.Inside id x → ∀ c, s'.Inside x c → ¬ s'.Circular c)
    (fun x hx hin => not_circular_of_targets fun b hb => hx b hb (.tail hin hb))
    (fun x hx hin => absurd hx (hfresh x hin))
  exact hall id hl .refl

theorem Traced.linked_of_inside {a b : Nat} (h : s.Traced foreign) (ha : s.Linked a)
    (hb : s.Inside a b) : s.Linked b := by
  induction hb with
  | refl => exact ha
  | tail _ hc ih => exact h.settled _ _ ih hc

theorem Reachable.findsCircles (h : s.Reachable) (ht : s.Traced foreign) {d : Definition}
    (hd : s.definition? id = some d) : s.FindsCircles id := by
  obtain ⟨owners, htour, hg⟩ := h.tour_link ht.blank id
  have hlinked : (s.link id).2.Linked id := ⟨_, h.status_link hd⟩
  have ht' := ht.link h id
  refine ⟨fun hs depth hdepth => h.link_deeper ht.blank hs hdepth, fun hfresh => ?_,
    fun a c hin hac hc => ?_⟩
  · have hfresh' : ∀ a, (s.link id).2.Inside id a → ¬ s.Linked a :=
      fun a ha hl => linked_iff_linkResult?.1 hl (hfresh a ha)
    obtain ⟨new, hcircles, hreports⟩ := htour.reports
    -- the reports of circles among the new diagnostics are those with owners
    have hnew : ((s.link id).2.log.history.drop s.log.history.length).filter
        Diagnostic.isCircle = new := by
      obtain ⟨more, hmore⟩ := (advances_link s id).log
      have hfilter : (s.link id).2.circles = s.circles ++ more.filter Diagnostic.isCircle := by
        rw [circles, ← hmore, List.filter_append]
        rfl
      rw [← hmore, List.drop_left]
      exact List.append_cancel_left (hfilter.symm.trans hcircles)
    have hexists : (∃ d ∈ (s.link id).2.log.history.drop s.log.history.length,
        d.isCircle = true) ↔ new ≠ [] := by
      rw [← hnew, Ne, List.filter_eq_nil_iff]
      simp
    rw [hexists]
    constructor
    · intro hne
      cases hreports with
      | nil => exact absurd rfl hne
      | @cons o d owners new ho _ =>
        obtain ⟨⟨b, hb, hback⟩, hin⟩ :=
          hg _ (.refl _) (List.forall_mem_nil _) o List.mem_cons_self
        exact ⟨o.1, hin, .head' ⟨o.2, hb⟩ hback⟩
    · rintro ⟨c, hc, hcircle⟩ rfl
      obtain rfl := List.forall₂_nil_right_iff.1 hreports
      exact htour.not_circular hlinked hfresh' c hc hcircle
  · obtain ⟨ok, hok⟩ := ht'.linked_of_inside hlinked hin
    cases ok with
    | false => exact linkResult?_of_status hok
    | true =>
      have hfinished := (h.link id).sound.finished a hok
      exact absurd hc (hfinished.not_circular c hac)

/-- **Circular instantiation.** -/
theorem circular_instantiation (disk : Disk) (library : Option String) (script : List Action) :
    (Session.after { disk, library } script).ReportsCircles script ∧
      ∀ id d, (Session.after { disk, library } script).definition? id = some d →
        (Session.after { disk, library } script).FindsCircles id :=
  have ht := traced_after disk library script
  ⟨ht.reportsCircles (placed_after disk library script),
    fun _ _ hd => (reachable_after disk library script).findsCircles ht hd⟩

/-- Two chips contain each other, and one of them also itself. A third chip contains both and a
gate. -/
def entangled : Session :=
  Session.after { disk := .empty }
    [.addSource "A.hdl" "CHIP A{PARTS:B();}", .addSource "B.hdl" "CHIP B{PARTS:A();B();}",
      .addSource "T.hdl" "CHIP T{IN x;OUT y;PARTS:Not(in=x,out=y);A();B();}"]

/-- Both circles are reported, and all three chips fail. -/
theorem circular_instantiation_entangled :
    (∃ d ∈ (entangled.link 2).2.log.history.drop entangled.log.history.length, d.isCircle) ∧
      (entangled.link 2).2.circles.length = 2 ∧
      (entangled.link 2).2.linkResult? 0 = some false ∧
      (entangled.link 2).2.linkResult? 1 = some false ∧
      (entangled.link 2).2.linkResult? 2 = some false ∧
      (entangled.link 2).2.linkResult? 3 = some true := by
  have hruns : (∀ e ∈ entangled.chips, e.status = .unlinked) ∧
      (entangled.definition? 2).isSome ∧ (entangled.link 2).2.target? 2 1 = some 0 ∧
      (entangled.link 2).2.target? 0 0 = some 1 ∧ (entangled.link 2).2.target? 1 0 = some 0 ∧
      (entangled.link 2).2.circles.length = 2 ∧
      (entangled.link 2).2.linkResult? 3 = some true := by decide +kernel
  obtain ⟨hun, hsome, htop, hdown, hback, hcount, hgate⟩ := hruns
  have hfresh : ∀ a, entangled.linkResult? a = none := by
    intro a
    cases he : entangled.chips[a]? with
    | none => simp [linkResult?, status?_eq, he]
    | some e => simp [linkResult?, status?_eq, he, hun e (Array.mem_of_getElem? he)]
  obtain ⟨d, hd⟩ := Option.isSome_iff_exists.1 hsome
  have hfinds := (circular_instantiation .empty none _).2 2 d hd
  have hin : (entangled.link 2).2.Inside 2 0 := .single ⟨1, htop⟩
  have h01 : (entangled.link 2).2.Contains 0 1 := ⟨0, hdown⟩
  have h10 : (entangled.link 2).2.Contains 1 0 := ⟨0, hback⟩
  have hcircle : (entangled.link 2).2.Circular 0 := .tail (.single h01) h10
  exact ⟨(hfinds.finds fun a _ => hfresh a).2 ⟨0, hin, hcircle⟩, hcount,
    hfinds.fails 0 0 hin .refl hcircle, hfinds.fails 1 0 (.tail hin h01) (.single h10) hcircle,
    hfinds.fails 2 0 .refl hin hcircle, hgate⟩

end Session

end ChipLogic
