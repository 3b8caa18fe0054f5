import ChipLogic.Proofs.Session.Circles
import ChipLogic.Proofs.Session.Registry

/-!
# Linking is a tour

The walk of a link, function by function, is a tour with genuine reports (`Session.Explores`). The
induction is on the depth to which parts are followed. It needs to know where the walk is
(`Session.Descent`): the chips in progress are those on the way down, and all keys lie under one
roof.

**The depth never runs out.** Chips on the way down are distinct, so there are not more of them than
keys (`Session.Descent.length_le`), and a limit on the depth that is no smaller is never met
(`Session.explores_linkWithin`). Looking deeper changes nothing (`Session.linkFresh_deeper`).
-/

namespace ChipLogic

namespace Session

variable {K : List String} {s s' : Session} {path : List Nat} {parent child index : Nat}
  {owners : List (Nat × Nat)} {linkChild : ChildLinker}

/-! ## The way down -/

/-- The session in the middle of linking the chips on `path`. -/
structure Descent (K : List String) (path : List Nat) (s : Session) : Prop where
  sound : s.Sound
  roofed : s.Roofed K
  blank : s.Blank
  nodup : path.Nodup
  inProgress : ∀ id, s.status? id = some .inProgress ↔ id ∈ path

/-- **The way down is no longer than there are keys.** -/
theorem Descent.length_le (h : Descent K path s) : path.length ≤ K.length := by
  have hsub : path ⊆ List.range s.chips.size := by
    intro id hid
    obtain ⟨e, he, -⟩ := status?_eq_some_iff.1 ((h.inProgress id).2 hid)
    obtain ⟨hlt, -⟩ := Array.getElem?_eq_some_iff.1 he
    exact List.mem_range.2 hlt
  have hle := (List.subperm_of_subset h.nodup hsub).length_le
  rw [List.length_range] at hle
  exact Nat.le_trans hle (h.roofed.size_le h.sound)

theorem Descent.tour {work : Option Nat} (h : Descent K path s) (ht : Tour path s s' owners)
    (hm : Moves s s') (ha : Advances work s s') : Descent K path s' where
  sound := ha.sound h.sound
  roofed := h.roofed.moves hm
  blank := ht.blank h.blank
  nodup := h.nodup
  inProgress id := (ht.inProgress id).trans (h.inProgress id)

theorem Descent.resolve (h : Descent K path s) (name : String) (span : Span) :
    Descent K path (s.resolve name span).2 :=
  h.tour (.of_calm path (errands_resolve s name span).calm) (errands_resolve s name span).moves
    (advances_resolve s name span none)

/-- A linker of the chips of parts below `path`: it reports a chip on the way down, and otherwise
makes a tour that ends with the chip linked. -/
def Explores (K : List String) (path : List Nat) (linkChild : ChildLinker) : Prop :=
  ∀ child name span s, Descent K path s → (s.status? child).isSome →
    child ∈ path ∧ linkChild child name span s = (false, s.report (.circular name) span) ∨
    ∃ owners, Tour path s (linkChild child name span s).2 owners ∧
      Genuine path child (linkChild child name span s).2 owners ∧
      (linkChild child name span s).2.Linked child

/-! ## Setting a link or a status -/

theorem definition?_setStatus (s : Session) (id : Nat) (status : LinkStatus) (a : Nat) :
    (s.setStatus id status).definition? a = s.definition? a := by
  simp only [Session.definition?_eq, chips_setStatus, Array.getElem?_modify]
  split
  · cases s.chips[a]? <;> rfl
  · rfl

theorem part?_setStatus (s : Session) (id : Nat) (status : LinkStatus) (a i : Nat) :
    (s.setStatus id status).part? a i = s.part? a i := by
  rw [part?, part?, definition?_setStatus]

theorem target?_setStatus (s : Session) (id : Nat) (status : LinkStatus) (a i : Nat) :
    (s.setStatus id status).target? a i = s.target? a i := by
  rw [target?, target?, part?_setStatus]

theorem circleAt?_setStatus (s : Session) (id : Nat) (status : LinkStatus) (o : Nat × Nat) :
    (s.setStatus id status).circleAt? o = s.circleAt? o := by
  rw [circleAt?, circleAt?, part?_setStatus]

theorem status?_setLink (s : Session) (id index : Nat) (link : Link) (a : Nat) :
    (s.setLink id index link).status? a = s.status? a :=
  rfl

theorem part?_setLink_of_ne (s : Session) {id a : Nat} (h : id ≠ a) (index : Nat) (link : Link)
    (i : Nat) : (s.setLink id index link).part? a i = s.part? a i := by
  simp [part?, Session.definition?_eq, setLink, chips_modifyDefinition, Array.getElem?_modify, h]

theorem target?_setLink {p : Part} (hp : s.part? parent index = some p) (link : Link) (a i : Nat) :
    (s.setLink parent index link).target? a i =
      if parent = a ∧ index = i then some link.chip else s.target? a i := by
  by_cases ha : parent = a
  · subst ha
    rw [target?, part?_setLink hp]
    by_cases hi : index = i
    · simp [hi, Part.resolved]
    · simp [hi, target?]
  · simp [ha, target?, part?_setLink_of_ne s ha]

theorem circleAt?_setLink {p : Part} (hp : s.part? parent index = some p) (link : Link)
    (o : Nat × Nat) : (s.setLink parent index link).circleAt? o = s.circleAt? o := by
  by_cases ha : parent = o.1
  · rw [circleAt?, circleAt?, ← ha, part?_setLink hp]
    split
    · next hi => rw [← hi, hp]; rfl
    · rfl
  · rw [circleAt?, circleAt?, part?_setLink_of_ne s ha]

/-- **Moves make no edge that means nothing.** -/
theorem Titled.move (h : s.Titled) (hm : Move s s') : s'.Titled := by
  cases hm with
  | errand he => exact h.calm he.grown he.calm
  | circle name span => exact h
  | setStatus id status =>
    have hd : ∀ a, (s.setStatus id status).definition? a = s.definition? a :=
      definition?_setStatus s id status
    refine h.grown (fun a d ha => ⟨d, by rw [hd, ha], .refl d⟩) fun a i b ht => .inl ?_
    rwa [target?, part?, hd] at ht
  | setLink part named =>
    rename_i id index p link
    have hg : Grown s (s.setLink id index link) :=
      grown_modifyDefinition s id fun d _ => .setLink d index link
    refine h.grown hg fun a i b ht => ?_
    rw [target?_setLink part] at ht
    split at ht
    · next hai =>
      obtain ⟨rfl, rfl⟩ := hai
      obtain rfl := Option.some.inj ht
      refine .inr ⟨{ p with link := some link }, ?_, hg.named named⟩
      rw [part?_setLink part, if_pos rfl]
    · exact .inl ht

theorem Titled.moves (h : s.Titled) (hm : Moves s s') : s'.Titled := by
  induction hm with
  | refl => exact h
  | tail _ hm ih => exact ih.move hm

/-- A new edge from a chip in progress. -/
theorem tour_setLink {p : Part} (hp : s.part? parent index = some p)
    (hs : s.status? parent = some .inProgress) (hn : s.target? parent index = none) (link : Link)
    (path : List Nat) : Tour path s (s.setLink parent index link) [] := by
  have hstatus := status?_setLink s parent index link
  have htarget := target?_setLink hp link
  have hlinked : ∀ a, (s.setLink parent index link).Linked a ↔ s.Linked a := by
    intro a
    rw [Linked, Linked, hstatus]
  have hother : ∀ a, s.status? a ≠ some .inProgress → ∀ i,
      (s.setLink parent index link).target? a i = s.target? a i := by
    intro a ha i
    rw [htarget, if_neg]
    rintro ⟨rfl, -⟩
    exact ha hs
  refine
    { circleAt := fun o d hd => by rw [circleAt?_setLink hp, hd]
      target := fun a i b hb => ?_
      linked := fun a ha => ⟨(hlinked a).2 ha, hother a ?_⟩
      reports := ⟨[], (List.append_nil _).symm, .nil⟩
      nodup := List.nodup_nil
      before := List.forall_mem_nil _
      after := List.forall_mem_nil _
      inProgress := fun a => by rw [hstatus]
      blank := fun hb a ha i => ?_
      closed := fun f _ _ x hx => .inl ((hlinked x).1 hx)
      grounded := fun _ f _ P _ hP x hx => hP x ((hlinked x).1 hx) }
  · rw [htarget]
    split
    · next he =>
      obtain ⟨rfl, rfl⟩ := he
      rw [hn] at hb
      cases hb
    · exact hb
  · obtain ⟨ok, hok⟩ := ha
    rw [hok]
    simp
  · rw [hstatus] at ha
    rw [hother a (by rw [ha]; simp)]
    exact hb a ha i

/-- A tour that starts with the report of a part, which gets its edge on the way. -/
theorem Tour.of_report {name : String} {span : Span} {o : Nat × Nat}
    (h : Tour path (s.report (.circular name) span) s' [])
    (hd : s.circleAt? o = some ((Problem.circular name).report span))
    (hn : s.target? o.1 o.2 = none) (ho : ∃ b, s'.target? o.1 o.2 = some b) :
    Tour path s s' [o] where
  circleAt := h.circleAt
  target := h.target
  linked := h.linked
  reports := by
    obtain ⟨new, hnew, hnil⟩ := h.reports
    obtain rfl := List.forall₂_nil_left_iff.1 hnil
    refine ⟨[(Problem.circular name).report span], ?_, .cons (h.circleAt o _ hd) .nil⟩
    rw [hnew, List.append_nil]
    exact circles_emitAll s [(Problem.circular name).report span]
  nodup := List.nodup_singleton o
  before := List.forall_mem_singleton.2 hn
  after := List.forall_mem_singleton.2 ho
  inProgress := h.inProgress
  blank := h.blank
  closed := h.closed
  grounded ho := by cases ho

/-! ## Parts -/

/-- What linking the part at `index` comes to. -/
structure PartToured (path : List Nat) (parent index : Nat) (s s' : Session)
    (owners : List (Nat × Nat)) : Prop where
  tour : Tour path s s' owners
  genuine : Genuine path parent s' owners
  target : ∀ b, s'.target? parent index = some b → s'.Linked b ∨ b ∈ path ∧ owners ≠ []

/-- **To link a part is a tour.** -/
theorem partToured_linkPart (hl : Links linkChild) (he : Explores K path linkChild)
    (h : Descent K path s) (hp : parent ∈ path) (hn : s.target? parent index = none) :
    ∃ owners, PartToured path parent index s (linkPart linkChild parent index s).2 owners := by
  have hin := (h.inProgress parent).2 hp
  have hrun := partRun_linkPart linkChild parent index s
  generalize linkPart linkChild parent index s = r at hrun ⊢
  cases hrun with
  | absent => exact ⟨[], .refl path s, .nil path parent s, fun b hb => by rw [hn] at hb; cases hb⟩
  | unresolved _ hr =>
    have hr := (errands_of_resolve hr).calm
    have hn₁ := (hr.target parent index).trans hn
    exact ⟨[], .of_calm path hr, .nil path parent _, fun b hb => by rw [hn₁] at hb; cases hb⟩
  | @steps part child ok good wires s₁ s₂ s₃ s₄ hsteps =>
    have hr := (errands_of_resolve hsteps.resolved).calm
    have hw := (hsteps.paces hl hin).errands
    have hp₄ := hsteps.found_warned hl hin
    have h₁ := h.resolve part.chip part.span
    have hsome := fun child => @exists_definition_of_resolve s child part.chip part.span
    rw [hsteps.resolved] at h₁ hsome
    obtain ⟨d, hd⟩ := hsome child rfl
    have hin₁ := (h₁.inProgress parent).2 hp
    have hn₁ := (hr.target parent index).trans hn
    have hn₄ : s₄.target? parent index = none := by
      rw [target?, hp₄, ← hsteps.found]
      exact hn
    have hedge : (s₄.setLink parent index ⟨child, wires.filterMap id⟩).target? parent index =
        some child := by
      rw [target?_setLink hp₄, if_pos ⟨rfl, rfl⟩]
    have hstatus : (s₁.status? child).isSome := by
      obtain ⟨e, hchild, -⟩ := definition?_eq_some_iff.1 hd
      rw [status?_of_entry hchild]
      rfl
    have hin₄ := (hsteps.connects_warned hl hin).status_inProgress hin
    have hlast : Tour path s₂ (s₄.setLink parent index ⟨child, wires.filterMap id⟩) [] :=
      (Tour.of_calm path hw.calm).trans (tour_setLink hp₄ hin₄ hn₄ _ path)
    rcases he child part.chip part.span s₁ h₁ hstatus with ⟨hc, hreport⟩ | ⟨owners, ht, hg, hlinked⟩
    · -- the chip of the part is on the way down
      obtain ⟨rfl, rfl⟩ := Prod.mk.inj (hsteps.linked.symm.trans hreport)
      have hp₁ : s₁.part? parent index = some part :=
        ((Connects.of_none hin (advances_of_resolve hsteps.resolved)).parts index).trans hsteps.found
      have hcircle : s₁.circleAt? (parent, index) =
          some ((Problem.circular part.chip).report part.span) := by
        rw [circleAt?, hp₁]
        rfl
      have htour := hlast.of_report hcircle hn₁ ⟨child, hedge⟩
      refine ⟨[(parent, index)], (Tour.of_calm path hr).trans htour, fun f hf hpath => ?_, ?_⟩
      · have hback := hpath child hc
        exact List.forall_mem_singleton.2 ⟨⟨child, hf.target _ _ _ hedge, hback⟩, .refl⟩
      · intro b hb
        rw [hedge, Option.some.injEq] at hb
        exact .inr ⟨hb ▸ hc, by simp⟩
    · -- the chip of the part has been linked, now or before
      rw [hsteps.linked] at ht hg hlinked
      have htour : Tour path s _ (owners ++ []) :=
        (Tour.of_calm path hr).trans (ht.trans hlast)
      rw [List.append_nil] at htour
      refine ⟨owners, htour, fun f hf hpath o ho => ?_, fun b hb => .inl ?_⟩
      · -- the part leads down to its chip, and so do all chips above
        have hdown : f.Contains parent child := ⟨index, hf.target _ _ _ hedge⟩
        obtain ⟨hclose, hinside⟩ := hg f (hlast.toCarries.trans hf)
          (fun x hx => .tail (hpath x hx) hdown) o ho
        exact ⟨hclose, .head hdown hinside⟩
      · rw [hedge, Option.some.injEq] at hb
        exact hb ▸ (hlast.toCarries.linked child hlinked).1

/-- **To link the parts of a chip is a tour.** -/
theorem tour_linkParts (hl : Links linkChild)
    (hm : ∀ child name span s, Strides s (linkChild child name span s).2)
    (he : Explores K path linkChild) {indices : List Nat} (hi : indices.Nodup)
    (h : Descent K path s) (hp : parent ∈ path) (hn : ∀ i ∈ indices, s.target? parent i = none) :
    ∃ owners, Tour path s (linkParts linkChild parent indices s).2 owners ∧
      Genuine path parent (linkParts linkChild parent indices s).2 owners ∧
      ∀ i ∈ indices, ∀ b, (linkParts linkChild parent indices s).2.target? parent i = some b →
        (linkParts linkChild parent indices s).2.Linked b ∨ b ∈ path ∧ owners ≠ [] := by
  induction indices generalizing s with
  | nil => exact ⟨[], .refl path s, .nil path parent s, List.forall_mem_nil _⟩
  | cons index indices ih =>
    obtain ⟨hfresh, hi'⟩ := List.nodup_cons.1 hi
    obtain ⟨hnone, hn'⟩ := List.forall_mem_cons.1 hn
    have hin := (h.inProgress parent).2 hp
    obtain ⟨owners, ht, hg, hb⟩ := partToured_linkPart hl he h hp hnone
    have hstep := linksPart_linkPart hl index hin
    have h' := h.tour ht (strides_linkPart hl hm index hin).moves hstep.advances
    have hn'' : ∀ i ∈ indices,
        (linkPart linkChild parent index s).2.target? parent i = none := by
      intro i hmem
      rw [target?, hstep.others i (by rintro rfl; exact hfresh hmem)]
      exact hn' i hmem
    obtain ⟨owners', ht', hg', hb'⟩ := ih hi' h' hn''
    have hrest := linkParts_spec hl hi' ((h'.inProgress parent).2 hp)
    refine ⟨owners ++ owners', ht.trans ht', hg.append ht'.toCarries hg', ?_⟩
    refine List.forall_mem_cons.2 ⟨fun b hb₀ => ?_, fun i hmem b hb₀ => ?_⟩
    · -- the edge of the first part was there before the others were linked
      have hsame : (linkParts linkChild parent (index :: indices) s).2.target? parent index =
          (linkPart linkChild parent index s).2.target? parent index := by
        rw [target?, target?]
        exact congrArg (·.bind Part.resolved) (hrest.2.1 index hfresh)
      rw [hsame] at hb₀
      rcases hb b hb₀ with hlinked | ⟨hmem, hne⟩
      · exact .inl (ht'.toCarries.linked b hlinked).1
      · exact .inr ⟨hmem, by simp [hne]⟩
    · rcases hb' i hmem b hb₀ with hlinked | ⟨hmem, hne⟩
      · exact .inl hlinked
      · exact .inr ⟨hmem, by simp [hne]⟩

/-! ## Chips -/

theorem linked_setStatus_iff {status₀ : LinkStatus} (hs : s.status? child = some status₀)
    (status : LinkStatus) (a : Nat) : (s.setStatus child status).Linked a ↔
      if child = a then ∃ ok, status = .linked ok else s.Linked a := by
  simp only [Linked, status?_setStatus_eq]
  split
  · next ha => subst ha; simp [hs]
  · rfl

/-- A status brings no edges. -/
theorem Blank.setStatus {status : LinkStatus} (h : s.Blank) (hne : status ≠ .unlinked) :
    (s.setStatus child status).Blank := by
  intro a ha i
  rw [status?_setStatus_eq] at ha
  rw [target?_setStatus]
  split at ha
  · obtain ⟨_, -, he⟩ := Option.map_eq_some_iff.1 ha
    exact absurd he hne
  · exact h a ha i

/-- To mark a chip as linked takes nothing away. -/
theorem carries_setStatus {status₀ : LinkStatus} (hs : s.status? child = some status₀) (ok : Bool) :
    Carries s (s.setStatus child (.linked ok)) where
  circleAt o d hd := by rw [circleAt?_setStatus, hd]
  target a i b hb := by rw [target?_setStatus, hb]
  linked a ha := by
    refine ⟨(linked_setStatus_iff hs _ a).2 ?_, target?_setStatus s child _ a⟩
    split
    · exact ⟨ok, rfl⟩
    · exact ha

theorem Descent.start (h : Descent K path s) (hs : s.status? child = some .unlinked) :
    Descent K (child :: path) (s.setStatus child .inProgress) where
  sound := (advances_start hs).sound h.sound
  roofed := h.roofed.move (.setStatus s child _)
  blank := h.blank.setStatus (by simp)
  nodup := by
    refine List.nodup_cons.2 ⟨fun hmem => ?_, h.nodup⟩
    have hin := (h.inProgress child).2 hmem
    rw [hs] at hin
    cases hin
  inProgress a := by
    rw [status?_setStatus_eq, List.mem_cons, ← h.inProgress a]
    split
    · next ha => simp [← ha, hs]
    · next ha => simp [Ne.symm ha]

/-- Between its start and its end a chip is on the way down. -/
theorem Tour.finish (h : Tour (child :: path) (s.setStatus child .inProgress) s' owners)
    (hs : s.status? child = some .unlinked) (ok : Bool)
    (hb : ∀ i b, s'.target? child i = some b → s'.Linked b ∨ b ∈ child :: path ∧ owners ≠ []) :
    Tour path s (s'.setStatus child (.linked ok)) owners := by
  have hin : (s.setStatus child .inProgress).status? child = some .inProgress := by
    rw [status?_setStatus_eq, if_pos rfl, hs]
    rfl
  have hstart : ∀ a, (s.setStatus child .inProgress).Linked a ↔ s.Linked a := by
    intro a
    rw [linked_setStatus_iff hs]
    split
    · next ha => subst ha; simp [Linked, hs]
    · rfl
  have hend : ∀ a, (s'.setStatus child (.linked ok)).Linked a ↔ a = child ∨ s'.Linked a := by
    intro a
    rw [linked_setStatus_iff ((h.inProgress child).2 hin)]
    split
    · next ha => simp [ha]
    · next ha => simp [Ne.symm ha]
  have hcarry := carries_setStatus ((h.inProgress child).2 hin) ok
  -- the edges of the chip itself
  have hedges : ∀ f, Carries (s'.setStatus child (.linked ok)) f → ∀ b, f.Contains child b →
      s'.Linked b ∨ b ∈ child :: path ∧ owners ≠ [] := by
    rintro f hf b ⟨i, hi⟩
    rw [(hf.linked child ((hend child).2 (.inl rfl))).2 i, target?_setStatus] at hi
    exact hb i b hi
  refine
    { circleAt := fun o d hd =>
        hcarry.circleAt o d (h.circleAt o d (by rw [circleAt?_setStatus, hd]))
      target := fun a i b hb =>
        hcarry.target a i b (h.target a i b (by rw [target?_setStatus, hb]))
      linked := fun a ha => ?_
      reports := ?_
      nodup := h.nodup
      before := fun o ho => by rw [← target?_setStatus s child .inProgress, h.before o ho]
      after := fun o ho => by simpa only [target?_setStatus] using h.after o ho
      inProgress := fun a => ?_
      blank := fun hb => (h.blank (hb.setStatus (by simp))).setStatus (by simp)
      closed := fun f hf hp x hx => ?_
      grounded := fun ho f hf P hstep hP x hx => ?_ }
  · obtain ⟨hl, ht⟩ := h.linked a ((hstart a).2 ha)
    exact ⟨(hend a).2 (.inr hl), fun i => by
      rw [target?_setStatus, ht, target?_setStatus]⟩
  · obtain ⟨new, hnew, ho⟩ := h.reports
    exact ⟨new, hnew, ho.imp hcarry.circleAt⟩
  · rw [status?_setStatus_eq]
    split
    · next ha =>
      subst ha
      simp [hs]
    · next ha => rw [h.inProgress a, status?_setStatus_eq, if_neg ha]
  · have hchild : f.Linked child := (hf.linked child ((hend child).2 (.inl rfl))).1
    have hpath : ∀ x ∈ child :: path, f.Linked x := List.forall_mem_cons.2 ⟨hchild, hp⟩
    rcases (hend x).1 hx with rfl | hx
    · refine .inr fun b hb₀ => ?_
      rcases hedges f hf b hb₀ with hlinked | ⟨hmem, -⟩
      · exact (hf.linked b ((hend b).2 (.inr hlinked))).1
      · exact hpath b hmem
    · exact (h.closed f (hcarry.trans hf) hpath x hx).imp (hstart x).1 fun hall => hall
  · have hinner := h.grounded ho f (hcarry.trans hf) P hstep fun x hx => hP x ((hstart x).1 hx)
    rcases (hend x).1 hx with rfl | hx
    · refine hstep x fun b hb₀ => ?_
      rcases hedges f hf b hb₀ with hlinked | ⟨-, hne⟩
      · exact hinner b hlinked
      · exact absurd ho hne
    · exact hinner x hx

/-- A gate has no parts, so it is linked without a walk. -/
theorem tour_linkGate {d : Definition} (h : Descent K path s)
    (hs : s.status? child = some .unlinked) (hd : s.definition? child = some d)
    (hg : d.gate.isSome) : Tour path s (s.setStatus child (.linked true)) [] := by
  obtain ⟨g, hg⟩ := Option.isSome_iff_exists.1 hg
  have hparts := ((h.sound.sane_definition hd).gate g hg).2
  have hnone : ∀ i, (s.setStatus child .inProgress).target? child i = none := by
    intro i
    rw [target?_setStatus]
    simp [target?, part?, hd, hparts]
  have hrefl : Tour (child :: path) (s.setStatus child .inProgress)
      (s.setStatus child .inProgress) [] := .refl _ _
  have htour := hrefl.finish hs true fun i b hb => by rw [hnone] at hb; cases hb
  -- the chip need not be in progress in between
  rwa [setStatus_setStatus] at htour

/-- **To link a chip is a tour.** -/
theorem tour_linkFresh (hl : Links linkChild)
    (hm : ∀ child name span s, Strides s (linkChild child name span s).2)
    (he : Explores K (child :: path) linkChild) (h : Descent K path s)
    (hs : s.status? child = some .unlinked) :
    ∃ owners, Tour path s (linkFresh linkChild child s).2 owners ∧
      Genuine path child (linkFresh linkChild child s).2 owners := by
  obtain ⟨e, hentry, -⟩ := status?_eq_some_iff.1 hs
  have hd : s.definition? child = some e.definition := definition?_of_entry hentry
  have hrun := freshRun_linkFresh linkChild hs
  generalize linkFresh linkChild child s = r at hrun ⊢
  cases hrun with
  | gate found hg => exact ⟨[], tour_linkGate h hs found hg, .nil _ _ _⟩
  | @parts d ok s₂ s₃ found _ run warned =>
    obtain rfl : e.definition = d := Option.some.inj (hd.symm.trans found)
    have h₁ := h.start hs
    have hp : child ∈ child :: path := List.mem_cons_self
    have hin₁ := (h₁.inProgress child).2 hp
    have hrange : (List.range e.definition.parts.size).Nodup := List.nodup_range
    obtain ⟨owners, ht, hgen, hb⟩ := tour_linkParts hl hm he hrange h₁ hp fun i _ => by
      rw [target?_setStatus]
      exact h.blank child hs i
    have hspec := (linkParts_spec hl hrange hin₁).1
    rw [run] at ht hgen hb hspec
    have hwarn : Calm s₂ s₃ := by
      rw [warned]
      split
      · exact (paces_warnUndriven s₂ child).errands.calm
      · exact .refl s₂
    refine ⟨owners, (ht.trans_calm hwarn).finish hs ok fun i b hb₀ => ?_, fun f hf hpath => ?_⟩
    · rw [hwarn.target] at hb₀
      refine (hb i ?_ b hb₀).imp_left (hwarn.linked_iff b).2
      -- there is an edge only where there is a part
      obtain ⟨p, hpart, -⟩ := Option.bind_eq_some_iff.1 hb₀
      obtain ⟨d₂, hd₂, hi⟩ := definition?_of_part? hpart
      have hd₁ : (s.setStatus child .inProgress).definition? child = some e.definition := by
        rw [Session.definition?_eq, chips_setStatus, getElem?_modify_eq hentry, if_pos rfl]
        rfl
      obtain ⟨d', hd', hgrows⟩ := hspec.definition? hd₁
      rw [hd₂, Option.some.injEq] at hd'
      subst hd'
      obtain ⟨hlt, -⟩ := Array.getElem?_eq_some_iff.1 hi
      rw [hgrows.size_parts] at hlt
      exact List.mem_range.2 hlt
    · have hin₃ := (hwarn.status?_iff child (by simp)).2 ((ht.inProgress child).2 hin₁)
      have hcarry : Carries s₂ f := hwarn.carries.trans ((carries_setStatus hin₃ ok).trans hf)
      exact hgen f hcarry (List.forall_mem_cons.2 ⟨.refl, hpath⟩)

/-- **A limit on the depth is not met** as long as it is no smaller than the number of keys. -/
theorem explores_linkWithin (depth : Nat) {path : List Nat}
    (hdepth : K.length < depth + path.length) : Explores K path (linkWithin depth) := by
  induction depth generalizing path with
  | zero =>
    intro child name span s h
    have := h.length_le
    omega
  | succ depth ih =>
    intro child name span s h hsome
    obtain ⟨status, hs⟩ := Option.isSome_iff_exists.1 hsome
    unfold linkWithin
    rw [hs]
    cases status with
    | linked ok => exact .inr ⟨[], .refl path s, .nil path child s, ok, hs⟩
    | inProgress => exact .inl ⟨(h.inProgress child).1 hs, rfl⟩
    | unlinked =>
      have hdeep : K.length < depth + (child :: path).length := by
        rw [List.length_cons]
        omega
      obtain ⟨owners, ht, hg⟩ :=
        tour_linkFresh (links_linkWithin depth) (strides_linkWithin depth) (ih hdeep) h hs
      exact .inr ⟨owners, ht, hg, _, (linkFresh_spec (links_linkWithin depth) hs).2⟩

/-! ## Looking deeper -/

theorem linkParts_congr {linkChild' : ChildLinker} (hl : Links linkChild)
    (hm : ∀ child name span s, Strides s (linkChild child name span s).2)
    (he : Explores K path linkChild)
    (heq : ∀ child name span s, Descent K path s → (s.status? child).isSome →
      linkChild' child name span s = linkChild child name span s)
    {indices : List Nat} (hi : indices.Nodup) (h : Descent K path s) (hp : parent ∈ path)
    (hn : ∀ i ∈ indices, s.target? parent i = none) :
    linkParts linkChild' parent indices s = linkParts linkChild parent indices s := by
  induction indices generalizing s with
  | nil => rfl
  | cons index indices ih =>
    obtain ⟨hfresh, hi'⟩ := List.nodup_cons.1 hi
    obtain ⟨hnone, hn'⟩ := List.forall_mem_cons.1 hn
    have hin := (h.inProgress parent).2 hp
    have hfirst : linkPart linkChild' parent index s = linkPart linkChild parent index s := by
      unfold linkPart
      split
      · rfl
      · next part _ =>
        have hfound := fun child => @exists_definition_of_resolve s child part.chip part.span
        have h₁ := h.resolve part.chip part.span
        cases hr : s.resolve part.chip part.span with
        | mk found s₁ =>
          cases found with
          | none => rfl
          | some child =>
            rw [hr] at h₁
            obtain ⟨d, hd⟩ := hfound child (by rw [hr])
            obtain ⟨e, hentry, -⟩ := definition?_eq_some_iff.1 hd
            rw [hr] at hentry
            dsimp only
            rw [heq child part.chip part.span s₁ h₁ (by rw [status?_of_entry hentry]; rfl)]
    obtain ⟨owners, ht, -, -⟩ := partToured_linkPart hl he h hp hnone
    have hstep := linksPart_linkPart hl index hin
    have h' := h.tour ht (strides_linkPart hl hm index hin).moves hstep.advances
    have hrest := ih hi' h' fun i hmem => by
      rw [target?, hstep.others i (by rintro rfl; exact hfresh hmem)]
      exact hn' i hmem
    unfold linkParts
    dsimp only
    rw [hfirst, hrest]

theorem linkFresh_congr {linkChild' : ChildLinker} (hl : Links linkChild)
    (hm : ∀ child name span s, Strides s (linkChild child name span s).2)
    (he : Explores K (child :: path) linkChild)
    (heq : ∀ inner name span s, Descent K (child :: path) s → (s.status? inner).isSome →
      linkChild' inner name span s = linkChild inner name span s)
    (h : Descent K path s) (hs : s.status? child = some .unlinked) :
    linkFresh linkChild' child s = linkFresh linkChild child s := by
  have hparts := linkParts_congr hl hm he heq
    (@List.nodup_range ((s.definition? child).getD default).parts.size)
    (h.start hs) List.mem_cons_self fun i _ => by
      rw [target?_setStatus]
      exact h.blank child hs i
  unfold linkFresh
  dsimp only
  rw [hparts]

theorem linkWithin_succ (depth : Nat) {path : List Nat} (hdepth : K.length < depth + path.length)
    (name : String) (span : Span) (h : Descent K path s) (hsome : (s.status? child).isSome) :
    linkWithin (depth + 1) child name span s = linkWithin depth child name span s := by
  induction depth generalizing path child name span s with
  | zero =>
    have := h.length_le
    omega
  | succ depth ih =>
    obtain ⟨status, hs⟩ := Option.isSome_iff_exists.1 hsome
    rw [linkWithin, linkWithin, hs]
    cases status with
    | linked ok => rfl
    | inProgress => rfl
    | unlinked =>
      have hdeep : K.length < depth + (child :: path).length := by
        rw [List.length_cons]
        omega
      exact linkFresh_congr (links_linkWithin depth) (strides_linkWithin depth)
        (explores_linkWithin depth hdeep) (fun inner name span s h hi => ih hdeep name span h hi) h hs

/-- **Looking deeper changes nothing.** -/
theorem linkFresh_deeper (h : Descent K [] s) (hs : s.status? child = some .unlinked)
    {depth : Nat} (hdepth : K.length ≤ depth) :
    linkFresh (linkWithin depth) child s = linkFresh (linkWithin K.length) child s := by
  induction depth, hdepth using Nat.le_induction with
  | base => rfl
  | succ depth hle ih =>
    have hdeep : K.length < depth + [child].length := by
      rw [List.length_singleton]
      omega
    rw [← ih]
    exact linkFresh_congr (links_linkWithin depth) (strides_linkWithin depth)
      (explores_linkWithin depth hdeep)
      (fun inner name span s h hi => linkWithin_succ depth hdeep name span h hi) h hs

end Session

end ChipLogic
