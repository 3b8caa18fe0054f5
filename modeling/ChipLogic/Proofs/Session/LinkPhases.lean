import ChipLogic.Proofs.Session.Answers
import Mathlib.Logic.Relation

/-!
# Linking in strides

A link runs through many functions, but it changes a session in few ways. A **pace**
(`Session.Pace`) is a whole search for a name, the making of a net in a chip in progress, or a report
on a connection or a net. A **stride** (`Session.Stride`) is a pace, the report of a circle, or a
change of a chip's status or of a part's link.

The width of a net is found by searches (`Session.searched_netWidth`), so what the look-ahead does
to a session is known from what a search does.

A link is a row of strides (`Session.strides_link`). So a relation between sessions that holds of
every stride, and of two strides in a row, holds of a link.
-/

namespace ChipLogic

/-- The problem is one of wires, not one of names, files, declarations or circles. -/
def Problem.isWiring : Problem → Bool
  | .unknownPin .. | .widthMismatch .. | .internalPin .. | .badRange .. | .drivesInput ..
  | .undriven .. | .unconnected .. => true
  | _ => false

namespace Session

variable {s s' : Session} {parent child : Nat} {linkChild : ChildLinker}

/-- `s'` comes from `s` by searches for names. -/
abbrev Searched : Session → Session → Prop :=
  Relation.ReflTransGen fun s s' => ∃ name span, s' = (s.resolve name span).2

/-- A piece of a link that leaves the statuses of chips and the links of parts alone. -/
inductive Pace : Session → Session → Prop
  | resolve (s : Session) (name : String) (span : Span) : Pace s (s.resolve name span).2
  | net {s : Session} {id : Nat} (inProgress : s.status? id = some .inProgress) (r : Reference)
      (width : Nat) : Pace s (s.addNet id r width).2
  | report (s : Session) {p : Problem} (wiring : p.isWiring) (span : Span) :
      Pace s (s.report p span)

/-- A piece of a link. -/
inductive Stride : Session → Session → Prop
  | pace {s s' : Session} (pace : Pace s s') : Stride s s'
  | circle (s : Session) (name : String) (span : Span) : Stride s (s.report (.circular name) span)
  | setStatus (s : Session) (id : Nat) (status : LinkStatus) : Stride s (s.setStatus id status)
  /-- A part is linked to the chip that its name means. -/
  | setLink {s : Session} {id index : Nat} {p : Part} (part : s.part? id index = some p)
      {link : Link} (named : s.Named p.chip link.chip) : Stride s (s.setLink id index link)

/-- `s'` comes from `s` by paces. -/
abbrev Paces : Session → Session → Prop :=
  Relation.ReflTransGen Pace

/-- `s'` comes from `s` by strides. -/
abbrev Strides : Session → Session → Prop :=
  Relation.ReflTransGen Stride

theorem Paces.strides (h : Paces s s') : Strides s s' :=
  Relation.ReflTransGen.mono (fun _ _ => Stride.pace) _ _ h

/-! ## Searches -/

theorem searched_of_resolve {name : String} {span : Span} {found : Option Nat}
    (h : s.resolve name span = (found, s')) : Searched s s' :=
  .single ⟨name, span, by rw [h]⟩

theorem searched_mentionWidth (s : Session) (m : Mention) : Searched s (s.mentionWidth m).2 := by
  unfold mentionWidth
  split
  · exact .refl
  · split <;> next he => exact searched_of_resolve he

theorem searched_widestMention (s : Session) (width : Nat) (ms : List Mention) :
    Searched s (s.widestMention width ms).2 := by
  induction ms generalizing s width with
  | nil => exact .refl
  | cons m ms ih => exact (searched_mentionWidth s m).trans (ih _ _)

/-- **The look-ahead over the mentions of a net searches for names and does nothing else.** -/
theorem searched_netWidth (s : Session) (parent : Nat) (key : String) (width : Nat) :
    Searched s (s.netWidth parent key width).2 :=
  searched_widestMention s width _

theorem paces_of_resolve {name : String} {span : Span} {found : Option Nat}
    (h : s.resolve name span = (found, s')) : Paces s s' := by
  have hr : Paces s (s.resolve name span).2 := .single (.resolve s name span)
  rwa [h] at hr

/-! ## Connections -/

theorem paces_outerPin (hs : s.status? parent = some .inProgress) (r : Reference)
    (width : Nat) : Paces s (s.outerPin parent r width).2 := by
  have hcase := s.outerRun_outerPin parent r width
  generalize s.outerPin parent r width = outer at hcase ⊢
  cases hcase with
  | found => exact .refl
  | misfit | reversed => exact .single (.report s rfl _)
  | made => exact .single (.net hs r width)

theorem isWiring_of_innerPin {r : Reference} {p : Problem} (h : s.innerPin child r = .error p) :
    p.isWiring = true := by
  rcases innerPin_eq_error h with ⟨_, rfl⟩ | ⟨_, rfl⟩ | ⟨_, _, rfl⟩ <;> rfl

theorem isWiring_of_join {c : Connection} {inner outer : Nat × Pin} {p : Problem}
    (h : join c inner outer = .error p) : p.isWiring = true := by
  rcases join_eq_error h with ⟨_, _, rfl⟩ | rfl <;> rfl

theorem paces_connect (hs : s.status? parent = some .inProgress) (child : Nat)
    (c : Connection) : Paces s (s.connect parent child c).2 := by
  have hcase := s.connectRun_connect parent child c
  generalize s.connect parent child c = r at hcase ⊢
  cases hcase with
  | noInner hi => exact .single (.report s (isWiring_of_innerPin hi) _)
  | noOuter | wire => exact paces_outerPin hs c.outer _
  | apart _ _ hj => exact (paces_outerPin hs c.outer _).tail (.report _ (isWiring_of_join hj) _)

theorem paces_connectAll (hs : s.status? parent = some .inProgress) (child : Nat)
    (cs : List Connection) : Paces s (s.connectAll parent child cs).2 := by
  induction cs generalizing s with
  | nil => exact .refl
  | cons c cs ih =>
    exact (paces_connect hs child c).trans
      (ih ((connects_connect child hs c).status_inProgress hs))

/-! ## Warnings -/

theorem emitAll_nil (s : Session) : s.emitAll [] = s := by
  simp [emitAll, Log.emitAll]

theorem emitAll_cons (s : Session) (d : Diagnostic) (ds : List Diagnostic) :
    s.emitAll (d :: ds) = (s.emit d).emitAll ds := by
  simp [emitAll, emit, Log.emitAll, Log.emit]

theorem paces_reports (s : Session) {α : Type} (xs : List α) (p : α → Problem) (span : α → Span)
    (h : ∀ x, (p x).isWiring) : Paces s (s.emitAll (xs.map fun x => (p x).report (span x))) := by
  induction xs generalizing s with
  | nil =>
    rw [List.map_nil, emitAll_nil]
  | cons x xs ih =>
    rw [List.map_cons, emitAll_cons]
    exact .head (.report s (h x) (span x)) (ih (s.report (p x) (span x)))

theorem paces_warnUnfed (s : Session) (child : Nat) (wires : List Wire) (span : Span) :
    Paces s (s.warnUnfed child wires span) :=
  paces_reports s _ _ (fun _ => span) fun _ => rfl

theorem paces_warnUndriven (s : Session) (id : Nat) : Paces s (s.warnUndriven id) :=
  paces_reports s _ _ _ fun _ => rfl

/-! ## Parts and chips -/

theorem PartSteps.paces (hl : Links linkChild) {index child : Nat} {part : Part} {ok good : Bool}
    {wires : List (Option Wire)} {s₁ s₂ s₃ s₄ : Session}
    (h : PartSteps linkChild parent index s part child s₁ ok s₂ wires s₃ good s₄)
    (hs : s.status? parent = some .inProgress) : Paces s₂ s₄ := by
  have hw := paces_connectAll (h.inProgress hl hs) child part.connections
  rw [h.connected] at hw
  refine hw.trans ?_
  rw [h.warned]
  split
  · exact paces_warnUnfed _ _ _ _
  · exact .refl

/-- The link of a part leads to the chip that its name means. -/
theorem PartSteps.stride (hl : Links linkChild) {index child : Nat} {part : Part} {ok good : Bool}
    {wires : List (Option Wire)} {s₁ s₂ s₃ s₄ : Session}
    (h : PartSteps linkChild parent index s part child s₁ ok s₂ wires s₃ good s₄)
    (hs : s.status? parent = some .inProgress) :
    Stride s₄ (s₄.setLink parent index ⟨child, wires.filterMap id⟩) := by
  have hadvances := hl.advances child part.chip part.span s₁
  rw [h.linked] at hadvances
  have hfound := @named_of_resolve s child part.chip part.span
  rw [h.resolved] at hfound
  have hnamed := (((hfound rfl).mono hadvances).mono (h.connects hl hs).toAdvances).mono
    h.advances_warned
  exact .setLink (h.found_warned hl hs) hnamed

theorem strides_linkPart (hl : Links linkChild)
    (hc : ∀ child name span s, Strides s (linkChild child name span s).2) (index : Nat)
    (hs : s.status? parent = some .inProgress) :
    Strides s (linkPart linkChild parent index s).2 := by
  have hrun := partRun_linkPart linkChild parent index s
  generalize linkPart linkChild parent index s = r at hrun ⊢
  cases hrun with
  | absent => exact .refl
  | unresolved _ hr => exact (paces_of_resolve hr).strides
  | @steps part child ok good wires s₁ s₂ s₃ s₄ h =>
    have hchild := hc child part.chip part.span s₁
    rw [h.linked] at hchild
    exact ((paces_of_resolve h.resolved).strides.trans
      (hchild.trans (h.paces hl hs).strides)).tail (h.stride hl hs)

theorem strides_linkParts (hl : Links linkChild)
    (hc : ∀ child name span s, Strides s (linkChild child name span s).2) (indices : List Nat)
    (hs : s.status? parent = some .inProgress) :
    Strides s (linkParts linkChild parent indices s).2 := by
  induction indices generalizing s with
  | nil => exact .refl
  | cons index indices ih =>
    exact (strides_linkPart hl hc index hs).trans
      (ih ((linksPart_linkPart hl index hs).advances.status_inProgress hs))

theorem strides_linkFresh (hl : Links linkChild)
    (hc : ∀ child name span s, Strides s (linkChild child name span s).2) {id : Nat}
    (hs : s.status? id = some .unlinked) : Strides s (linkFresh linkChild id s).2 := by
  obtain ⟨e, he, -⟩ := status?_eq_some_iff.1 hs
  have hrun := freshRun_linkFresh linkChild hs
  generalize linkFresh linkChild id s = r at hrun ⊢
  cases hrun with
  | gate _ _ => exact .single (.setStatus s id _)
  | @parts d ok s₁ s₂ _ _ run warned =>
    have hparts := strides_linkParts hl hc (List.range d.parts.size)
      (status?_setStatus he .inProgress)
    rw [run] at hparts
    have hwarned : Paces s₁ s₂ := by
      rw [warned]
      split
      · exact paces_warnUndriven s₁ id
      · exact .refl
    exact ((Relation.ReflTransGen.head (.setStatus s id _) hparts).trans hwarned.strides).tail
      (.setStatus s₂ id _)

theorem strides_linkWithin (depth child : Nat) (name : String) (span : Span) (s : Session) :
    Strides s (linkWithin depth child name span s).2 := by
  induction depth generalizing child name span s with
  | zero => exact .single (.circle s name span)
  | succ depth ih =>
    unfold linkWithin
    split
    · exact .refl
    · next hs => exact strides_linkFresh (links_linkWithin depth) ih hs
    · exact .single (.circle s name span)

/-- **A link is a row of strides.** -/
theorem strides_link (s : Session) (id : Nat) : Strides s (s.link id).2 := by
  unfold link
  split
  · exact .refl
  · next hs => exact strides_linkFresh (links_linkWithin _) (strides_linkWithin _) hs
  · exact .refl

end Session

end ChipLogic
