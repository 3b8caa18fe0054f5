import ChipLogic.Proofs.Session.LinkPhases

/-!
# Linking in small steps

A stride (`Session.Stride`) may hold a whole search for a name. Where it matters what a search does,
it is taken apart: the steps are listed once, and what each of them keeps is kept by a whole link.

**Errands** (`Session.Errand`). On the way from one chip to the next a session loads texts of its
disk, registers gates, remembers names, makes internal nets and reports; none of the reports is
about a circle. A search takes errands only (`Session.errands_resolve`), and so does a pace
(`Session.Pace.errands`).

**Moves** (`Session.Move`). To link chips takes errands, and also the report of a circle and the
change of a chip's status or of a part's link (`Session.Stride.moves`, `Session.moves_link`).
-/

namespace ChipLogic

/-- The diagnostics of circles have the code E207. -/
def Diagnostic.isCircle (d : Diagnostic) : Bool :=
  d.code == ⟨.error, 207⟩

/-- No other problem has that code. -/
theorem Problem.isCircle_report {p : Problem} (h : ∀ name, p ≠ .circular name) (span : Span) :
    (p.report span).isCircle = false := by
  cases p with
  | circular name => exact absurd rfl (h name)
  | pinRefused chip pin refusal => cases refusal <;> rfl
  | _ => rfl

theorem Problem.ne_circular_of_isSearch {p : Problem} (h : p.isSearch) :
    ∀ name, p ≠ .circular name := by
  rintro name rfl
  cases h

theorem Problem.ne_circular_of_isWiring {p : Problem} (h : p.isWiring) :
    ∀ name, p ≠ .circular name := by
  rintro name rfl
  cases h

namespace Session

variable {s s' s'' : Session} {parent child : Nat}

/-! ## Errands -/

/-- What is done on the way from one chip to the next. -/
inductive Errand : Session → Session → Prop
  | load (s : Session) (path : String) {text : String} (known : text ∈ s.disk.texts) :
      Errand s (s.loadSource path text).2
  | gate (s : Session) (g : Gate) : Errand s (s.register g.definition).2
  | remember (s : Session) (missing asked : List String) : Errand s { s with missing, asked }
  | emitAll (s : Session) {ds : List Diagnostic} (other : ∀ d ∈ ds, d.isCircle = false) :
      Errand s (s.emitAll ds)
  | net {s : Session} {id : Nat} (inProgress : s.status? id = some .inProgress) {p : Pin}
      (kind : p.kind = .internal) : Errand s (s.addPinTo id p).2

/-- `s'` comes from `s` by errands. -/
abbrev Errands : Session → Session → Prop :=
  Relation.ReflTransGen Errand

theorem errands_report {p : Problem} (h : ∀ name, p ≠ .circular name) (s : Session) (span : Span) :
    Errands s (s.report p span) :=
  .single (.emitAll s fun d hd => by rw [List.mem_singleton.1 hd]; exact p.isCircle_report h span)

theorem Seek.errands (h : Seek s s') : Errands s s' := by
  cases h with
  | load path known => exact .single (.load s path known)
  | gate g => exact .single (.gate s g)
  | ask name => exact .single (.remember s _ _)
  | report search span => exact errands_report (Problem.ne_circular_of_isSearch search) s span
  | giveUp _ name => exact .single (.remember s _ _)

theorem Seeks.errands (h : Seeks s s') : Errands s s' := by
  induction h with
  | refl => exact .refl
  | tail _ h ih => exact ih.trans h.errands

/-- **To find a chip takes errands only.** -/
theorem errands_resolve (s : Session) (name : String) (span : Span) :
    Errands s (s.resolve name span).2 :=
  (seeks_resolve s name span).errands

/-! ## Paces -/

theorem Searched.errands (h : Searched s s') : Errands s s' := by
  induction h with
  | refl => exact .refl
  | tail _ h ih =>
    obtain ⟨name, span, rfl⟩ := h
    exact ih.trans (errands_resolve _ name span)

/-- **A pace takes errands only.** -/
theorem Pace.errands (h : Pace s s') : Errands s s' := by
  cases h with
  | resolve name span => exact errands_resolve s name span
  | @net id inProgress r width =>
    rw [addNet_eq]
    have hw := advances_widestMention s (r.leastWidth width) (s.mentions id r.key) none
    exact (searched_netWidth s _ r.key _).errands.tail (.net (hw.status_inProgress inProgress) rfl)
  | report wiring span => exact errands_report (Problem.ne_circular_of_isWiring wiring) s span

theorem Paces.errands (h : Paces s s') : Errands s s' := by
  induction h with
  | refl => exact .refl
  | tail _ h ih => exact ih.trans h.errands

/-! ## Moves -/

/-- What is done to link chips. -/
inductive Move : Session → Session → Prop
  | errand {s s' : Session} (h : Errand s s') : Move s s'
  | circle (s : Session) (name : String) (span : Span) : Move s (s.report (.circular name) span)
  | setStatus (s : Session) (id : Nat) (status : LinkStatus) : Move s (s.setStatus id status)
  /-- A part is linked to the chip that its name means. -/
  | setLink {s : Session} {id index : Nat} {p : Part} (part : s.part? id index = some p)
      {link : Link} (named : s.Named p.chip link.chip) : Move s (s.setLink id index link)

/-- `s'` comes from `s` by moves. -/
abbrev Moves : Session → Session → Prop :=
  Relation.ReflTransGen Move

theorem Errands.moves (h : Errands s s') : Moves s s' :=
  Relation.ReflTransGen.mono (fun _ _ => Move.errand) _ _ h

theorem errands_of_resolve {name : String} {span : Span} {found : Option Nat}
    (h : s.resolve name span = (found, s')) : Errands s s' := by
  have hr := errands_resolve s name span
  rwa [h] at hr

theorem Stride.moves (h : Stride s s') : Moves s s' := by
  cases h with
  | pace h => exact h.errands.moves
  | circle name span => exact .single (.circle s name span)
  | setStatus id status => exact .single (.setStatus s id status)
  | setLink part named => exact .single (.setLink part named)

theorem Strides.moves (h : Strides s s') : Moves s s' := by
  induction h with
  | refl => exact .refl
  | tail _ h ih => exact ih.trans h.moves

/-- **To link a chip takes moves only.** -/
theorem moves_link (s : Session) (id : Nat) : Moves s (s.link id).2 :=
  (strides_link s id).moves

end Session

end ChipLogic
