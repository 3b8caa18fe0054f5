import ChipLogic.Proofs.Session.Later

/-!
# Scripts

`Session.Call` is a relation; `Session.Action` is the same calls as data, so that a theorem can say
which calls were made and which were not. A **script** is a list of actions, run one after the other
(`Session.after`), and the sessions that come later than `s` are those that scripts lead to
(`Session.later_iff_after`).

An action keeps every chip where it is and only lets it grow (`Session.Action.definition?`).
-/

namespace ChipLogic

namespace Session

variable {s s' : Session} {id : Nat}

/-- A call from outside, as data. -/
inductive Action where
  /-- The files change between two calls. -/
  | remount (disk : Disk)
  | addSource (name text : String)
  | loadFile (path : String)
  | chip (name : String)
  | addPin (id : Nat) (p : Pin)
  | emit (d : Diagnostic)
  | takeAll
  | link (id : Nat)
  | freeze (top : Nat)
  | elaborate (name : String)

/-- The session after a call. -/
def Action.run : Action → Session → Session
  | .remount disk, s => { s with disk }
  | .addSource name text, s => (s.addSource name text).2
  | .loadFile path, s => (s.loadFile path).2
  | .chip name, s => (s.chip name).2
  | .addPin id p, s => (s.addPin id p).2
  | .emit d, s => s.emit d
  | .takeAll, s => s.takeAll.2
  | .link id, s => (s.link id).2
  | .freeze top, s => (s.freeze top).2
  | .elaborate name, s => (s.elaborate name).2

/-- The session after the actions of a script. -/
def after (s : Session) (script : List Action) : Session :=
  script.foldl (fun s a => a.run s) s

theorem after_append (s : Session) (first second : List Action) :
    s.after (first ++ second) = (s.after first).after second := by
  simp [after]

theorem call_iff_run : Call s s' ↔ ∃ a, s' = Action.run a s := by
  constructor
  · intro h
    cases h with
    | remount disk => exact ⟨.remount disk, rfl⟩
    | addSource name text => exact ⟨.addSource name text, rfl⟩
    | loadFile path => exact ⟨.loadFile path, rfl⟩
    | chip name => exact ⟨.chip name, rfl⟩
    | addPin id p => exact ⟨.addPin id p, rfl⟩
    | emit d => exact ⟨.emit d, rfl⟩
    | takeAll => exact ⟨.takeAll, rfl⟩
    | link id => exact ⟨.link id, rfl⟩
    | freeze top => exact ⟨.freeze top, rfl⟩
    | elaborate name => exact ⟨.elaborate name, rfl⟩
  · rintro ⟨a, rfl⟩
    cases a with
    | remount disk => exact .remount s disk
    | addSource name text => exact .addSource s name text
    | loadFile path => exact .loadFile s path
    | chip name => exact .chip s name
    | addPin id p => exact .addPin s id p
    | emit d => exact .emit s d
    | takeAll => exact .takeAll s
    | link id => exact .link s id
    | freeze top => exact .freeze s top
    | elaborate name => exact .elaborate s name

/-- **What comes later is what scripts lead to.** -/
theorem later_iff_after : Later s s' ↔ ∃ script, s' = s.after script := by
  constructor
  · intro h
    induction h with
    | refl => exact ⟨[], rfl⟩
    | tail _ hc ih =>
      obtain ⟨script, rfl⟩ := ih
      obtain ⟨a, rfl⟩ := call_iff_run.1 hc
      exact ⟨script ++ [a], by simp [after]⟩
  · rintro ⟨script, rfl⟩
    induction script generalizing s with
    | nil => exact .refl
    | cons a script ih => exact .head (call_iff_run.2 ⟨a, rfl⟩) ih

/-- A property that the actions of a script keep holds after the script. -/
theorem after_induction {P : Session → Prop} {script : List Action} (start : P s)
    (step : ∀ a ∈ script, ∀ s, P s → P (a.run s)) : P (s.after script) := by
  induction script generalizing s with
  | nil => exact start
  | cons a script ih =>
    refine ih (step a List.mem_cons_self s start) fun a' ha => ?_
    exact step a' (List.mem_cons_of_mem a ha)

/-- A property that every kind of call keeps, if pins are only added to some chips. -/
structure Lasting (pins : Nat → Prop) (I : Session → Prop) : Prop where
  remount : ∀ s disk, I s → I { s with disk }
  load : ∀ s name text, I s → I (s.loadSource name text).2
  resolve : ∀ s name span, I s → I (s.resolve name span).2
  addPin : ∀ s id p, pins id → I s → I (s.addPin id p).2
  emit : ∀ s d, I s → I (s.emit d)
  takeAll : ∀ s, I s → I s.takeAll.2
  link : ∀ s id, I s → I (s.link id).2

theorem Lasting.run {pins : Nat → Prop} {I : Session → Prop} (h : Lasting pins I) (a : Action)
    (ha : ∀ id p, a = .addPin id p → pins id) (hs : I s) : I (a.run s) := by
  have hfreeze : ∀ s top, I s → I (s.freeze top).2 := by
    intro s top hs
    rw [freeze_snd]
    exact h.link s top hs
  cases a with
  | remount disk => exact h.remount s disk hs
  | addSource name text => exact h.load s name text hs
  | loadFile path =>
    show I (s.loadFile path).2
    unfold loadFile
    split
    · exact h.load s _ _ hs
    · exact h.emit s _ hs
  | chip name => exact h.resolve s name .nowhere hs
  | addPin id p => exact h.addPin s id p (ha id p rfl) hs
  | emit d => exact h.emit s d hs
  | takeAll => exact h.takeAll s hs
  | link id => exact h.link s id hs
  | freeze top => exact hfreeze s top hs
  | elaborate name =>
    have hchip : I (s.chip name).2 := h.resolve s name .nowhere hs
    show I (s.elaborate name).2
    unfold Session.elaborate
    cases hc : s.chip name with
    | mk found s₁ =>
      rw [hc] at hchip
      cases found with
      | none => exact hchip
      | some top => exact hfreeze s₁ top hchip

theorem Lasting.after {pins : Nat → Prop} {I : Session → Prop} (h : Lasting pins I)
    {script : List Action} (hp : ∀ id p, .addPin id p ∈ script → pins id) (hs : I s) :
    I (s.after script) :=
  after_induction hs fun a ha _ => h.run a fun id p he => hp id p (he ▸ ha)

/-- What all calls keep holds of all reachable sessions. -/
theorem Lasting.reachable {I : Session → Prop} (h : Lasting (fun _ => True) I)
    (start : ∀ disk library, I { disk, library }) (hr : s.Reachable) : I s := by
  obtain ⟨disk, library, hl⟩ := reachable_iff_later.1 hr
  obtain ⟨script, rfl⟩ := later_iff_after.1 hl
  exact h.after (fun _ _ _ => trivial) (start disk library)

/-- Unless it changes the files, an action works on no chip in progress. -/
theorem Action.advances (a : Action) (s : Session) :
    (∃ disk, a = .remount disk) ∨ Advances none s (a.run s) := by
  cases a with
  | remount disk => exact .inl ⟨disk, rfl⟩
  | addSource name text => exact .inr (advances_addSource s name text none)
  | loadFile path => exact .inr (advances_loadFile s path none)
  | chip name => exact .inr (advances_resolve s name .nowhere none)
  | addPin id p => exact .inr (advances_addPin s id p)
  | emit d => exact .inr (advances_emit s d none)
  | takeAll => exact .inr (advances_takeAll s)
  | link id => exact .inr (advances_link s id)
  | freeze top => exact .inr (advances_freeze s top)
  | elaborate name => exact .inr (advances_elaborate s name)

/-- A chip stays where it is and only grows. -/
theorem Action.definition? (a : Action) {d : Definition} (hd : s.definition? id = some d) :
    ∃ d', (a.run s).definition? id = some d' ∧ d.Grows d' := by
  rcases a.advances s with ⟨disk, rfl⟩ | ha
  · exact ⟨d, hd, .refl d⟩
  · exact ha.definition? hd

theorem definition?_after (script : List Action) {d : Definition}
    (hd : s.definition? id = some d) :
    ∃ d', (s.after script).definition? id = some d' ∧ d.Grows d' := by
  refine after_induction (P := fun s => ∃ d', s.definition? id = some d' ∧ d.Grows d')
    ⟨d, hd, .refl d⟩ fun a _ s ⟨d', hd', hg⟩ => ?_
  obtain ⟨d'', hd'', hg'⟩ := a.definition? hd'
  exact ⟨d'', hd'', hg.trans hg'⟩

end Session

end ChipLogic
