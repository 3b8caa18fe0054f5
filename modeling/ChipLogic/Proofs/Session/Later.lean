import ChipLogic.Proofs.Session.Answers
import ChipLogic.Proofs.Session.Freeze
import Mathlib.Logic.Relation

/-!
# What stays from call to call

`Session.Call` is one call from outside, and `Session.Later s s'` says that calls lead from `s` to
`s'`. The reachable sessions are those that come later than an empty one
(`Session.reachable_iff_later`).

**Between two calls.** No chip is in progress, and every failure that is remembered has left an
error behind (`Session.Reachable.idle`, `Session.Reachable.accounted`). Both are kept by a call
because a call is a step that answers (`Session.Call.answers`).

**After a link.** A call leaves linked chips alone, whatever else it links, loads or refuses
(`Session.Later.linked`). So what a link came to can be asked for again at any time, and asking
again does nothing.

**Theorem (`Session.Reachable.link_for_good`).** Once a chip was linked, linking it again gives the
same result for ever and leaves the session as it is, and the definition of the chip does not
change.
-/

namespace ChipLogic

namespace Session

variable {s s' : Session} {id : Nat}

/-! ## Calls -/

/-- A call from outside. -/
inductive Call : Session → Session → Prop
  /-- The files change between two calls. -/
  | remount (s : Session) (disk : Disk) : Call s { s with disk }
  | addSource (s : Session) (name text : String) : Call s (s.addSource name text).2
  | loadFile (s : Session) (path : String) : Call s (s.loadFile path).2
  | chip (s : Session) (name : String) : Call s (s.chip name).2
  | addPin (s : Session) (id : Nat) (p : Pin) : Call s (s.addPin id p).2
  | emit (s : Session) (d : Diagnostic) : Call s (s.emit d)
  | takeAll (s : Session) : Call s s.takeAll.2
  | link (s : Session) (id : Nat) : Call s (s.link id).2
  | freeze (s : Session) (top : Nat) : Call s (s.freeze top).2
  | elaborate (s : Session) (name : String) : Call s (s.elaborate name).2

/-- `s'` comes from `s` by calls. -/
def Later : Session → Session → Prop :=
  Relation.ReflTransGen Call

theorem Reachable.call (h : s.Reachable) (hc : Call s s') : s'.Reachable := by
  cases hc with
  | remount disk => exact h.remount disk
  | addSource name text => exact h.addSource name text
  | loadFile path => exact h.loadFile path
  | chip name => exact h.chip name
  | addPin id p => exact h.addPin id p
  | emit d => exact h.emit d
  | takeAll => exact h.takeAll
  | link id => exact h.link id
  | freeze top => exact h.freeze top
  | elaborate name => exact h.elaborate name

theorem Reachable.later (h : s.Reachable) (hl : Later s s') : s'.Reachable := by
  induction hl with
  | refl => exact h
  | tail _ hc ih => exact ih.call hc

theorem reachable_iff_later : s.Reachable ↔ ∃ disk library, Later { disk, library } s := by
  constructor
  · intro h
    have step {s s' : Session} (ih : ∃ disk library, Later { disk, library } s) (hc : Call s s') :
        ∃ disk library, Later { disk, library } s' :=
      ih.imp fun _ => .imp fun _ hl => hl.tail hc
    induction h with
    | start disk library => exact ⟨disk, library, .refl⟩
    | remount disk _ ih => exact step ih (.remount _ disk)
    | addSource name text _ ih => exact step ih (.addSource _ name text)
    | loadFile path _ ih => exact step ih (.loadFile _ path)
    | chip name _ ih => exact step ih (.chip _ name)
    | addPin id p _ ih => exact step ih (.addPin _ id p)
    | emit d _ ih => exact step ih (.emit _ d)
    | takeAll _ ih => exact step ih (.takeAll _)
    | link id _ ih => exact step ih (.link _ id)
    | freeze top _ ih => exact step ih (.freeze _ top)
    | elaborate name _ ih => exact step ih (.elaborate _ name)
  · rintro ⟨disk, library, hl⟩
    exact (Reachable.start disk library).later hl

/-! ## Between two calls -/

theorem answers_addPin (s : Session) (id : Nat) (p : Pin) : Answers true s (s.addPin id p).2 := by
  rcases s.addPin_cases id p with hadd | ⟨hs, hadd⟩ | hadd
  · exact hadd ▸ .refl s
  · rw [hadd]
    obtain ⟨d, hd⟩ := exists_definition_of_status hs
    exact (answers_addPinTo hd p).passed
  · exact hadd ▸ answers_report rfl _

theorem answers_freeze (s : Session) (top : Nat) : Answers true s (s.freeze top).2 := by
  rw [freeze_snd]
  exact answers_link_passed s top

theorem answers_elaborate (s : Session) (name : String) :
    Answers true s (s.elaborate name).2 := by
  have h : Answers true s (s.chip name).2 := (answers_resolve s name .nowhere).passed
  unfold elaborate
  cases hc : s.chip name with
  | mk found s₁ =>
    rw [hc] at h
    cases found with
    | none => exact h
    | some top => exact h.trans (answers_freeze s₁ top)

theorem answers_loadFile (s : Session) (path : String) : Answers true s (s.loadFile path).2 := by
  unfold loadFile
  split
  · exact (answers_loadSource s _ _).passed
  · exact answers_report rfl _

/-- **A call answers.** -/
theorem Call.answers (h : Call s s') : Answers true s s' := by
  have same : s.failed ⊆ s.failed ∧ s.missing ⊆ s.missing :=
    ⟨List.Subset.refl _, List.Subset.refl _⟩
  cases h with
  | remount disk => exact .of_chips (List.prefix_refl _) (.inr same) rfl
  | addSource name text => exact (answers_loadSource s name text).passed
  | loadFile path => exact answers_loadFile s path
  | chip name => exact (answers_resolve s name .nowhere).passed
  | addPin id p => exact answers_addPin s id p
  | emit d => exact answers_emitAll s [d]
  | takeAll => exact .of_chips (List.prefix_refl _) (.inr same) rfl
  | link id => exact answers_link_passed s id
  | freeze top => exact answers_freeze s top
  | elaborate name => exact answers_elaborate s name

theorem Later.answers (h : Later s s') : Answers true s s' := by
  induction h with
  | refl => exact .refl s
  | tail _ hc ih => exact ih.trans hc.answers

/-- **No chip is left in progress.** -/
theorem Reachable.idle (h : s.Reachable) (id : Nat) : s.status? id ≠ some .inProgress := by
  obtain ⟨disk, library, hl⟩ := reachable_iff_later.1 h
  intro hs
  have hstart := hl.answers.inProgress id hs
  simp [status?_eq] at hstart

theorem Reachable.accounted (h : s.Reachable) : s.Accounted := by
  obtain ⟨disk, library, hl⟩ := reachable_iff_later.1 h
  refine hl.answers.accounted (.inr ⟨rfl, rfl, fun id hid => ?_⟩)
  simp [status?_eq] at hid

/-! ## After a link -/

theorem Call.linked (h : Call s s') {ok : Bool} (hs : s.status? id = some (.linked ok)) :
    s'.chips[id]? = s.chips[id]? := by
  cases h with
  | remount disk => rfl
  | addSource name text => exact (advances_addSource s name text none).linked hs
  | loadFile path => exact (advances_loadFile s path none).linked hs
  | chip name => exact (advances_resolve s name .nowhere none).linked hs
  | addPin i p => exact (advances_addPin s i p).linked hs
  | emit d => exact (advances_emit s d none).linked hs
  | takeAll => exact (advances_takeAll s).linked hs
  | link i => exact (advances_link s i).linked hs
  | freeze top => exact (advances_freeze s top).linked hs
  | elaborate name => exact (advances_elaborate s name).linked hs

/-- **Linked chips do not change.** -/
theorem Later.linked (h : Later s s') {ok : Bool} (hs : s.status? id = some (.linked ok)) :
    s'.chips[id]? = s.chips[id]? := by
  induction h with
  | refl => rfl
  | tail _ hc ih => exact (hc.linked ((status?_congr ih).trans hs)).trans ih

/-- A link of a registered chip comes to an end, and its result is kept. -/
theorem Reachable.status_link (h : s.Reachable) {d : Definition} (hd : s.definition? id = some d) :
    (s.link id).2.status? id = some (.linked (s.link id).1) := by
  obtain ⟨e, he, -⟩ := definition?_eq_some_iff.1 hd
  have hst := status?_of_entry he
  unfold Session.link
  split
  · next hs => exact hs
  · next hs => exact (linkFresh_spec (links_linkWithin _) hs).2
  · next hlinked hunlinked =>
    cases hstatus : e.status with
    | unlinked => exact absurd (hstatus ▸ hst) hunlinked
    | inProgress => exact absurd (hstatus ▸ hst) (h.idle id)
    | linked ok => exact absurd (hstatus ▸ hst) (hlinked ok)

theorem link_of_status {ok : Bool} (hs : s.status? id = some (.linked ok)) :
    s.link id = (ok, s) := by
  unfold link
  rw [hs]

theorem linkResult?_of_status {ok : Bool} (hs : s.status? id = some (.linked ok)) :
    s.linkResult? id = some ok := by
  unfold linkResult?
  rw [hs]

/-- **Linking is for good.** -/
theorem Reachable.link_for_good (h : s.Reachable) :
    (∀ id, s.status? id ≠ some .inProgress) ∧
      ∀ id d, s.definition? id = some d → ∀ s', Later (s.link id).2 s' →
        s'.link id = ((s.link id).1, s') ∧ s'.linkResult? id = some (s.link id).1 ∧
          s'.definition? id = (s.link id).2.definition? id := by
  refine ⟨h.idle, fun id d hd s' hl => ?_⟩
  have hst := h.status_link hd
  have hchip := hl.linked hst
  have hst' : s'.status? id = some (.linked (s.link id).1) := (status?_congr hchip).trans hst
  exact ⟨link_of_status hst', linkResult?_of_status hst', definition?_congr hchip⟩

/-- Calls that would change chip 1 of the crossed design: its name is declared again, it is to get
a pin, and the chip around it is frozen. -/
def disturb (s : Session) : Session :=
  let declared := (s.addSource "K.hdl" "CHIP K\x7bIN x;OUT y;\x7d").2
  ((declared.addPin 1 ⟨"z", 1, .input, .nowhere⟩).2.freeze 0).2

theorem later_disturb (s : Session) : Later s s.disturb :=
  ((Relation.ReflTransGen.single (.addSource _ _ _)).tail (.addPin _ _ _)).tail (.freeze _ _)

theorem Reachable.link_for_good_crossed :
    (crossed.link 1).2.disturb.log.errorCount = 2 ∧
      (crossed.link 1).2.disturb.link 1 = ((crossed.link 1).1, (crossed.link 1).2.disturb) ∧
      (crossed.link 1).2.disturb.linkResult? 1 = some (crossed.link 1).1 ∧
      (crossed.link 1).2.disturb.definition? 1 = (crossed.link 1).2.definition? 1 := by
  have hruns : (crossed.definition? 1).isSome ∧
      (crossed.link 1).2.disturb.log.errorCount = 2 := by decide +kernel
  obtain ⟨d, hd⟩ := Option.isSome_iff_exists.1 hruns.1
  exact ⟨hruns.2, reachable_crossed.link_for_good.2 1 d hd _ (later_disturb _)⟩

end Session

end ChipLogic
