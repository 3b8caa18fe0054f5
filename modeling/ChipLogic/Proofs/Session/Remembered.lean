import ChipLogic.Proofs.Hdl.Salvage
import ChipLogic.Proofs.Session.Offline

/-!
# The names that a text answers

A text that is loaded answers the names of its chips. If it has no faults, the names stand for chips
afterwards; if it has any, it is remembered that they failed. Either way these are the names of the
chips that the parser reads (`Session.answered_addSource_iff`). A chip that is left open is not among
them.

**Theorem (`Session.addSource_silences_iff`).** After a text was loaded without a library, a name
that stands for no chip is passed over in silence for ever if it was answered before or a chip of
that name is closed in the text. Any other name leads to a report when it is asked for, unless it is
the name of a gate.
-/

namespace ChipLogic

/-- A chip of the name, in any spelling, is closed in the text. -/
def HasChip (text name : String) : Prop :=
  ∃ name', foldCase name' = foldCase name ∧
    Hdl.ClosesChip name' (Hdl.words (Hdl.Piece.split text.toList))

/-- These are the names of the chips that the parser reads. -/
theorem hasChip_iff (file : Option Nat) (text name : String) : HasChip text name ↔
    ∃ node ∈ (Hdl.parse file text).document.chips, foldCase node.name = foldCase name := by
  constructor
  · rintro ⟨name', hfold, hclosed⟩
    obtain ⟨node, hnode, rfl⟩ := (Hdl.exists_chip_iff file text name').2 hclosed
    exact ⟨node, hnode, hfold⟩
  · rintro ⟨node, hnode, hfold⟩
    exact ⟨node.name, hfold, (Hdl.exists_chip_iff file text node.name).1 ⟨node, hnode, rfl⟩⟩

namespace Session

variable {s : Session} {path text name : String}

/-! ## Registering -/

/-- To register a definition answers its name and no other. -/
theorem answered_register_iff (s : Session) (d : Definition) :
    (s.register d).2.Answered name ↔ s.Answered name ∨ d.key = foldCase name := by
  have hfind := find?_register s d (foldCase name)
  have hfailed : (s.register d).2.failed ⊆ s.failed := by
    unfold register
    split
    · exact List.Subset.refl _
    · exact List.filter_subset_self _
  constructor
  · rintro (h | h | h)
    · by_cases hk : d.key = foldCase name
      · exact .inr hk
      · rw [lookup?, hfind, if_neg (by simpa using hk), Option.or_none] at h
        exact .inl (.inl h)
    · exact .inl (.inr (.inl (hfailed h)))
    · rw [(passes_register s d).missing] at h
      exact .inl (.inr (.inr h))
  · rintro (h | hk)
    · exact (passes_register s d).answered name h
    · exact .inl (by simp [lookup?, hfind, hk])

/-- Definitions that are registered answer their names, be they new or not. -/
theorem answered_registerAll_iff (s : Session) (ds : List Definition) :
    (s.registerAll ds).2.Answered name ↔
      s.Answered name ∨ ∃ d ∈ ds, d.key = foldCase name := by
  induction ds generalizing s with
  | nil => simp [registerAll]
  | cons d ds ih =>
    have hrest := ih (s.register d).2
    rw [answered_register_iff, or_assoc] at hrest
    rw [List.exists_mem_cons_iff]
    exact hrest

/-- The definitions of a text have the names of its chips. -/
theorem exists_definition_iff (s : Session) (text name : String) :
    (∃ d ∈ s.definitionsOf text, d.key = foldCase name) ↔ HasChip text name := by
  rw [hasChip_iff (some s.sources.size)]
  simp [definitionsOf, Definition.ofDocument, Definition.key, (Definition.ofNode_spec _).1]

/-! ## Loading -/

/-- A text with faults answers the names whose failure is remembered. -/
theorem answered_addSource_of_faults (h : s.faultsOf text ≠ []) :
    (s.addSource path text).2.Answered name ↔ s.Answered name ∨ HasChip text name := by
  have hkeys : foldCase name ∈ (Hdl.parse (some s.sources.size) text).document.chips.map
      (fun c => foldCase c.name) ↔ HasChip text name := by
    rw [hasChip_iff (some s.sources.size), List.mem_map]
  rw [addSource_of_faults h, ← hkeys]
  simp only [Answered, List.mem_append]
  show (s.lookup? name).isSome ∨ _ ↔ _
  tauto

/-- A text without faults answers the names that stand for chips. -/
theorem answered_addSource_of_faultless (h : s.faultsOf text = []) :
    (s.addSource path text).2.Answered name ↔ s.Answered name ∨ HasChip text name := by
  obtain ⟨hp, hb⟩ := faultsOf_eq_nil_iff.1 h
  rw [addSource, loadSource_of_faultless hp hb, ← exists_definition_iff s]
  exact answered_registerAll_iff _ _

/-- **A text answers the names of its chips**, and no others. -/
theorem answered_addSource_iff (s : Session) (path text name : String) :
    (s.addSource path text).2.Answered name ↔ s.Answered name ∨ HasChip text name := by
  by_cases h : s.faultsOf text = []
  · exact answered_addSource_of_faultless h
  · exact answered_addSource_of_faults h

/-! ## Asking -/

/-- Without a library, to ask for a name that is not answered finds a gate or leads to a report. -/
theorem answered_of_silent (hlib : s.library = none) (hnone : (s.chip name).1 = none)
    (hlog : (s.chip name).2.log.history = s.log.history) : s.Answered name := by
  have hsearch := localSearch_resolve hlib name .nowhere
  rw [chip] at hnone hlog
  generalize s.resolve name .nowhere = r at hsearch hnone hlog
  cases hsearch with
  | answered known => exact known
  | gate unknown named => cases hnone
  | nothing unknown unnamed => exact absurd hlog (by simp [giveUp, report, emit, Log.emit])

/-- **Which names are passed over in silence after a text was loaded**: those that were answered
before, and those of the chips that are closed in the text, whatever faults there are in it. -/
theorem addSource_silences_iff (hlib : s.library = none) (path text name : String) :
    (∀ t, Later (s.addSource path text).2 t → t.lookup? name = none →
        (t.chip name).1 = none ∧ (t.chip name).2.log.history = t.log.history) ↔
      s.Answered name ∨ HasChip text name := by
  rw [← answered_addSource_iff s path]
  constructor
  · intro hsilent
    cases hl : (s.addSource path text).2.lookup? name with
    | some id => exact .inl (by rw [hl]; rfl)
    | none =>
      obtain ⟨hnone, hlog⟩ := hsilent _ .refl hl
      exact answered_of_silent ((advances_addSource s path text none).library.trans hlib) hnone hlog
  · intro hn t ht hl
    rw [ht.chip_of_answered hn]
    exact ⟨hl, rfl⟩

/-- One chip with a fault that is closed, and one that is left open. -/
def halfText : String := "CHIP Torn \x7b IN a \x7d CHIP Open \x7b IN b;"

theorem addSource_silences_iff_half : Session.faultsOf { disk := .empty } halfText ≠ [] ∧
    ∀ t, Later (Session.addSource { disk := .empty } "half.hdl" halfText).2 t →
      t.lookup? "torn" = none →
        (t.chip "torn").1 = none ∧ (t.chip "torn").2.log.history = t.log.history := by
  have hchip : HasChip halfText "torn" := (hasChip_iff none halfText "torn").2 (by decide +kernel)
  exact ⟨by decide +kernel,
    (addSource_silences_iff rfl "half.hdl" halfText "torn").2 (.inr hchip)⟩

/-- A chip that is left open. -/
def openText : String := "CHIP A \x7b IN x;"

theorem reports_again_open :
    let s := (Session.addSource { disk := .empty } "open.hdl" openText).2
    s.log.errorCount = 1 ∧
      (∃ head rest, Hdl.words (Hdl.Piece.split openText.toList) = head ++ rest ∧
        Hdl.OpensChip "A" head) ∧
      s.lookup? "A" = none ∧ (s.chip "A").2.log.errorCount = 2 := by
  have hwords : Hdl.words (Hdl.Piece.split openText.toList) =
      [(.chip, "CHIP"), (.identifier, "A"), (.leftBrace, "\x7b")] ++
        [(.input, "IN"), (.identifier, "x"), (.semicolon, ";")] := by
    decide +kernel
  exact ⟨by decide +kernel, ⟨_, _, hwords, _, _, rfl⟩, by decide +kernel, by decide +kernel⟩

end Session

end ChipLogic
