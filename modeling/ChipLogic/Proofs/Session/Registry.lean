import ChipLogic.Proofs.Session.Script

/-!
# A name stands for one chip for good

**Tables in agreement** (`Session.Indexed`). There is one status for every definition. The table of
keys has the key of every chip and no other, and it leads to the one chip that has it; the table of
keys of a chip does the same for its pins (`PinTable.Exact`), which are 1 to 64 bits wide.

That the tables tell of the same things is kept by every change of them (`Tables.Agree`,
`PinTable.push`). It does not yet make a key stand for one thing only: chips and pins are asked for
by key before they are added (`Session.register`, `Definition.refusal?`), and this is what makes the
sessions that can be reached sound.

Texts, files, library look-ups and gates all register chips, and a name may have failed before its
chip is there, or its chip may be declared again after. None of this matters: a chip keeps its name,
no other chip gets the same key, and the registered chips are asked first.

**Theorem (`Session.Reachable.name_for_good`).** In a reachable session the tables agree, and from
then on every spelling of a chip's name finds this chip, without a report and without a look at any
file.
-/

namespace ChipLogic

/-- The table of keys leads to the one pin that has the key, and the widths are allowed. -/
structure PinTable.Exact (t : PinTable) : Prop where
  pin : ∀ key i, t.byKey.find? key = some i ↔ ∃ p, t.slots[i]? = some ⟨i, p⟩ ∧ p.key = key
  width : ∀ slot ∈ t.slots, 1 ≤ slot.item.width ∧ slot.item.width ≤ 64

theorem PinTable.exact_of_sound {t : PinTable} (h : Pins.Sound t.pins) : t.Exact where
  pin key i := by
    rw [t.find?_byKey, h.findPin?_eq_some_iff, t.getElem?_slots]
    simp
  width slot hslot := by
    have hp := Numbered.mem_items (Array.mem_toList_iff.2 hslot)
    exact ⟨h.width_pos slot.item hp, h.width_le slot.item hp⟩

namespace Session

variable {s s' : Session} {id : Nat}

/-- The tables of a session agree, and a key stands for one chip. -/
structure Indexed (s : Session) : Prop where
  statuses : s.registry.statuses.size = s.registry.definitions.size
  chip : ∀ (key : String) (id : Nat), s.registry.byKey.find? key = some id ↔
    ∃ d, s.registry.definitions[id]? = some d ∧ d.key = key
  unique : ∀ (id id' : Nat) (d d' : Definition), s.registry.definitions[id]? = some d →
    s.registry.definitions[id']? = some d' → d.key = d'.key → id = id'
  pins : ∀ (id : Nat) (d : Definition), s.registry.definitions[id]? = some d → d.pinTable.Exact

theorem Sound.unique (h : s.Sound) {id id' : Nat} {d d' : Definition}
    (hd : s.definition? id = some d) (hd' : s.definition? id' = some d') (hk : d.key = d'.key) :
    id = id' := by
  have hfind := h.find?_eq hd
  rw [hk, h.find?_eq hd', Option.some.injEq] at hfind
  exact hfind.symm

theorem Sound.indexed (h : s.Sound) : s.Indexed where
  statuses := s.registry.agree.size
  chip key id := by
    refine ⟨definition?_of_find?, ?_⟩
    rintro ⟨d, hd, rfl⟩
    exact h.find?_eq hd
  unique _ _ _ _ hd hd' hk := h.unique hd hd' hk
  pins _ _ hd := PinTable.exact_of_sound (h.sane_definition hd).pins

/-- A registered chip is found at once, whatever else is remembered of its name. -/
theorem resolve_of_lookup? {name : String} (h : s.lookup? name = some id) (span : Span) :
    s.resolve name span = (some id, s) := by
  simp [resolve, h]

theorem Later.definition? (h : Later s s') {d : Definition} (hd : s.definition? id = some d) :
    ∃ d', s'.definition? id = some d' ∧ d.Grows d' := by
  obtain ⟨script, rfl⟩ := later_iff_after.1 h
  exact definition?_after script hd

/-- **A name stands for one chip for good.** -/
theorem Reachable.name_for_good (h : s.Reachable) :
    s.Indexed ∧ ∀ id d, s.definition? id = some d → ∀ s', Later s s' →
      ∀ spelling, foldCase spelling = foldCase d.name →
        s'.lookup? spelling = some id ∧ s'.chip spelling = (some id, s') := by
  refine ⟨h.sound.indexed, fun id d hd s' hl spelling hs => ?_⟩
  obtain ⟨d', hd', hg⟩ := hl.definition? hd
  have hkey : foldCase spelling = d'.key := hs.trans hg.key.symm
  have hlookup : s'.lookup? spelling = some id := by
    rw [lookup?, hkey]
    exact (h.later hl).sound.find?_eq hd'
  exact ⟨hlookup, resolve_of_lookup? hlookup .nowhere⟩

/-- The name led nowhere and then stood in a broken text before it was declared. -/
def belated : Session :=
  Session.after { disk := .empty } [.chip "Half", .addSource "broken.hdl" "CHIP Half\x7bIN x\x7d",
    .addSource "half.hdl" "CHIP Half\x7bIN x;OUT y;\x7d"]

theorem reachable_belated : belated.Reachable :=
  (Reachable.start .empty none).later (later_iff_after.2 ⟨_, rfl⟩)

/-- The name comes up in another broken text and is declared again in another spelling. -/
def reclaimed : Session :=
  belated.after [.addSource "torn.hdl" "CHIP HALF\x7bIN x\x7d", .addSource "twice.hdl" "CHIP half\x7b\x7d"]

theorem Reachable.name_for_good_belated :
    belated.missing = ["Half"] ∧ reclaimed.failed = ["half"] ∧ reclaimed.log.errorCount = 4 ∧
      reclaimed.lookup? "hALF" = some 0 ∧ reclaimed.chip "hALF" = (some 0, reclaimed) := by
  have hruns : belated.missing = ["Half"] ∧ reclaimed.failed = ["half"] ∧
      reclaimed.log.errorCount = 4 ∧ (belated.definition? 0).map (·.name) = some "Half" := by
    decide +kernel
  obtain ⟨hmissing, hfailed, hcount, hname⟩ := hruns
  obtain ⟨d, hd, hn⟩ := Option.map_eq_some_iff.1 hname
  have hspelling : foldCase "hALF" = foldCase d.name := by
    rw [hn]
    decide
  exact ⟨hmissing, hfailed, hcount, reachable_belated.name_for_good.2 0 d hd reclaimed
    (later_iff_after.2 ⟨_, rfl⟩) "hALF" hspelling⟩

end Session

end ChipLogic
