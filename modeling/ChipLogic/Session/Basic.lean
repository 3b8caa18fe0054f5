import ChipLogic.Chip.Problem
import ChipLogic.Diagnostic.Log
import ChipLogic.Files.Disk
import ChipLogic.Session.Registry
import ChipLogic.Source.File

/-!
# Sessions

A session knows the chips registered so far (`Registry`), the sources they came from, and all
diagnostics. A chip is addressed by its position and found by its key, and no two chips have one
key.

**Failures are remembered** so that nothing is reported twice: the keys of chips in texts with
faults (`Session.failed`) and the exact names that led nowhere (`Session.missing`).
`Session.asked` lists the names whose file was looked for in the library folder.

**A chip changes only until it is linked.** While its parts are being linked it is in progress; a
part that leads back to such a chip closes a circle.
-/

namespace ChipLogic

/-- All that is known of chips at a moment. -/
structure Session where
  disk : Disk
  /-- The folder in which chips are looked for. -/
  library : Option String := none
  sources : SourceBook := {}
  log : Log := {}
  registry : Registry := .empty
  /-- Keys of chips declared in texts with faults and not registered since. -/
  failed : List String := []
  /-- Names, exactly as asked for, that stand for no chip. -/
  missing : List String := []
  /-- Names, exactly as asked for, whose file was looked for in the library. -/
  asked : List String := []

namespace Session

/-! ## Reading a session -/

/-- The registered chips, each with its status. -/
def chips (s : Session) : Array Entry := s.registry.entries

def definition? (s : Session) (id : Nat) : Option Definition :=
  s.registry.definitions[id]?

def status? (s : Session) (id : Nat) : Option LinkStatus :=
  s.registry.statuses[id]?

/-- The position that the table of keys has for a key. -/
def find? (s : Session) (key : String) : Option Nat :=
  s.registry.byKey.find? key

/-- The registered chip of a name, in any spelling. -/
def lookup? (s : Session) (name : String) : Option Nat :=
  s.find? (foldCase name)

/-- The name of a chip, empty for an unknown position. -/
def chipName (s : Session) (id : Nat) : String :=
  ((s.definition? id).map (·.name)).getD ""

@[simp]
theorem chips_start (disk : Disk) (library : Option String) :
    Session.chips { disk, library } = #[] := rfl

theorem definition?_eq (s : Session) (id : Nat) :
    s.definition? id = s.chips[id]?.map (·.definition) :=
  s.registry.getElem?_definitions id

theorem status?_eq (s : Session) (id : Nat) : s.status? id = s.chips[id]?.map (·.status) :=
  s.registry.getElem?_statuses id

theorem find?_eq_lastIndex? (s : Session) (key : String) :
    s.find? key = lastIndex? (fun e => e.definition.key == key) s.chips.toList :=
  s.registry.find?_byKey key

theorem definition?_eq_some_iff {s : Session} {id : Nat} {d : Definition} :
    s.definition? id = some d ↔ ∃ e, s.chips[id]? = some e ∧ e.definition = d := by
  rw [definition?_eq, Option.map_eq_some_iff]

theorem status?_eq_some_iff {s : Session} {id : Nat} {status : LinkStatus} :
    s.status? id = some status ↔ ∃ e, s.chips[id]? = some e ∧ e.status = status := by
  rw [status?_eq, Option.map_eq_some_iff]

/-- What linking the chip came to, once it is finished. -/
def linkResult? (s : Session) (id : Nat) : Option Bool :=
  match s.status? id with
  | some (.linked ok) => some ok
  | _ => none

/-! ## Changing a session -/

/-- Reports a diagnostic. -/
def emit (s : Session) (d : Diagnostic) : Session :=
  { s with log := s.log.emit d }

/-- Reports diagnostics in order. -/
def emitAll (s : Session) (ds : List Diagnostic) : Session :=
  { s with log := s.log.emitAll ds }

/-- Reports a problem at a place. -/
def report (s : Session) (p : Problem) (span : Span) : Session :=
  s.emit (p.report span)

/-- Takes out the stored diagnostics. -/
def takeAll (s : Session) : List Diagnostic × Session :=
  let (taken, log) := s.log.takeAll
  (taken, { s with log })

/-- Adds a chip; its name fails no longer. -/
def enroll (s : Session) (d : Definition) : Session :=
  { s with registry := s.registry.register d
           failed := s.failed.filter (· != d.key) }

def setStatus (s : Session) (id : Nat) (status : LinkStatus) : Session :=
  { s with registry := s.registry.setStatus id status }

/-- Changes a definition, but not its key. -/
def modifyDefinition (s : Session) (id : Nat) (f : Definition → Definition)
    (hkey : ∀ d, (f d).key = d.key) : Session :=
  { s with registry := s.registry.modify id f hkey }

@[simp]
theorem chips_enroll (s : Session) (d : Definition) :
    (s.enroll d).chips = s.chips.push { definition := d } :=
  s.registry.entries_register d

theorem find?_enroll (s : Session) (d : Definition) (key : String) :
    (s.enroll d).find? key = if d.key = key then some s.chips.size else s.find? key := by
  rw [chips, Registry.size_entries]
  exact KeyIndex.find?_insert ..

@[simp]
theorem chips_setStatus (s : Session) (id : Nat) (status : LinkStatus) :
    (s.setStatus id status).chips = s.chips.modify id fun e => { e with status } :=
  s.registry.entries_setStatus id status

@[simp]
theorem chips_modifyDefinition (s : Session) (id : Nat) (f : Definition → Definition)
    (hkey : ∀ d, (f d).key = d.key) : (s.modifyDefinition id f hkey).chips =
      s.chips.modify id fun e => { e with definition := f e.definition } :=
  s.registry.entries_modify id f hkey

theorem status?_setStatus_eq (s : Session) (id : Nat) (status : LinkStatus) (j : Nat) :
    (s.setStatus id status).status? j =
      if id = j then (s.status? j).map fun _ => status else s.status? j :=
  Array.getElem?_modify

theorem setStatus_setStatus (s : Session) (id : Nat) (status status' : LinkStatus) :
    (s.setStatus id status).setStatus id status' = s.setStatus id status' := by
  rw [setStatus, setStatus, setStatus, Registry.setStatus_setStatus]

theorem definition?_modifyDefinition_eq (s : Session) (id : Nat) (f : Definition → Definition)
    (hkey : ∀ d, (f d).key = d.key) (j : Nat) : (s.modifyDefinition id f hkey).definition? j =
      if id = j then (s.definition? j).map f else s.definition? j :=
  Array.getElem?_modify

/-- Adds a pin to a chip whatever its status. The new pin's position, or a report. -/
def addPinTo (s : Session) (id : Nat) (p : Pin) : Option Nat × Session :=
  match s.definition? id with
  | none => (none, s)
  | some d =>
    match d.refusal? p with
    | none => (some d.pins.size, s.modifyDefinition id (·.push p) fun d => d.key_push p)
    | some refusal => (none, s.report (.pinRefused d.name p.name refusal) p.span)

/-- **What adding a pin comes to**: nothing at an unknown position, a report, or one more pin. -/
theorem addPinTo_cases (s : Session) (id : Nat) (p : Pin) :
    (s.definition? id = none ∧ s.addPinTo id p = (none, s)) ∨
      (∃ d refusal, s.definition? id = some d ∧ d.refusal? p = some refusal ∧ s.addPinTo id p =
        (none, s.report (.pinRefused d.name p.name refusal) p.span)) ∨
      ∃ d, s.definition? id = some d ∧ d.refusal? p = none ∧ s.addPinTo id p =
        (some d.pins.size, s.modifyDefinition id (·.push p) fun d => d.key_push p) := by
  unfold addPinTo
  cases hd : s.definition? id with
  | none => exact .inl ⟨rfl, rfl⟩
  | some d =>
    cases hr : d.refusal? p with
    | some refusal => exact .inr (.inl ⟨d, refusal, rfl, hr, by simp only [hr]⟩)
    | none => exact .inr (.inr ⟨d, rfl, hr, by simp only [hr]⟩)

/-- Adds a pin to a chip that is not linked yet. -/
def addPin (s : Session) (id : Nat) (p : Pin) : Option Nat × Session :=
  match s.status? id with
  | none => (none, s)
  | some .unlinked => s.addPinTo id p
  | some _ => (none, s.report (.alreadyLinked (s.chipName id) p.name) p.span)

/-- A pin is added to a chip that is not linked yet, and else there is at most a report. -/
theorem addPin_cases (s : Session) (id : Nat) (p : Pin) :
    (s.addPin id p = (none, s)) ∨
      (s.status? id = some .unlinked ∧ s.addPin id p = s.addPinTo id p) ∨
      s.addPin id p = (none, s.report (.alreadyLinked (s.chipName id) p.name) p.span) := by
  unfold addPin
  split
  · exact .inl rfl
  · next hs => exact .inr (.inl ⟨hs, rfl⟩)
  · exact .inr (.inr rfl)

end Session

end ChipLogic
