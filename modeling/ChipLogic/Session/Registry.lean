import ChipLogic.Chip.Definition

/-!
# The registry of chips

What a session knows of its chips stands in three tables: the definitions and how far each chip is
linked, both by position, and the positions by key (`Tables`). Every change writes to the tables
that it concerns: to register a chip is to add to all three.

**Tables in agreement** (`Tables.Agree`). Every definition has a status and every status a
definition, and a key stands for the last definition that has it. The empty tables agree, and each
change keeps the agreement (`Tables.Agree.register`, `Tables.Agree.setStatus`,
`Tables.Agree.modify`); for the table of keys this means that a chip never changes its key. A
`Registry` is tables in agreement, so what is read from one table fits what is read from another.
That no two chips have one key is left to who registers them.
-/

namespace ChipLogic

/-- How far linking of a chip has come. -/
inductive LinkStatus where
  | unlinked
  | inProgress
  /-- Finished, well or not. -/
  | linked (ok : Bool)
  deriving DecidableEq, Repr, Inhabited

/-- A registered chip. -/
structure Entry where
  definition : Definition
  status : LinkStatus := .unlinked
  deriving DecidableEq, Repr, Inhabited

/-- Chips, how far they are linked, and their keys. -/
structure Tables where
  definitions : Array Definition := #[]
  statuses : Array LinkStatus := #[]
  byKey : KeyIndex := {}

namespace Tables

/-- Adds a chip that is not linked yet. -/
def register (t : Tables) (d : Definition) : Tables where
  definitions := t.definitions.push d
  statuses := t.statuses.push .unlinked
  byKey := t.byKey.insert d.key t.definitions.size

def setStatus (t : Tables) (id : Nat) (status : LinkStatus) : Tables :=
  { t with statuses := t.statuses.modify id fun _ => status }

def modify (t : Tables) (id : Nat) (f : Definition → Definition) : Tables :=
  { t with definitions := t.definitions.modify id f }

/-- The tables tell of the same chips. -/
structure Agree (t : Tables) : Prop where
  size : t.statuses.size = t.definitions.size
  keys : t.byKey.Agrees Definition.key t.definitions.toList

namespace Agree

variable {t : Tables}

theorem empty : Agree {} := ⟨rfl, .empty Definition.key⟩

theorem register (h : t.Agree) (d : Definition) : (t.register d).Agree where
  size := by simp [Tables.register, h.size]
  keys := by simpa [Tables.register] using h.keys.insert d

theorem setStatus (h : t.Agree) (id : Nat) (status : LinkStatus) : (t.setStatus id status).Agree where
  size := by simp [Tables.setStatus, h.size]
  keys := h.keys

/-- A change that keeps the key of every definition keeps the table of keys right. -/
theorem modify (h : t.Agree) (id : Nat) {f : Definition → Definition}
    (hkey : ∀ d, (f d).key = d.key) : (t.modify id f).Agree where
  size := by simp [Tables.modify, h.size]
  keys := by
    have hkeys : (t.definitions.modify id f).toList.map Definition.key =
        t.definitions.toList.map Definition.key := by
      apply List.ext_getElem?
      intro i
      simp only [List.getElem?_map, Array.getElem?_toList, Array.getElem?_modify]
      split
      · cases t.definitions[i]? <;> simp [hkey]
      · rfl
    exact h.keys.congr hkeys

end Agree

end Tables

/-- Tables in agreement. -/
structure Registry extends Tables where
  agree : toTables.Agree

namespace Registry

def empty : Registry := ⟨{}, .empty⟩

def register (r : Registry) (d : Definition) : Registry :=
  ⟨r.toTables.register d, r.agree.register d⟩

def setStatus (r : Registry) (id : Nat) (status : LinkStatus) : Registry :=
  ⟨r.toTables.setStatus id status, r.agree.setStatus id status⟩

def modify (r : Registry) (id : Nat) (f : Definition → Definition)
    (hkey : ∀ d, (f d).key = d.key) : Registry :=
  ⟨r.toTables.modify id f, r.agree.modify id hkey⟩

/-! ## Chips with their statuses -/

/-- The definitions, each with its status. -/
def entries (r : Registry) : Array Entry :=
  (List.zipWith Entry.mk r.definitions.toList r.statuses.toList).toArray

theorem getElem?_entries (r : Registry) (id : Nat) :
    r.entries[id]? = r.definitions[id]?.bind fun d => r.statuses[id]?.map (Entry.mk d) := by
  rw [entries, List.getElem?_toArray, List.getElem?_zipWith]
  simp only [Array.getElem?_toList]
  cases r.definitions[id]? <;> cases r.statuses[id]? <;> rfl

@[simp]
theorem size_entries (r : Registry) : r.entries.size = r.definitions.size := by
  simp [entries, r.agree.size]

theorem getElem?_definitions (r : Registry) (id : Nat) :
    r.definitions[id]? = r.entries[id]?.map (·.definition) := by
  rw [getElem?_entries]
  cases hd : r.definitions[id]? with
  | none => rfl
  | some d =>
    have hlt : id < r.statuses.size := by
      rw [r.agree.size]
      exact (Array.getElem?_eq_some_iff.1 hd).1
    rw [Array.getElem?_eq_getElem hlt]
    rfl

theorem getElem?_statuses (r : Registry) (id : Nat) :
    r.statuses[id]? = r.entries[id]?.map (·.status) := by
  rw [getElem?_entries]
  cases hst : r.statuses[id]? with
  | none => cases r.definitions[id]? <;> rfl
  | some status =>
    have hlt : id < r.definitions.size := by
      rw [← r.agree.size]
      exact (Array.getElem?_eq_some_iff.1 hst).1
    rw [Array.getElem?_eq_getElem hlt]
    rfl

theorem map_definition_entries (r : Registry) :
    r.entries.toList.map (·.definition) = r.definitions.toList := by
  apply List.ext_getElem?
  intro i
  rw [List.getElem?_map, Array.getElem?_toList, Array.getElem?_toList, getElem?_definitions]

/-- The table of keys gives the last chip that has the key. -/
theorem find?_byKey (r : Registry) (key : String) :
    r.byKey.find? key = lastIndex? (fun e => e.definition.key == key) r.entries.toList := by
  rw [r.agree.keys key, ← r.map_definition_entries, lastIndex?_map]

@[simp]
theorem entries_register (r : Registry) (d : Definition) :
    (r.register d).entries = r.entries.push { definition := d } := by
  have hlen : r.definitions.toList.length = r.statuses.toList.length := by
    simp [r.agree.size]
  simp [entries, register, Tables.register, List.zipWith_append hlen]

/-- A registered chip stays where it is. -/
theorem getElem?_register {r : Registry} {id : Nat} {e : Entry} (he : r.entries[id]? = some e)
    (d : Definition) : (r.register d).entries[id]? = some e := by
  obtain ⟨hlt, -⟩ := Array.getElem?_eq_some_iff.1 he
  rw [entries_register, Array.getElem?_push, if_neg (Nat.ne_of_lt hlt), he]

@[simp]
theorem entries_setStatus (r : Registry) (id : Nat) (status : LinkStatus) :
    (r.setStatus id status).entries = r.entries.modify id fun e => { e with status } := by
  apply Array.ext_getElem?
  intro i
  rw [getElem?_entries, Array.getElem?_modify, getElem?_entries]
  simp only [setStatus, Tables.setStatus, Array.getElem?_modify]
  split <;> cases r.definitions[i]? <;> cases r.statuses[i]? <;> rfl

/-- The later status counts. -/
theorem setStatus_setStatus (r : Registry) (id : Nat) (status status' : LinkStatus) :
    (r.setStatus id status).setStatus id status' = r.setStatus id status' := by
  simp only [setStatus, Tables.setStatus, Registry.mk.injEq, Tables.mk.injEq, true_and, and_true]
  apply Array.ext_getElem?
  intro j
  simp only [Array.getElem?_modify]
  split
  · cases r.statuses[j]? <;> rfl
  · rfl

@[simp]
theorem entries_modify (r : Registry) (id : Nat) (f : Definition → Definition)
    (hkey : ∀ d, (f d).key = d.key) : (r.modify id f hkey).entries =
      r.entries.modify id fun e => { e with definition := f e.definition } := by
  apply Array.ext_getElem?
  intro i
  rw [getElem?_entries, Array.getElem?_modify, getElem?_entries]
  simp only [modify, Tables.modify, Array.getElem?_modify]
  split <;> cases r.definitions[i]? <;> cases r.statuses[i]? <;> rfl

end Registry

end ChipLogic
