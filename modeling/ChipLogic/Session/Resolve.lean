import ChipLogic.Chip.Builder
import ChipLogic.Files.Path
import ChipLogic.Hdl.Parser
import ChipLogic.Session.Basic

/-!
# Finding chips by name

A name is looked for among the registered chips, then in the library folder, then among the
built-in gates. The first ignores case; the file and the gate must have exactly that name.

**Loading is all or nothing** (`Session.loadSource`): a text with a fault registers none of its
chips. **A question is asked once** (`Session.resolve`): the second time a name is found among the
registered chips, or it is known to have failed and nothing is reported again.
-/

namespace ChipLogic

namespace Session

/-- Registers a definition unless its key is taken. -/
def register (s : Session) (d : Definition) : Option Nat × Session :=
  match s.find? d.key with
  | some id =>
    let previous := ((s.definition? id).map (·.span)).getD .nowhere
    (none, s.report (.duplicateChip d.name previous) d.span)
  | none => (some s.chips.size, s.enroll d)

/-- Registers definitions in order and gives the positions of the new chips. -/
def registerAll (s : Session) : List Definition → List Nat × Session
  | [] => ([], s)
  | d :: ds =>
    let (id, s) := s.register d
    let (ids, s) := s.registerAll ds
    (id.toList ++ ids, s)

/-- Adds a text to the sources and registers its chips. A text with faults registers nothing; its
chips count as failed. -/
def loadSource (s : Session) (path text : String) : Option (List Nat) × Session :=
  let parsed := Hdl.parse (some s.sources.size) text
  let s := { s with sources := s.sources.add path text }
  let built := if parsed.faults.isEmpty then Definition.ofDocument parsed.document else ⟨[], []⟩
  let faults := parsed.faults ++ built.faults
  if faults.isEmpty then
    let (ids, s) := s.registerAll built.definitions
    (some ids, s)
  else
    let keys := parsed.document.chips.map fun c => foldCase c.name
    (none, { s.emitAll faults with failed := s.failed ++ keys })

/-- Loads a text given under a name. -/
def addSource (s : Session) (name text : String) : List Nat × Session :=
  let (ids, s) := s.loadSource name text
  (ids.getD [], s)

/-- Loads a file. -/
def loadFile (s : Session) (path : String) : List Nat × Session :=
  match s.disk.read path with
  | .ok text => s.addSource path text
  | .error reason => ([], s.report (.unreadable path reason) .nowhere)

/-- Remembers that a name stands for no chip. -/
def giveUp (s : Session) (name : String) : Option Nat × Session :=
  (none, { s with missing := s.missing ++ [name] })

/-- The built-in gate of a name, the last place to look. -/
def resolveGate (s : Session) (name : String) (span : Span) : Option Nat × Session :=
  match Gate.ofName? name with
  | some g => s.register g.definition
  | none => (s.report (.chipNotFound name) span).giveUp name

/-- The chip of a name in a library text that was found for it. -/
def resolveText (s : Session) (path text name : String) (span : Span) : Option Nat × Session :=
  let (loaded, s) := s.loadSource path text
  match s.lookup? name with
  | some id =>
    let place := ((s.definition? id).map (·.span)).getD .nowhere
    (some id, if (Gate.ofName? name).isSome then s.report (.shadowsGate name) place else s)
  | none =>
    if loaded.isSome then
      (s.report (.fileMismatch name (chipFileName name)) span).giveUp name
    else s.giveUp name

/-- The chip of a name, loaded if need be. A failure is reported at `span`, once for each name. -/
def resolve (s : Session) (name : String) (span : Span) : Option Nat × Session :=
  match s.lookup? name with
  | some id => (some id, s)
  | none =>
    if s.failed.contains (foldCase name) || s.missing.contains name then (none, s)
    else match s.library with
      | none => s.resolveGate name span
      | some folder =>
        let path := joinPath folder (chipFileName name)
        let s := { s with asked := s.asked ++ [name] }
        match s.disk.read path with
        | .ok text => s.resolveText path text name span
        | .error .notFound => s.resolveGate name span
        | .error reason =>
          (s.report (.unreadable (chipFileName name) reason) .nowhere).giveUp name

/-- The chip of a name that is asked for from outside any text. -/
def chip (s : Session) (name : String) : Option Nat × Session :=
  s.resolve name .nowhere

end Session

end ChipLogic
