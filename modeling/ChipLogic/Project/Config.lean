import ChipLogic.Files.Disk
import ChipLogic.Files.Path
import ChipLogic.Sim.Settle
import ChipLogic.Toml.Reader

/-!
# Project files

A project is a directory with a file `gatesim.toml` (`configFileName`), which names the project, its
top chip, the folder of its chips and the limits of simulations:

```text
[project]
name = "adders"
top = "Add4"
library = "lib"

[sim]
max_passes = 64
max_table_inputs = 8
```

Only the name and the top chip are required. A record is written as a table, or as an array of its
fields in the order above; keys that mean nothing here are passed over.
-/

namespace ChipLogic

/-- The file that makes a directory a project. -/
def configFileName : String := "gatesim.toml"

/-- A project: the library is seen from the project's directory. -/
structure Project where
  name : String
  top : String
  library : String
  limits : Limits
  deriving DecidableEq, Repr

/-- Why there is no project. -/
inductive ConfigError where
  | unreadable (reason : ReadError)
  /-- The text is no TOML, or a value is missing or of the wrong kind. -/
  | malformed
  /-- A required text is empty. -/
  | missing (field : String)
  | noPasses
  | tableInputs
  deriving DecidableEq, Repr

/-- The most input bits that a project may allow for tables. -/
def maxTableInputsLimit : Nat := 24

def ConfigError.message : ConfigError → String
  | .unreadable reason => s!"failed to read configuration: {reason.message}"
  | .malformed => "failed to parse configuration: not a valid project file"
  | .missing field => s!"missing required field: {field}"
  | .noPasses => "validation error: sim.max_passes must be at least 1"
  | .tableInputs =>
    s!"validation error: sim.max_table_inputs must be between 1 and {maxTableInputsLimit}"

/-! ## Records -/

/-- The fields that a value gives as a record, each by its name or its place. -/
structure Record where
  named : Toml.Entries := []
  placed : List Toml.Node := []

namespace Record

/-- A value as a record. A date is a record in which no field is known. -/
def ofNode? : Toml.Node → Option Record
  | .table _ entries => some { named := entries }
  | .array items => some { placed := items }
  | .rows tables => some { placed := tables.map (.table .defined) }
  | .date _ => some {}
  | _ => none

def field? (r : Record) (name : String) (place : Nat) : Option Toml.Node :=
  (r.named.lookup name).or r.placed[place]?

/-- The text in a field, or what stands in for a missing one. -/
def text? (r : Record) (name : String) (place : Nat) (missing : Option String) : Option String :=
  match r.field? name place with
  | none => missing
  | some (.text value) => some value
  | some _ => none

/-- The number in a field, below 2³², or what stands in for a missing one. -/
def count? (r : Record) (name : String) (place : Nat) (missing : Nat) : Option Nat :=
  match r.field? name place with
  | none => some missing
  | some (.integer value) => if 0 ≤ value ∧ value.toNat < UInt32.size then some value.toNat else none
  | some _ => none

end Record

/-! ## Reading -/

namespace Project

def readLimits (r : Record) : Option Limits := do
  let usual : Limits := {}
  let maxPasses ← r.count? "max_passes" 0 usual.maxPasses
  let maxTableInputs ← r.count? "max_table_inputs" 1 usual.maxTableInputs
  return ⟨maxPasses, maxTableInputs⟩

/-- The project that a document describes, before its values are looked at. -/
def ofEntries? (entries : Toml.Entries) : Option Project := do
  let about ← (entries.lookup "project").bind Record.ofNode?
  let name ← about.text? "name" 0 none
  let top ← about.text? "top" 1 none
  let library ← about.text? "library" 2 (some ".")
  let limits ← match entries.lookup "sim" with
    | none => some {}
    | some node => (Record.ofNode? node).bind readLimits
  return ⟨name, top, library, limits⟩

/-- The first thing that is wrong with the values of a project. -/
def fault? (p : Project) : Option ConfigError :=
  if p.name.isEmpty then some (.missing "project.name")
  else if p.top.isEmpty then some (.missing "project.top")
  else if p.limits.maxPasses = 0 then some .noPasses
  else if p.limits.maxTableInputs = 0 ∨ maxTableInputsLimit < p.limits.maxTableInputs then
    some .tableInputs
  else none

/-- Reads the text of a project file. -/
def parse (text : String) : Except ConfigError Project :=
  match (Toml.parse? text).bind ofEntries? with
  | none => .error .malformed
  | some p =>
    match p.fault? with
    | some e => .error e
    | none => .ok p

/-- Reads the project in a directory. -/
def load (disk : Disk) (directory : String) : Except ConfigError Project :=
  match disk.read (joinPath directory configFileName) with
  | .error reason => .error (.unreadable reason)
  | .ok text => parse text

/-- The folder of the chips of a project in a directory. -/
def libraryIn (p : Project) (directory : String) : String :=
  joinPath directory p.library

end Project

end ChipLogic
