import ChipLogic.Chip.Printer
import ChipLogic.Cli.Help
import ChipLogic.Diagnostic.Render
import ChipLogic.Project.Build
import ChipLogic.Sim.Run
import ChipLogic.Sim.Table
import ChipLogic.Text.Json

/-!
# The program

What the program writes, and the code it ends with, for a command line (`run`). The files it needs
come from the disk of its surroundings, so a run is a function.

Chips are looked for in the folder given with `--lib`, else in the library of the project, else in
the working directory. The project is the one named with `--config`, else that of the nearest
directory around the working directory that has a project file.

**Codes.** 0 when all went well, 1 when a chip cannot be built or evaluated, 2 for a command line
that makes no sense. Results go to the standard output, all else to the standard error.
-/

namespace ChipLogic.Cli

/-- What a run finds when it starts. -/
structure Surroundings where
  disk : Disk
  /-- The working directory, as an absolute path. -/
  directory : String
  /-- The standard error is a terminal. -/
  isTerminal : Bool := false

/-- What a run leaves behind. -/
structure Report where
  code : Nat
  out : String := ""
  err : String := ""
  /-- The paths that were looked at. -/
  paths : List String := []
  deriving DecidableEq, Repr

/-- Why a command cannot be carried out. -/
inductive Failure where
  | unreadable (reason : ReadError)
  | config (e : ConfigError)
  | noChip
  | internal (e : InternalError)
  | notInput (pin chip : String)
  | badInput (e : SimError)
  | unsettled (e : SimError) (net : Netlist)
  deriving DecidableEq, Repr

def Failure.message : Failure → String
  | .unreadable reason => reason.message
  | .config e => e.message
  | .noChip => s!"no chip given and no {configFileName} with a `project.top`"
  | .internal e => e.message
  | .notInput pin chip => s!"`{pin}` is not an input of `{chip}`"
  | .badInput e => e.message
  | .unsettled e net => e.described net

/-! ## Opening a project -/

/-- A project and the directory that it is in. -/
structure Place where
  directory : String
  project : Project
  deriving DecidableEq, Repr

/-- The project in a directory. -/
def placeIn (disk : Disk) (directory : String) : Except Failure Place :=
  match Project.load disk directory with
  | .ok p => .ok ⟨directory, p⟩
  | .error e => .error (.config e)

/-- The project of a project file. -/
def placeOfFile (disk : Disk) (path : String) : Except Failure Place :=
  match disk.read path with
  | .error reason => .error (.unreadable reason)
  | .ok text =>
    match Project.parse text with
    | .ok p => .ok ⟨(parentPath? path).getD ".", p⟩
    | .error e => .error (.config e)

/-- The nearest directory with a project file. -/
def nearestProject? (disk : Disk) (directory : String) : Option String :=
  (ancestors directory).find? fun d => disk.isFile (joinPath d configFileName)

/-- The project of a run, if there is any. -/
def place? (w : Surroundings) (s : Settings) : Except Failure (Option Place) :=
  match s.config with
  | some path =>
    (if w.disk.isFile path then placeOfFile w.disk path else placeIn w.disk path).map some
  | none =>
    match nearestProject? w.disk w.directory with
    | some directory => (placeIn w.disk directory).map some
    | none => .ok none

/-- Where chips are looked for. -/
def folder (w : Surroundings) (s : Settings) (place : Option Place) : String :=
  match s.library, place with
  | some path, _ => path
  | none, some p => p.project.libraryIn p.directory
  | none, none => w.directory

/-- The paths at which a project may be found. -/
def configPaths (w : Surroundings) (s : Settings) : List String :=
  match s.config with
  | some path => [path, joinPath path configFileName]
  | none => (ancestors w.directory).map fun d => joinPath d configFileName

/-! ## Desks -/

/-- All that a command works with. -/
structure Desk where
  session : Session
  limits : Limits
  top : Option String
  settings : Settings
  colour : Bool

/-- Prepares a run. -/
def openDesk (w : Surroundings) (s : Settings) : Except Failure Desk := do
  let place ← place? w s
  let colour := match s.colour.getD .auto with
    | .auto => w.isTerminal
    | .always => true
    | .never => false
  return {
    session := { disk := w.disk, library := some (folder w s place) }
    limits := (place.map (·.project.limits)).getD {}
    top := place.map (·.project.top)
    settings := s
    colour }

namespace Desk

/-- The chip of the command line, else the top chip of the project. -/
def chipName (d : Desk) (given : Option String) : Except Failure String :=
  match given.or d.top with
  | some name => .ok name
  | none => .error .noChip

/-- The diagnostics of a session with an empty line after each. Only errors are shown quietly. -/
def shown (d : Desk) (s : Session) : String :=
  let wanted := s.log.stored.filter fun r => !d.settings.quiet || r.isError
  String.join (wanted.map fun r => r.render s.sources d.colour ++ "\n")

/-- A line that is left out quietly. -/
def remark (d : Desk) (text : String) : String :=
  if d.settings.quiet then "" else "   " ++ text ++ "\n"

/-- The numbers of errors and warnings. -/
def summary (d : Desk) (s : Session) : String :=
  let warnings := s.log.countSeverity .warning
  d.remark s!"Result: {s.log.errorCount} error(s), {warnings} warning(s)"

/-- The library paths that a session looked at. -/
def libraryPaths (s : Session) : List String :=
  s.asked.map fun name => joinPath (s.library.getD "") (chipFileName name)

end Desk

/-- The end of a command that failed after writing some text. -/
def failed (f : Failure) (s : Session) (err : String) : Report :=
  { code := 1, err := err ++ "error: " ++ f.message ++ "\n", paths := Desk.libraryPaths s }

/-- The end of a command with a result. -/
def ended (code : Nat) (s : Session) (out err : String) : Report :=
  { code, out, err, paths := Desk.libraryPaths s }

/-! ## Commands -/

/-- Links a chip and reports on it. -/
def check (d : Desk) (name : String) : Report :=
  let head := d.remark s!"Checking {name}"
  let build := Build.inSession d.session name
  let s := build.session
  match build.netlist with
  | .error e => failed (.internal e) s head
  | .ok netlist =>
    let report := head ++ d.shown s ++ d.summary s
    match netlist, s.log.hasErrors with
    | some net, false =>
      ended 0 s "" (report ++ d.remark s!"Linked {name}: {net.size} chip definition(s)")
    | _, _ => ended 1 s "" report

/-- Writes the canonical text of a chip, which need not link. -/
def render (d : Desk) (name : String) : Report :=
  let (id, s) := d.session.chip name
  match id.bind s.definition? with
  | some c => ended 0 s c.render (d.shown s)
  | none => ended 1 s "" (d.shown s)

/-- Builds a chip and goes on with its netlist. -/
def withNetlist (d : Desk) (name : String) (use : Netlist → Except Failure String) : Report :=
  let build := Build.inSession d.session name
  let s := build.session
  match build.netlist with
  | .error e => failed (.internal e) s ""
  | .ok none => ended 1 s "" (d.shown s)
  | .ok (some net) =>
    match use net with
    | .ok out => ended 0 s out (d.shown s)
    | .error f => failed f s (d.shown s)

/-- Sets inputs of the top chip by name. Only input pins may be set. -/
def setInputs (net : Netlist) (chip : String) :
    List (String × UInt64) → State → Except Failure State
  | [], s => .ok s
  | (name, value) :: rest, s =>
    match s.pinNamed net name with
    | .error e => .error (.badInput e)
    | .ok pin =>
      if ((s.chipIn net).pins[pin]?).map (·.kind) ≠ some .input then .error (.notInput name chip)
      else match s.setNamed net name value with
        | (.error e, _) => .error (.badInput e)
        | (.ok _, s) => setInputs net chip rest s

/-- Values of pins in binary digits, one in a line. -/
def pinLines (values : List (Pin × UInt64)) : String :=
  String.join (values.map fun (p, value) =>
    p.name ++ " = " ++ String.ofList (Numeral.padded 2 p.width value.toNat) ++ "\n")

/-- Values of pins as a record, sorted by name. -/
def pinRecord (values : List (Pin × UInt64)) : Json :=
  let entries := values.map fun (p, value) => (p.name, Json.number value.toNat)
  .record (entries.mergeSort fun a b => !(b.1 < a.1))

/-- Settles a chip for some inputs and writes its outputs. -/
def eval (d : Desk) (name : String) (inputs : List (String × UInt64)) (format : Format) : Report :=
  withNetlist d name fun net => do
    let s ← (State.fresh? net net.top).mapError Failure.badInput
    let s ← setInputs net name inputs s
    match s.evaluate net d.limits with
    | (.error e, _) => .error (.unsettled e net)
    | (.ok _, s) =>
      let values := s.outputs net
      match format with
      | .text => return pinLines values
      | .json => return (pinRecord values).pretty ++ "\n"

/-- A truth table as a record. -/
def tableRecord (t : TruthTable) : Json :=
  let column (p : Pin) : Json := .record [("name", .string p.name), ("width", .number p.width)]
  let values (vs : List UInt64) : Json := .list (vs.map fun v => .number v.toNat)
  let row (r : TableRow) : Json :=
    .record [("inputs", values r.inputs), ("outputs", values r.outputs)]
  .record [("inputs", .list (t.inputs.map column)), ("outputs", .list (t.outputs.map column)),
    ("rows", .list (t.rows.map row))]

/-- Writes the truth table of a chip. -/
def table (d : Desk) (name : String) (format : Format) : Report :=
  withNetlist d name fun net =>
    match net.truthTable net.top d.limits with
    | .error e => .error (.unsettled e net)
    | .ok t =>
      match format with
      | .text => .ok t.text
      | .json => .ok ((tableRecord t).pretty ++ "\n")

/-! ## Runs -/

/-- Carries out a command. -/
def invoke (w : Surroundings) (i : Invocation) : Report :=
  let started : Except Failure (Desk × String) := do
    let d ← openDesk w i.settings
    let name ← d.chipName i.chip
    return (d, name)
  let report : Report := match started with
    | .error f => { code := 1, err := "error: " ++ f.message ++ "\n" }
    | .ok (d, name) =>
      let format := i.settings.format.getD .text
      match i.command with
      | .check => check d name
      | .render => render d name
      | .eval => eval d name i.inputs format
      | .table => table d name format
  { report with paths := configPaths w i.settings ++ report.paths }

/-- A run of the program. -/
def run (w : Surroundings) (arguments : List String) : Report :=
  match readArguments arguments with
  | .ok i => invoke w i
  | .error .version => { code := 0, out := versionText }
  | .error (.help topic detail) => { code := 0, out := helpText topic detail }
  | .error .misuse => { code := 2, err := helpText .program .brief }

end ChipLogic.Cli
