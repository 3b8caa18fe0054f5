import ChipLogic.Cli.Program

/-!
# The executable

A run of the program on real files. A run is a function of the files it knows, so it is repeated:
the paths that it looked at are read, and it runs again as long as that brings new paths. What it
writes in the end is written once.
-/

namespace ChipLogic.Cli

/-- Why reading a file failed. -/
def readErrorOf : IO.Error → ReadError
  | .noFileOrDirectory .. => .notFound
  | .inappropriateType none .. => .isDirectory
  | .inappropriateType (some _) .. => .notDirectory
  | .invalidArgument .. => .nameTooLong
  | e => .other (toString e)

/-- The text behind a path. -/
def readPath (path : String) : IO (Except ReadError String) := do
  if path.toList.contains '\x00' then return .error .nulInName
  try
    let bytes ← IO.FS.readBinFile path
    match String.fromUTF8? bytes with
    | some text => return .ok text
    | none => return .error .notText
  catch e => return .error (readErrorOf e)

/-- What is known of a path. -/
def snapshot (path : String) : IO Snapshot := do
  let content ← readPath path
  let isFile := match content with
    | .ok _ | .error .notText | .error (.other _) => true
    | .error _ => false
  return ⟨path, isFile, content⟩

/-- Runs until no new paths are looked at. -/
partial def runOnFiles (directory : String) (isTerminal : Bool) (arguments : List String)
    (known : List Snapshot) : IO Report := do
  let report := run { disk := .ofSnapshots known, directory, isTerminal } arguments
  let new := report.paths.eraseDups.filter fun path => !known.any (·.path == path)
  if new.isEmpty then return report
  let more ← new.mapM snapshot
  runOnFiles directory isTerminal arguments (known ++ more)

end ChipLogic.Cli

/-- The program. -/
def main (arguments : List String) : IO UInt32 := do
  let directory ← IO.currentDir
  let err ← IO.getStderr
  let report ← ChipLogic.Cli.runOnFiles directory.toString (← err.isTty) arguments []
  IO.print report.out
  err.putStr report.err
  return report.code.toUInt32
