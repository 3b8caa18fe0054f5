import ChipLogic.Project.Config
import ChipLogic.Session.Freeze
import ChipLogic.Session.Resolve

/-!
# Building chips

All the way from texts to a netlist: from texts at hand, from a library folder, or from a project
with its top chip. A build keeps its session, and with it everything that was reported.
-/

namespace ChipLogic

/-- What came of building a chip. -/
structure Build where
  session : Session
  netlist : Except InternalError (Option Netlist)

namespace Build

/-- Builds a chip in a session. -/
def inSession (s : Session) (chip : String) : Build :=
  let (netlist, session) := s.elaborate chip
  ⟨session, netlist⟩

/-- Builds a chip from texts, given with the names that they are shown under. -/
def fromTexts (texts : List (String × String)) (chip : String) : Build :=
  let empty : Session := { disk := .empty }
  inSession (texts.foldl (fun s text => (s.addSource text.1 text.2).2) empty) chip

/-- Builds a chip from a library folder. -/
def fromLibrary (disk : Disk) (folder chip : String) : Build :=
  inSession { disk, library := some folder } chip

/-- Builds the top chip of the project in a directory. -/
def fromProject (disk : Disk) (directory : String) : Except ConfigError Build := do
  let p ← Project.load disk directory
  return fromLibrary disk (p.libraryIn directory) p.top

/-- The codes of all diagnostics in order. -/
def codes (b : Build) : List String :=
  b.session.log.stored.map (·.code.text)

def hasErrors (b : Build) : Bool := b.session.log.hasErrors

def errorCount (b : Build) : Nat := b.session.log.countSeverity .error

def warningCount (b : Build) : Nat := b.session.log.countSeverity .warning

end Build

end ChipLogic
