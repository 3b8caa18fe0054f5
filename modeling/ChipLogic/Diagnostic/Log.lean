import ChipLogic.Diagnostic.Basic

/-!
# The log

A log is the history of all diagnostics of a session, with a mark up to which they were taken out.
What is **stored** is the history after the mark; what is **counted** is the whole history. So
taking the diagnostics out never makes an error forgotten.
-/

namespace ChipLogic

/-- All diagnostics ever emitted, the first `taken` of which were taken out. -/
structure Log where
  history : List Diagnostic := []
  taken : Nat := 0

namespace Log

/-- Adds a diagnostic. -/
def emit (l : Log) (d : Diagnostic) : Log :=
  { l with history := l.history ++ [d] }

/-- Adds diagnostics in order. -/
def emitAll (l : Log) (ds : List Diagnostic) : Log :=
  { l with history := l.history ++ ds }

/-- The diagnostics not taken out yet. -/
def stored (l : Log) : List Diagnostic :=
  l.history.drop l.taken

/-- Takes out all stored diagnostics. -/
def takeAll (l : Log) : List Diagnostic × Log :=
  (l.stored, { l with taken := l.history.length })

/-- The number of errors ever emitted. -/
def errorCount (l : Log) : Nat :=
  l.history.countP Diagnostic.isError

def hasErrors (l : Log) : Bool :=
  l.history.any Diagnostic.isError

/-- The number of stored diagnostics with exactly this message. -/
def countMessage (l : Log) (message : String) : Nat :=
  l.stored.countP fun d => d.message == message

/-- The number of stored diagnostics of a severity. -/
def countSeverity (l : Log) (severity : Severity) : Nat :=
  l.stored.countP fun d => d.severity == severity

/-- The heaviest severity that is stored. -/
def maxSeverity? (l : Log) : Option Severity :=
  match l.stored with
  | [] => none
  | d :: ds => some (ds.foldl (fun heaviest d => heaviest.max d.severity) d.severity)

theorem errorCount_emitAll (l : Log) (ds : List Diagnostic) :
    (l.emitAll ds).errorCount = l.errorCount + ds.countP Diagnostic.isError := by
  simp [errorCount, emitAll]

theorem hasErrors_iff (l : Log) : l.hasErrors ↔ 0 < l.errorCount := by
  simp [hasErrors, errorCount, List.countP_pos_iff]

end Log

end ChipLogic
