import ChipLogic.Source.Span

/-!
# Diagnostics

A diagnostic says what is wrong (`message`), how much it matters (`severity`), which kind of problem
it is (`code`) and where it stands (`span`). Labels mark further places, notes explain and help
lines suggest. Only the severity decides whether a diagnostic counts as an error; the letter of its
code is a name.
-/

namespace ChipLogic

/-- How much a diagnostic matters. -/
inductive Severity where
  | note
  | warning
  | error
  deriving DecidableEq, Repr, Inhabited

namespace Severity

def text : Severity → String
  | .note => "note"
  | .warning => "warning"
  | .error => "error"

/-- The order of weight, from notes to errors. -/
def rank : Severity → Nat
  | .note => 0
  | .warning => 1
  | .error => 2

/-- The heavier of two severities. -/
def max (a b : Severity) : Severity :=
  if a.rank < b.rank then b else a

end Severity

/-- The letter of a code. -/
inductive Category where
  | error
  | warning
  | note
  deriving DecidableEq, Repr, Inhabited

def Category.letter : Category → String
  | .error => "E"
  | .warning => "W"
  | .note => "N"

/-- The kind of a problem, shown as a letter and at least three digits. -/
structure Code where
  category : Category
  number : Nat
  deriving DecidableEq, Repr, Inhabited

def Code.text (c : Code) : String :=
  let digits := toString c.number
  c.category.letter ++ String.ofList (List.replicate (3 - digits.length) '0') ++ digits

/-- Whether a label stands at the main place or at another one. -/
inductive LabelStyle where
  | primary
  | secondary
  deriving DecidableEq, Repr, Inhabited

/-- A marked place with a remark. -/
structure Label where
  style : LabelStyle
  span : Span
  message : String
  deriving DecidableEq, Repr, Inhabited

/-- A report on a source text or on the way to it. -/
structure Diagnostic where
  severity : Severity
  code : Code
  message : String
  span : Span
  labels : List Label := []
  notes : List String := []
  help : List String := []
  deriving DecidableEq, Repr, Inhabited

def Diagnostic.isError (d : Diagnostic) : Bool :=
  d.severity == .error

end ChipLogic
