import ChipLogic.Diagnostic.Basic
import ChipLogic.Hdl.Token

/-!
# Faults of a text

What can be wrong with the text of a chip description, before any chip is looked up. Faults of
single characters and comments have code E100, faults of the grammar E101.
-/

namespace ChipLogic.Hdl

/-- What the grammar allows at a place. -/
inductive Expectation where
  | token (kind : Kind)
  /-- The start of a section, or the end of the chip. -/
  | sectionStart
  deriving DecidableEq, Repr

def Expectation.describe : Expectation → String
  | .token kind => kind.describe
  | .sectionStart => "`IN`, `OUT`, `PARTS` or `\x7d`"

/-- A reason to reject a text. -/
inductive Fault where
  | openComment
  | strayCharacter
  | expected (what : Expectation) (found : Kind)
  | largeNumber
  deriving DecidableEq, Repr

namespace Fault

def code : Fault → Code
  | .openComment | .strayCharacter => ⟨.error, 100⟩
  | .expected .. | .largeNumber => ⟨.error, 101⟩

def message : Fault → String
  | .openComment => "unterminated block comment"
  | .strayCharacter => "unexpected character"
  | .expected what found => s!"expected {what.describe}, found {found.describe}"
  | .largeNumber => "number is too large"

/-- A fault as a diagnostic. -/
def report (f : Fault) (span : Span) : Diagnostic :=
  { severity := .error, code := f.code, message := f.message, span }

end Fault

end ChipLogic.Hdl
