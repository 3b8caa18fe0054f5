import ChipLogic.Chip.Range
import ChipLogic.KeyIndex
import ChipLogic.Source.Span
import ChipLogic.Text.Case

/-!
# Pins

A pin is a named terminal or net of a chip, at least one and at most `maxWidth` bits wide. Input and
output pins are declared and are what other chips see; internal pins are the nets that connect the
parts inside. Pins are found by key, so their names ignore ASCII case; the key is read off the name.
The position of a pin in its chip is kept with the pin in the table of pins (`Numbered`).
-/

namespace ChipLogic

/-- The widest a pin may be. -/
def maxWidth : Nat := 64

/-- The role of a pin in its chip. -/
inductive PinKind where
  | input
  | output
  | internal
  deriving DecidableEq, Repr, Inhabited

def PinKind.text : PinKind → String
  | .input => "input"
  | .output => "output"
  | .internal => "internal"

/-- A pin: its name as written, its width and role, and where it was first named. -/
structure Pin where
  name : String
  width : Nat
  kind : PinKind
  span : Span
  deriving DecidableEq, Repr, Inhabited

namespace Pin

/-- The lookup key. -/
def key (p : Pin) : String := foldCase p.name

/-- A terminal can be connected from outside. -/
def isTerminal (p : Pin) : Bool := p.kind != .internal

def fullRange (p : Pin) : BitRange := .full p.width

/-- A declaration of the pin: the width is written unless it is one. -/
def declaration (p : Pin) : String :=
  if p.width = 1 then p.name else s!"{p.name}[{p.width}]"

end Pin

/-- The position of the pin with a key; of several, the last. -/
def findPin? (pins : Array Pin) (key : String) : Option Nat :=
  lastIndex? (fun p => p.key == key) pins.toList

end ChipLogic
