import ChipLogic.Slots
import ChipLogic.Text.Case

/-!
# Symbols

A **symbol** is a number that stands for a text. The first text gets 0, the next new one 1, and so
on; a text seen before gets its old number. Folding a text or a symbol gives the symbol of the
lookup key, so names that differ only in ASCII case fold to one symbol.
-/

namespace ChipLogic

/-- The texts seen so far, each at the position of its symbol. -/
structure Symbols where
  texts : Slots String := {}

namespace Symbols

/-- The symbol of a text that has one. -/
def find? (t : Symbols) (text : String) : Option Nat :=
  t.texts.items.findIdx? (· == text)

/-- The text of a symbol. -/
def text? (t : Symbols) (symbol : Nat) : Option String :=
  t.texts.get? symbol

/-- The symbol of a text, which is given one now if it has none. -/
def intern (t : Symbols) (text : String) : Nat × Symbols :=
  match t.find? text with
  | some symbol => (symbol, t)
  | none => (t.texts.size, ⟨t.texts.push text⟩)

/-- The symbol of the lookup key of a text. -/
def fold (t : Symbols) (text : String) : Nat × Symbols :=
  t.intern (foldCase text)

/-- The symbol of the lookup key of a symbol's text. -/
def foldSymbol? (t : Symbols) (symbol : Nat) : Option (Nat × Symbols) :=
  (t.text? symbol).map t.fold

end Symbols

end ChipLogic
