/-!
# Spans

A span is a range of bytes of a source file, its end excluded. Things without a place in a file,
such as built-in gates, have a span of no file; its offsets mean nothing to a reader.

**Offsets are 32 bits wide in a span that is stored**, so a source text is taken to be shorter than
`2 ^ 32` bytes. No offset of such a text is cut, since none passes its length: the spans of its
tokens, and with them all others, lie within it. Here offsets are plain numbers, and what is said
of texts that long or longer is said of offsets that were not cut.
-/

namespace ChipLogic

/-- Where something stands: the number of a file, and the bytes from `start` up to `stop`. -/
structure Span where
  file : Option Nat
  start : Nat
  stop : Nat
  deriving DecidableEq, Repr, Inhabited

namespace Span

/-- The span of things that stand nowhere. -/
def nowhere : Span := ⟨none, 0, 0⟩

/-- A span is placed when it names a file. -/
def isPlaced (s : Span) : Bool := s.file.isSome

def length (s : Span) : Nat := s.stop - s.start

def isEmpty (s : Span) : Bool := s.start == s.stop

/-- The hull of two spans of one file. A span of no file gives way to the other; of two files the
first wins. -/
def merge (a b : Span) : Span :=
  if a.file.isNone then b
  else if a.file = b.file then ⟨a.file, min a.start b.start, max a.stop b.stop⟩
  else a

end Span

end ChipLogic
