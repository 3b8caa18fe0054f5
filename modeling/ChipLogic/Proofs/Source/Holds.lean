import ChipLogic.Proofs.Netlist.WellFormed
import ChipLogic.Source.File

/-!
# Spans that stand in a file

Offsets count bytes, and not every byte starts a character. An offset at which a text can be cut
without hitting a character is a **cut** of the text (`IsCut`). A span **stands in** a file if it
goes from a cut to a cut that is not before it (`SourceFile.Holds`); then it is a stretch of whole
characters, and it ends within the file.

A book **holds** a span that stands in the file it names, or names none (`SourceBook.Holds`). To
merge two such spans gives another one, and books only grow, so a span that is held stays so.
-/

namespace ChipLogic

/-! ## Cuts -/

/-- The offset lies between two characters of a text, or at one of its ends. -/
def IsCut (offset : Nat) (text : List Char) : Prop :=
  ∃ before after, text = before ++ after ∧ byteLength before = offset

variable {offset : Nat} {text : List Char}

/-- A cut does not lie beyond the text. -/
theorem IsCut.le (h : IsCut offset text) : offset ≤ byteLength text := by
  obtain ⟨before, after, rfl, rfl⟩ := h
  rw [byteLength_append]
  exact Nat.le_add_right _ _

theorem byteLength_ofList (cs : List Char) : (String.ofList cs).utf8ByteSize = byteLength cs := by
  induction cs with
  | nil => rfl
  | cons c cs ih =>
    have hcons : String.ofList (c :: cs) = String.singleton c ++ String.ofList cs := by
      apply String.toList_injective
      simp
    rw [hcons, String.utf8ByteSize_append, String.utf8ByteSize_singleton, ih, byteLength]

/-! ## Files -/

namespace SourceFile

/-- The span is a stretch of whole characters of the file. -/
structure Holds (f : SourceFile) (span : Span) : Prop where
  ordered : span.start ≤ span.stop
  inside : span.stop ≤ f.size
  start : IsCut span.start f.text.toList
  stop : IsCut span.stop f.text.toList

variable {f : SourceFile}

theorem byteLength_text (f : SourceFile) : byteLength f.text.toList = f.size := by
  rw [← byteLength_ofList, String.ofList_toList, size]

theorem holds_of_cuts {span : Span} (hle : span.start ≤ span.stop)
    (hstart : IsCut span.start f.text.toList) (hstop : IsCut span.stop f.text.toList) :
    f.Holds span :=
  ⟨hle, f.byteLength_text ▸ hstop.le, hstart, hstop⟩

/-- The hull of two stretches of a file is a stretch. -/
theorem Holds.hull {a b : Span} (ha : f.Holds a) (hb : f.Holds b) (file : Option Nat) :
    f.Holds ⟨file, min a.start b.start, max a.stop b.stop⟩ := by
  refine holds_of_cuts ?_ ?_ ?_
  · exact Nat.le_trans (Nat.min_le_left _ _) (Nat.le_trans ha.ordered (Nat.le_max_left _ _))
  · rcases Nat.le_total a.start b.start with h | h
    · rw [Nat.min_eq_left h]; exact ha.start
    · rw [Nat.min_eq_right h]; exact hb.start
  · rcases Nat.le_total a.stop b.stop with h | h
    · rw [Nat.max_eq_right h]; exact hb.stop
    · rw [Nat.max_eq_left h]; exact ha.stop

end SourceFile

/-! ## Books -/

namespace SourceBook

/-- A span that names a file stands in it, and the file is there. -/
def Holds (b : SourceBook) (span : Span) : Prop :=
  ∀ n, span.file = some n → ∃ f, b.files[n]? = some f ∧ f.Holds span

variable {b b' : SourceBook} {span : Span}

theorem holds_of_file_eq_none (h : span.file = none) : b.Holds span := by
  intro n hn
  rw [h] at hn
  cases hn

theorem holds_nowhere : b.Holds .nowhere := holds_of_file_eq_none rfl

theorem Holds.merge {a c : Span} (ha : b.Holds a) (hc : b.Holds c) : b.Holds (a.merge c) := by
  unfold Span.merge
  split
  · exact hc
  · split
    · next hfile =>
      intro n hn
      obtain ⟨f, hf, hfa⟩ := ha n hn
      obtain ⟨f', hf', hfc⟩ := hc n (hfile ▸ hn)
      rw [hf] at hf'
      cases hf'
      exact ⟨f, hf, hfa.hull hfc _⟩
    · exact ha

/-- The files of a book come first in another one. -/
def Grows (b b' : SourceBook) : Prop :=
  b.files.toList <+: b'.files.toList

theorem Grows.refl (b : SourceBook) : b.Grows b := List.prefix_refl _

theorem Grows.trans {b'' : SourceBook} (h : b.Grows b') (h' : b'.Grows b'') : b.Grows b'' :=
  List.IsPrefix.trans h h'

theorem grows_add (b : SourceBook) (path text : String) : b.Grows (b.add path text) := by
  unfold Grows add
  rw [Array.toList_push]
  exact List.prefix_append _ _

theorem getElem?_size_add (b : SourceBook) (path text : String) :
    (b.add path text).files[b.size]? = some ⟨path, text⟩ :=
  Array.getElem?_push_size

/-- **What a book holds, a longer one holds too.** -/
theorem Holds.mono (h : b.Holds span) (hg : b.Grows b') : b'.Holds span := by
  intro n hn
  obtain ⟨f, hf, hfs⟩ := h n hn
  exact ⟨f, getElem?_of_toList_prefix hg hf, hfs⟩

end SourceBook

end ChipLogic
