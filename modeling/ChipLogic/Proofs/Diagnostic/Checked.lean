import ChipLogic.Diagnostic.Render
import ChipLogic.Proofs.Netlist.Canonical
import ChipLogic.Proofs.Source.Holds

/-!
# Showing diagnostics, step by step

To show a diagnostic takes steps that are not always possible: the file of a span must be there, a
line number and a column are differences that must not go below zero, and the source line is cut
out of the text between characters. `Diagnostic.render` has an answer in any case. Here it is done
once more with all of these steps **checked** (`Diagnostic.render?`), so that there is no answer if
one of them is impossible.

**Theorem (`Diagnostic.render?_eq`).** If a book holds the spans of a diagnostic, every step is
possible, and the text is the one of `Diagnostic.render`.
-/

namespace ChipLogic

/-! ## Steps -/

/-- A difference that must not go below zero. -/
def minus? (a b : Nat) : Option Nat :=
  if b ≤ a then some (a - b) else none

theorem minus?_eq {a b : Nat} (h : b ≤ a) : minus? a b = some (a - b) := if_pos h

/-- Cuts a text at an offset that must be a cut of it. -/
def cutAt? (offset : Nat) (text : List Char) : Option (List Char × List Char) :=
  let pieces := cutAt offset text
  if byteLength pieces.1 = offset then some pieces else none

theorem cutAt?_byteLength (before after : List Char) :
    cutAt? (byteLength before) (before ++ after) = some (before, after) := by
  unfold cutAt?
  rw [cutAt_byteLength]
  exact if_pos rfl

/-- The text between two cuts, the second of which must not be before the first. -/
def slice? (start stop : Nat) (text : List Char) : Option (List Char) := do
  let (_, rest) ← cutAt? start text
  let length ← minus? stop start
  let (inside, _) ← cutAt? length rest
  return inside

theorem slice?_append (before inside after : List Char) :
    slice? (byteLength before) (byteLength before + byteLength inside)
      (before ++ (inside ++ after)) = some inside := by
  simp [slice?, cutAt?_byteLength, minus?_eq]

/-! ## Lines and columns -/

namespace SourceFile

/-- The line and the column of an offset: the line is found among the starts of the lines, and the
column is counted from there. -/
def lineCol? (f : SourceFile) (offset : Nat) : Option (Nat × Nat) := do
  let index ← minus? (f.lineStarts.takeWhile (· ≤ offset)).length 1
  let start ← f.lineStarts[index]?
  let before ← minus? offset start
  return (index + 1, before + 1)

/-- The first line starts before every offset, so there is a last line that does. -/
theorem exists_lineStart (f : SourceFile) (offset : Nat) : ∃ start,
    1 ≤ (f.lineStarts.takeWhile (· ≤ offset)).length ∧
      f.lineStarts[(f.lineStarts.takeWhile (· ≤ offset)).length - 1]? = some start ∧
      start ≤ offset ∧ lineStartBefore offset f.lineStarts = start := by
  have hpos : 1 ≤ (f.lineStarts.takeWhile (· ≤ offset)).length := by
    rw [lineStarts, List.takeWhile_cons_of_pos (by simp)]
    exact Nat.le_add_left 1 _
  have hprefix := List.takeWhile_prefix (fun start => decide (start ≤ offset)) (l := f.lineStarts)
  have hall : ∀ start ∈ f.lineStarts.takeWhile (· ≤ offset), start ≤ offset :=
    fun start h => of_decide_eq_true (List.all_eq_true.1 List.all_takeWhile start h)
  unfold lineStartBefore
  generalize f.lineStarts.takeWhile (· ≤ offset) = before at hpos hprefix hall
  have hlt : before.length - 1 < before.length := by omega
  refine ⟨before[before.length - 1], hpos, ?_, hall _ (List.getElem_mem hlt), ?_⟩
  · exact List.prefix_iff_getElem?.1 hprefix _ hlt
  · rw [List.getLast?_eq_getElem?, List.getElem?_eq_getElem hlt, Option.getD_some]

theorem lineCol?_eq (f : SourceFile) (offset : Nat) :
    f.lineCol? offset = some (f.lineCol offset) := by
  obtain ⟨start, hpos, hstart, hle, hbefore⟩ := f.exists_lineStart offset
  unfold lineCol? lineCol
  rw [hbefore, minus?_eq hpos]
  dsimp only [Option.bind_eq_bind, Option.bind_some]
  rw [hstart]
  dsimp only [Option.bind_some]
  rw [minus?_eq hle, Option.bind_some, Nat.sub_add_cancel hpos]
  rfl

/-- The line around an offset, cut out of the text from after the newline before it to the newline
after it. -/
def lineText? (f : SourceFile) (offset : Nat) : Option String := do
  let offset := min offset f.size
  let (before, after) ← cutAt? offset f.text.toList
  let start := byteLength (before.reverse.dropWhile (· ≠ '\n')).reverse
  let stop := offset + byteLength (after.takeWhile (· ≠ '\n'))
  return String.ofList (← slice? start stop f.text.toList)

theorem lineText?_eq {f : SourceFile} {offset : Nat} (h : IsCut offset f.text.toList) :
    f.lineText? offset = some (f.lineText offset) := by
  obtain ⟨before, after, htext, rfl⟩ := h
  have hle : byteLength before ≤ f.size := by
    rw [← byteLength_text, htext, byteLength_append]
    exact Nat.le_add_right _ _
  -- the line is the end of what is before the offset and the start of what comes after it
  let ahead := (before.reverse.dropWhile (· ≠ '\n')).reverse
  let left := (before.reverse.takeWhile (· ≠ '\n')).reverse
  let right := after.takeWhile (· ≠ '\n')
  let behind := after.dropWhile (· ≠ '\n')
  have hbefore : before = ahead ++ left := by
    rw [← List.reverse_append, List.takeWhile_append_dropWhile, List.reverse_reverse]
  have hafter : after = right ++ behind := List.takeWhile_append_dropWhile.symm
  have hline : f.text.toList = ahead ++ ((left ++ right) ++ behind) := by
    rw [htext]
    conv_lhs => rw [hbefore, hafter]
    simp only [List.append_assoc]
  have hstop : byteLength before + byteLength right =
      byteLength ahead + byteLength (left ++ right) := by
    conv_lhs => rw [hbefore]
    rw [byteLength_append, byteLength_append, Nat.add_assoc]
  unfold lineText? lineText
  rw [Nat.min_eq_left hle, htext, cutAt_byteLength]
  dsimp only
  rw [cutAt?_byteLength, ← htext, hline]
  dsimp only [Option.bind_eq_bind, Option.bind_some]
  rw [hstop, slice?_append]
  rfl

end SourceFile

/-! ## Diagnostics -/

/-- All spans of a diagnostic have a property. -/
structure Diagnostic.AllSpans (P : Span → Prop) (d : Diagnostic) : Prop where
  span : P d.span
  labels : ∀ l ∈ d.labels, P l.span

theorem Diagnostic.AllSpans.mono {P Q : Span → Prop} {d : Diagnostic} (h : d.AllSpans P)
    (hi : ∀ span, P span → Q span) : d.AllSpans Q :=
  ⟨hi _ h.span, fun l hl => hi _ (h.labels l hl)⟩

namespace Diagnostic

/-- The source line of a span with a marker as long as the span. -/
def excerpt? (file : SourceFile) (span : Span) (marker : Char) (remark : String) :
    Option String := do
  let (line, column) ← file.lineCol? span.start
  let length ← minus? span.stop span.start
  let text ← file.lineText? span.start
  let number := toString line
  let margin := repeated number.length ' '
  let indent := repeated (column - 1) ' '
  let underline := repeated (max length 1) marker
  let remark := if remark.isEmpty then "" else " " ++ remark
  return s!"{margin} |\n" ++
    s!"{number} | {text}\n" ++
    s!"{margin} | {indent}{underline}{remark}\n"

/-- A place in the file that the span names; a span that names none is left out. -/
def place? (book : SourceBook) (arrow : String) (span : Span) (marker : Char) (remark : String) :
    Option String :=
  match span.file with
  | none => some ""
  | some n => do
    let file ← book.files[n]?
    let (startLine, startCol) ← file.lineCol? span.start
    let (stopLine, stopCol) ← file.lineCol? (max (span.stop - 1) span.start)
    let location : Location := ⟨file.path, startLine, startCol, stopLine, stopCol⟩
    let shown ← excerpt? file span marker remark
    return s!"  {arrow} {location.text}\n" ++ shown

/-- The text of a diagnostic, every step of it checked. -/
def render? (d : Diagnostic) (book : SourceBook) (colour : Bool) : Option String := do
  let headline := s!"{d.tag colour}: {d.message}\n"
  let main ← place? book "-->" d.span '^' d.primaryRemark
  let others ← (d.labels.filter (·.style == .secondary)).mapM fun l =>
    place? book ":::" l.span '-' l.message
  let notes := d.notes.map fun note => s!"   = note: {note}\n"
  let help := d.help.map fun line => s!"   = help: {line}\n"
  return headline ++ main ++ String.join others ++ String.join notes ++ String.join help

theorem excerpt?_eq {file : SourceFile} {span : Span} (h : file.Holds span) (marker : Char)
    (remark : String) :
    excerpt? file span marker remark = some (excerpt file span marker remark) := by
  unfold excerpt?
  rw [file.lineCol?_eq, minus?_eq h.ordered, SourceFile.lineText?_eq h.start]
  rfl

theorem place?_eq {book : SourceBook} {span : Span} (h : book.Holds span) (arrow : String)
    (marker : Char) (remark : String) :
    place? book arrow span marker remark = some (place book arrow span marker remark) := by
  unfold place? place SourceBook.locate? SourceBook.fileOf?
  cases hn : span.file with
  | none => rfl
  | some n =>
    obtain ⟨f, hf, hholds⟩ := h n hn
    dsimp only [Option.bind_some]
    rw [hf]
    simp only [f.lineCol?_eq, excerpt?_eq hholds, Option.map_some, Option.bind_eq_bind,
      Option.bind_some]
    rfl

/-- **Diagnostics are shown without a false step** if the book holds their spans. -/
theorem render?_eq {d : Diagnostic} {book : SourceBook} (h : d.AllSpans book.Holds)
    (colour : Bool) : d.render? book colour = some (d.render book colour) := by
  have hothers : (d.labels.filter (·.style == .secondary)).mapM
      (fun l => place? book ":::" l.span '-' l.message) =
        some ((d.labels.filter (·.style == .secondary)).map fun l =>
          place book ":::" l.span '-' l.message) :=
    Netlist.mapM_eq_some fun l hl => place?_eq (h.labels l (List.mem_of_mem_filter hl)) _ _ _
  unfold render?
  rw [place?_eq h.span, hothers]
  rfl

end Diagnostic

end ChipLogic
