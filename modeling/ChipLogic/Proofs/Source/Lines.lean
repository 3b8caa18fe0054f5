import ChipLogic.Proofs.Diagnostic.Checked
import Mathlib.Algebra.Ring.Nat

/-!
# Lines by index and lines by scanning

The line of an offset is found twice: `SourceFile.lineCol` looks the offset up among the starts of
the lines, `SourceFile.lineText` scans from the offset to the newlines around it. Both are measured
here against the text **split at its newlines** (`SourceFile.lines`).

**The cut.** A cut of a text parts its line as well: what is before the cut is some whole lines,
each with its newline, and the left part of a line; what follows begins with the right part of that
line (`Parted`). The starts of the lines up to the cut, the newlines before it and the number of the
line are all read off this.

**The search.** The starts rise, so a search among them answers with the place of the offset or
with the place where it would be inserted (`Sought`). With one step back from an insertion, each
answer gives the same line and column, and no step goes below zero (`lineColBy?_eq`).

**Theorem (`SourceFile.lines_agree`).** At every cut of a file, the line and the column, the line
that is shown and the marker under it fit together (`SourceFile.Agrees`), and a later cut has a
larger line, or the same line and a larger column.
-/

namespace ChipLogic

/-! ## Starts of lines -/

section Starts

variable {cs ds : List Char} {offset : Nat}

theorem lineStartsAfter_append (offset : Nat) (cs ds : List Char) :
    lineStartsAfter offset (cs ++ ds) =
      lineStartsAfter offset cs ++ lineStartsAfter (offset + byteLength cs) ds := by
  induction cs generalizing offset with
  | nil => rfl
  | cons c cs ih =>
    by_cases hc : c = '\n' <;> simp [lineStartsAfter, byteLength, hc, ih, Nat.add_assoc]

theorem length_lineStartsAfter (offset : Nat) (cs : List Char) :
    (lineStartsAfter offset cs).length = cs.count '\n' := by
  induction cs generalizing offset with
  | nil => rfl
  | cons c cs ih =>
    by_cases hc : c = '\n'
    · simp [lineStartsAfter, hc, ih]
    · simp [lineStartsAfter, hc, ih]

theorem lineStartsAfter_eq_nil (offset : Nat) (h : '\n' ∉ cs) : lineStartsAfter offset cs = [] := by
  rw [← List.length_eq_zero_iff, length_lineStartsAfter]
  exact List.count_eq_zero.2 h

/-- A line that is started by a newline starts after it, and within the text. -/
theorem bounds_of_mem_lineStartsAfter {start : Nat} (h : start ∈ lineStartsAfter offset cs) :
    offset < start ∧ start ≤ offset + byteLength cs := by
  induction cs generalizing offset with
  | nil => cases h
  | cons c cs ih =>
    have hpos := c.utf8Size_pos
    have hlater : start ∈ lineStartsAfter (offset + c.utf8Size) cs →
        offset < start ∧ start ≤ offset + byteLength (c :: cs) := by
      intro h
      have := ih h
      simp only [byteLength]
      omega
    unfold lineStartsAfter at h
    dsimp only at h
    split at h
    · rcases List.mem_cons.1 h with rfl | h
      · simp only [byteLength]
        omega
      · exact hlater h
    · exact hlater h

theorem pairwise_lineStartsAfter (offset : Nat) (cs : List Char) :
    (lineStartsAfter offset cs).Pairwise (· < ·) := by
  induction cs generalizing offset with
  | nil => exact .nil
  | cons c cs ih =>
    unfold lineStartsAfter
    dsimp only
    split
    · exact .cons (fun start h => (bounds_of_mem_lineStartsAfter h).1) (ih _)
    · exact ih _

theorem SourceFile.pairwise_lineStarts (f : SourceFile) : f.lineStarts.Pairwise (· < ·) :=
  .cons (fun _ h => (bounds_of_mem_lineStartsAfter h).1) (pairwise_lineStartsAfter 0 _)

/-- The numbers up to a bound are taken from a list that passes the bound once. -/
theorem takeWhile_le_append {as bs : List Nat} {bound : Nat} (has : ∀ a ∈ as, a ≤ bound)
    (hbs : ∀ b ∈ bs, bound < b) : (as ++ bs).takeWhile (· ≤ bound) = as := by
  have hnone : bs.takeWhile (· ≤ bound) = [] := by
    cases bs with
    | nil => rfl
    | cons b bs => exact List.takeWhile_cons_of_neg (by simpa using hbs b List.mem_cons_self)
  rw [List.takeWhile_append_of_pos (by simpa using has), hnone, List.append_nil]

/-- **The lines that start up to a cut** are those of the text before it. -/
theorem takeWhile_lineStarts (cs ds : List Char) :
    (0 :: lineStartsAfter 0 (cs ++ ds)).takeWhile (· ≤ byteLength cs) =
      0 :: lineStartsAfter 0 cs := by
  rw [lineStartsAfter_append, ← List.cons_append]
  apply takeWhile_le_append
  · intro start h
    rcases List.mem_cons.1 h with rfl | h
    · exact Nat.zero_le _
    · simpa using (bounds_of_mem_lineStartsAfter h).2
  · intro start h
    simpa using (bounds_of_mem_lineStartsAfter h).1

end Starts

/-! ## Splitting at newlines -/

section Splitting

theorem length_splitOn (c : Char) (cs : List Char) :
    (cs.splitOn c).length = cs.count c + 1 := by
  induction cs with
  | nil => simp
  | cons d cs ih =>
    rw [List.splitOn_cons_eq_if_modifyHead]
    by_cases hd : d = c
    · simp [hd, ih]
    · simp [hd, ih]

/-- The lines make up the text, with a newline between two of them. -/
theorem sum_splitOn (cs : List Char) :
    ((cs.splitOn '\n').map fun line => byteLength line + 1).sum = byteLength cs + 1 := by
  induction cs with
  | nil => simp [byteLength]
  | cons c cs ih =>
    rw [List.splitOn_cons_eq_if_modifyHead]
    by_cases hc : c = '\n'
    · have hsize : ('\n' : Char).utf8Size = 1 := rfl
      simp [hc, ih, byteLength, hsize]
      omega
    · obtain ⟨line, lines, hlines⟩ := List.exists_cons_of_ne_nil (List.splitOn_ne_nil '\n' cs)
      rw [hlines] at ih ⊢
      simp [hc, byteLength] at ih ⊢
      omega

/-- A text that is at its end or goes on with a newline. -/
def Ends (cs : List Char) : Prop :=
  cs = [] ∨ ∃ rest, cs = '\n' :: rest

theorem ends_dropWhile (cs : List Char) : Ends (cs.dropWhile (· ≠ '\n')) := by
  induction cs with
  | nil => exact .inl rfl
  | cons c cs ih =>
    by_cases hc : c = '\n'
    · exact .inr ⟨cs, by simp [hc]⟩
    · simpa [List.dropWhile_cons, hc] using ih

theorem newline_notMem_takeWhile (cs : List Char) : '\n' ∉ cs.takeWhile (· ≠ '\n') := by
  intro h
  simpa using List.all_eq_true.1 List.all_takeWhile _ h

theorem takeWhile_line {line rest : List Char} (hline : '\n' ∉ line) (hrest : Ends rest) :
    (line ++ rest).takeWhile (· ≠ '\n') = line := by
  have hall : ∀ c ∈ line, decide (c ≠ '\n') = true := by
    intro c hc
    exact decide_eq_true fun h => hline (h ▸ hc)
  rw [List.takeWhile_append_of_pos hall]
  rcases hrest with rfl | ⟨rest, rfl⟩ <;> simp

theorem splitOn_line {line rest : List Char} (hline : '\n' ∉ line) (hrest : Ends rest) :
    ∃ lines, (line ++ rest).splitOn '\n' = line :: lines := by
  rcases hrest with rfl | ⟨rest, rfl⟩
  · exact ⟨[], by rw [List.append_nil, List.splitOn_eq_singleton hline]⟩
  · exact ⟨rest.splitOn '\n', List.splitOn_append_cons_self_of_not_mem hline rest⟩

end Splitting

/-! ## A cut parts its line -/

/-- A text cut into two: whole lines and the left part of a line, the right part of the line and
what follows it. -/
structure Parted (before after ahead left right behind : List Char) : Prop where
  before : before = ahead ++ left
  after : after = right ++ behind
  /-- The text ahead is nothing, or lines that end in newlines. -/
  ahead : Ends ahead.reverse
  behind : Ends behind
  left : '\n' ∉ left
  right : '\n' ∉ right

theorem exists_parted (before after : List Char) :
    ∃ ahead left right behind, Parted before after ahead left right behind := by
  refine ⟨(before.reverse.dropWhile (· ≠ '\n')).reverse,
    (before.reverse.takeWhile (· ≠ '\n')).reverse, after.takeWhile (· ≠ '\n'),
    after.dropWhile (· ≠ '\n'), ?_⟩
  exact {
    before := by
      rw [← List.reverse_append, List.takeWhile_append_dropWhile, List.reverse_reverse]
    after := List.takeWhile_append_dropWhile.symm
    ahead := by
      rw [List.reverse_reverse]
      exact ends_dropWhile _
    behind := ends_dropWhile _
    left := fun h => newline_notMem_takeWhile _ (List.mem_reverse.1 h)
    right := newline_notMem_takeWhile _ }

namespace Parted

variable {before after ahead left right behind : List Char}

theorem count_before (h : Parted before after ahead left right behind) :
    before.count '\n' = ahead.count '\n' := by
  rw [h.before, List.count_append, List.count_eq_zero.2 h.left, Nat.add_zero]

/-- The last line that starts up to the cut starts behind the text ahead. -/
theorem getLast_lineStarts (h : Parted before after ahead left right behind) :
    (0 :: lineStartsAfter 0 before).getLast? = some (byteLength ahead) := by
  rw [h.before, lineStartsAfter_append, lineStartsAfter_eq_nil _ h.left, List.append_nil]
  rcases h.ahead with hnil | ⟨rest, hrest⟩
  · simp [List.reverse_eq_nil_iff.1 hnil, lineStartsAfter, byteLength]
  · have hahead : ahead = rest.reverse ++ ['\n'] := by
      rw [← List.reverse_reverse ahead, hrest, List.reverse_cons]
    rw [hahead, lineStartsAfter_append, byteLength_append]
    simp [lineStartsAfter, byteLength, List.getLast?_cons]

/-- **The line of the cut among the lines of the text**: as many lines come before it as there are
newlines, and they fill the text ahead. -/
theorem splitOn_eq (h : Parted before after ahead left right behind) :
    ∃ earlier later, (before ++ after).splitOn '\n' = earlier ++ (left ++ right) :: later ∧
      earlier.length = before.count '\n' ∧
      (earlier.map fun line => byteLength line + 1).sum = byteLength ahead := by
  have hline : '\n' ∉ left ++ right := by
    simpa [List.mem_append] using And.intro h.left h.right
  have htext : before ++ after = ahead ++ ((left ++ right) ++ behind) := by
    rw [h.before, h.after]
    simp only [List.append_assoc]
  obtain ⟨later, hlater⟩ := splitOn_line hline h.behind
  rw [htext, h.count_before]
  rcases h.ahead with hnil | ⟨rest, hrest⟩
  · refine ⟨[], later, ?_, ?_, ?_⟩
    · simpa [List.reverse_eq_nil_iff.1 hnil] using hlater
    · simp [List.reverse_eq_nil_iff.1 hnil]
    · simp [List.reverse_eq_nil_iff.1 hnil, byteLength]
  · have hahead : ahead = rest.reverse ++ ['\n'] := by
      rw [← List.reverse_reverse ahead, hrest, List.reverse_cons]
    refine ⟨rest.reverse.splitOn '\n', later, ?_, ?_, ?_⟩
    · rw [hahead, List.append_assoc, List.singleton_append, List.splitOn_append_cons_self, hlater]
    · rw [length_splitOn, hahead, List.count_append, List.count_singleton_self]
    · rw [sum_splitOn, hahead, byteLength_append]
      rfl

end Parted

/-! ## Searching -/

/-- What a search for a number in a rising list may answer: a place where the number stands, or, if
it does not occur, the place where it would be inserted. -/
inductive Sought (xs : List Nat) (x : Nat) : Except Nat Nat → Prop
  | found {i : Nat} (h : xs[i]? = some x) : Sought xs x (.ok i)
  | missing {i : Nat} (hi : i ≤ xs.length) (hlow : ∀ y ∈ xs.take i, y < x)
      (hhigh : ∀ y ∈ xs.drop i, x < y) : Sought xs x (.error i)

/-- The number of elements up to the one that was sought, as the answer tells it. -/
def upTo : Except Nat Nat → Nat
  | .ok i => i + 1
  | .error i => i

theorem Sought.length_takeWhile {xs : List Nat} {x : Nat} {answer : Except Nat Nat}
    (h : Sought xs x answer) (hxs : xs.Pairwise (· < ·)) :
    (xs.takeWhile (· ≤ x)).length = upTo answer := by
  cases h with
  | @found i h =>
    obtain ⟨hi, rfl⟩ := List.getElem?_eq_some_iff.1 h
    have hlast : ∀ y ∈ xs.take (i + 1), y ≤ xs[i] := by
      intro y hy
      obtain ⟨j, hj, rfl⟩ := List.mem_take_iff_getElem.1 hy
      rcases Nat.lt_or_eq_of_le (show j ≤ i by omega) with hlt | rfl
      · exact Nat.le_of_lt (List.pairwise_iff_getElem.1 hxs j i (by omega) hi hlt)
      · exact Nat.le_refl _
    have hnext : ∀ y ∈ xs.drop (i + 1), xs[i] < y := by
      intro y hy
      obtain ⟨j, hj, rfl⟩ := List.mem_drop_iff_getElem.1 hy
      exact List.pairwise_iff_getElem.1 hxs i (i + 1 + j) hi (by omega) (by omega)
    have htake := takeWhile_le_append hlast hnext
    rw [List.take_append_drop] at htake
    rw [htake, List.length_take, Nat.min_eq_left hi]
    rfl
  | @missing i hi hlow hhigh =>
    have htake := takeWhile_le_append (fun y hy => Nat.le_of_lt (hlow y hy)) hhigh
    rw [List.take_append_drop] at htake
    rw [htake, List.length_take, Nat.min_eq_left hi]
    rfl

namespace SourceFile

/-- The line and the column of an offset in the line with an index; the line must be there, and not
start after the offset. -/
def lineColIn? (f : SourceFile) (offset index : Nat) : Option (Nat × Nat) := do
  let start ← f.lineStarts[index]?
  let before ← minus? offset start
  return (index + 1, before + 1)

/-- The line and the column of an offset from the answer of a search for it among the starts of the
lines. An offset that starts no line lies in the line before its insertion. -/
def lineColBy? (f : SourceFile) (offset : Nat) : Except Nat Nat → Option (Nat × Nat)
  | .ok index => f.lineColIn? offset index
  | .error index => do f.lineColIn? offset (← minus? index 1)

/-- **Whatever a search answers, it gives the line and the column.** -/
theorem lineColBy?_eq {f : SourceFile} {offset : Nat} {answer : Except Nat Nat}
    (h : Sought f.lineStarts offset answer) :
    f.lineColBy? offset answer = some (f.lineCol offset) := by
  have hlength := h.length_takeWhile f.pairwise_lineStarts
  rw [← f.lineCol?_eq, lineCol?, hlength]
  cases answer with
  | ok index => rfl
  | error index => rfl

/-! ## Lines -/

/-- The lines of a file: its text, split at the newlines. -/
def lines (f : SourceFile) : List String :=
  (f.text.toList.splitOn '\n').map String.ofList

/-- Where the line with an index starts: behind the lines before it and their newlines. -/
def startOf (f : SourceFile) (index : Nat) : Nat :=
  ((f.lines.take index).map fun line => line.utf8ByteSize + 1).sum

/-- The number of newlines before an offset. -/
def newlinesBefore (f : SourceFile) (offset : Nat) : Nat :=
  (cutAt offset f.text.toList).1.count '\n'

/-- A place as it is shown: the line and the column, the source line, and under it a marker that is
indented up to the column. -/
def shownAt (arrow path : String) (line column : Nat) (text : String) (length : Nat)
    (marker : Char) (remark : String) : String :=
  let number := toString line
  let margin := repeated number.length ' '
  let indent := repeated (column - 1) ' '
  let underline := repeated (max length 1) marker
  let remark := if remark.isEmpty then "" else " " ++ remark
  let place := s!"{path}:{line}:{column}"
  s!"  {arrow} {place}\n" ++
  (s!"{margin} |\n" ++ s!"{number} | {text}\n" ++ s!"{margin} | {indent}{underline}{remark}\n")

/-- The ways to find the line of an offset agree on it. -/
structure Agrees (f : SourceFile) (offset : Nat) : Prop where
  /-- The lines are counted by the newlines. -/
  line : (f.lineCol offset).1 = 1 + f.newlinesBefore offset
  /-- The column is counted from the start of the line. -/
  column : 1 ≤ (f.lineCol offset).2 ∧
    f.startOf ((f.lineCol offset).1 - 1) + ((f.lineCol offset).2 - 1) = offset
  /-- The line found by scanning is the one with this number. -/
  text : f.lines[(f.lineCol offset).1 - 1]? = some (f.lineText offset)
  /-- The column parts the line where the offset parts the file. -/
  parted : ∃ left right, (f.lineText offset).toList = left ++ right ∧
    byteLength left = (f.lineCol offset).2 - 1 ∧ left <:+ (cutAt offset f.text.toList).1 ∧
    right <+: (cutAt offset f.text.toList).2
  /-- Every answer of a search gives this line and this column. -/
  sought : ∀ answer, Sought f.lineStarts offset answer →
    f.lineColBy? offset answer = some (f.lineCol offset)
  /-- What is shown of a span that starts there names them, and shows that line. -/
  shown : ∀ (book : SourceBook) (span : Span) (arrow : String) (marker : Char) (remark : String),
    book.fileOf? span = some f → span.start = offset →
      Diagnostic.place book arrow span marker remark =
        shownAt arrow f.path (f.lineCol offset).1 (f.lineCol offset).2 (f.lineText offset)
          span.length marker remark

variable {f : SourceFile} {before after ahead left right behind : List Char}

theorem lineCol_eq (htext : f.text.toList = before ++ after)
    (h : Parted before after ahead left right behind) :
    f.lineCol (byteLength before) = (before.count '\n' + 1, byteLength left + 1) := by
  have hstarts : f.lineStarts.takeWhile (· ≤ byteLength before) =
      0 :: lineStartsAfter 0 before := by
    rw [lineStarts, htext, takeWhile_lineStarts]
  unfold lineCol lineStartBefore
  rw [hstarts, h.getLast_lineStarts, List.length_cons, length_lineStartsAfter, Option.getD_some]
  conv_lhs => rw [h.before]
  rw [byteLength_append, Nat.add_sub_cancel_left, h.before]

theorem place_eq {book : SourceBook} {span : Span} (hf : book.fileOf? span = some f)
    (arrow : String) (marker : Char) (remark : String) :
    Diagnostic.place book arrow span marker remark =
      shownAt arrow f.path (f.lineCol span.start).1 (f.lineCol span.start).2
        (f.lineText span.start) span.length marker remark := by
  unfold Diagnostic.place SourceBook.locate?
  rw [hf]
  rfl

/-- The line found by scanning is the left part and the right part. -/
theorem lineText_eq (htext : f.text.toList = before ++ after)
    (h : Parted before after ahead left right behind) :
    f.lineText (byteLength before) = String.ofList (left ++ right) := by
  have hleft : (before.reverse.takeWhile (· ≠ '\n')).reverse = left := by
    rw [h.before, List.reverse_append, takeWhile_line (by simpa using h.left) h.ahead,
      List.reverse_reverse]
  have hright : after.takeWhile (· ≠ '\n') = right := by
    rw [h.after, takeWhile_line h.right h.behind]
  unfold lineText
  rw [htext, cutAt_byteLength]
  dsimp only
  rw [hleft, hright]

theorem agrees_of_parted (htext : f.text.toList = before ++ after)
    (h : Parted before after ahead left right behind) : f.Agrees (byteLength before) := by
  obtain ⟨earlier, later, hsplit, hlength, hsum⟩ := h.splitOn_eq
  have hcut : cutAt (byteLength before) f.text.toList = (before, after) := by
    rw [htext, cutAt_byteLength]
  have hlines : f.lines = earlier.map String.ofList ++
      f.lineText (byteLength before) :: later.map String.ofList := by
    rw [lines, htext, hsplit, List.map_append, List.map_cons, lineText_eq htext h]
  have hstart : f.startOf (before.count '\n') = byteLength ahead := by
    unfold startOf
    rw [hlines, ← hlength, List.take_left' (by simp), List.map_map, ← hsum]
    exact congrArg List.sum (List.map_congr_left fun line _ => by
      rw [Function.comp_apply, byteLength_ofList])
  have hbytes : byteLength before = byteLength ahead + byteLength left := by
    rw [h.before, byteLength_append]
  have hplace := lineCol_eq htext h
  exact {
    line := by rw [hplace, newlinesBefore, hcut, Nat.add_comm]
    column := by
      rw [hplace]
      exact ⟨Nat.le_add_left 1 _, by simp only [Nat.add_sub_cancel, hstart, hbytes]⟩
    text := by
      rw [hplace, Nat.add_sub_cancel, hlines, ← hlength, List.getElem?_append_right (by simp)]
      simp
    parted := by
      rw [hplace, hcut, lineText_eq htext h]
      exact ⟨left, right, String.toList_ofList, rfl, ⟨ahead, h.before.symm⟩,
        ⟨behind, h.after.symm⟩⟩
    sought := fun _ => lineColBy?_eq
    shown := fun _ _ _ _ _ hf hspan => hspan ▸ place_eq hf _ _ _ }

theorem agrees_of_isCut {offset : Nat} (h : IsCut offset f.text.toList) : f.Agrees offset := by
  obtain ⟨before, after, htext, rfl⟩ := h
  obtain ⟨ahead, left, right, behind, hparted⟩ := exists_parted before after
  exact agrees_of_parted htext hparted

/-! ## The order of places -/

/-- A cut that is not after another one cuts the text before it. -/
theorem exists_between {offset offset' : Nat} (h : IsCut offset f.text.toList)
    (h' : IsCut offset' f.text.toList) (hlt : offset < offset') :
    ∃ before between after, f.text.toList = before ++ (between ++ after) ∧
      byteLength before = offset ∧ byteLength (before ++ between) = offset' := by
  obtain ⟨before, after, htext, rfl⟩ := h
  obtain ⟨before', after', htext', rfl⟩ := h'
  rcases List.append_eq_append_iff.1 (htext.symm.trans htext') with ⟨between, h, h'⟩ | ⟨more, h, -⟩
  · exact ⟨before, between, after', h' ▸ htext, rfl, by rw [h]⟩
  · rw [h, byteLength_append] at hlt
    omega

/-- **A later cut has a larger line, or the same line and a larger column.** -/
theorem lineCol_lt {offset offset' : Nat} (h : IsCut offset f.text.toList)
    (h' : IsCut offset' f.text.toList) (hlt : offset < offset') :
    Prod.Lex (· < ·) (· < ·) (f.lineCol offset) (f.lineCol offset') := by
  obtain ⟨before, between, after, htext, rfl, rfl⟩ := exists_between h h' hlt
  have htext' : f.text.toList = (before ++ between) ++ after := by
    rw [htext, List.append_assoc]
  obtain ⟨ahead, left, right, behind, hparted⟩ := exists_parted before (between ++ after)
  obtain ⟨ahead', left', right', behind', hparted'⟩ := exists_parted (before ++ between) after
  rw [lineCol_eq htext hparted]
  by_cases hnewline : '\n' ∈ between
  · rw [lineCol_eq htext' hparted', List.count_append]
    apply Prod.Lex.left
    exact Nat.add_lt_add_right (Nat.lt_add_of_pos_right (List.count_pos_iff.2 hnewline)) 1
  · -- without a newline between them, the two cuts part the same line
    have hsame : Parted (before ++ between) after ahead (left ++ between) right' behind' :=
      { before := by rw [hparted.before, List.append_assoc]
        after := hparted'.after
        ahead := hparted.ahead
        behind := hparted'.behind
        left := by simpa [List.mem_append] using And.intro hparted.left hnewline
        right := hparted'.right }
    rw [lineCol_eq htext' hsame, List.count_append, List.count_eq_zero.2 hnewline]
    apply Prod.Lex.right
    rw [byteLength_append] at hlt ⊢
    omega

end SourceFile

end ChipLogic
