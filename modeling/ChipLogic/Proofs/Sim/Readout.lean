import ChipLogic.Proofs.Hdl.Splitting
import ChipLogic.Proofs.Sim.Exhaustive
import ChipLogic.Proofs.Sim.Nodes
import ChipLogic.Proofs.Source.Holds
import ChipLogic.Proofs.Text.Blank
import ChipLogic.Proofs.Text.Numeral

/-!
# Tables are read back from their texts

The text of a truth table is for people, but nothing is lost in it: `TableData.ofText` reads the
columns and the rows back.

**Lines.** What a line holds is put into cells as wide as their columns, between bars. Names and
digits are plain (`Fills`): without bars, blanks and newlines. So a newline ends a line and a bar
ends a cell, and the blanks around a cell go when it is trimmed. As all lines have cells of the same
lengths, they have the same length themselves and their bars stand one below the other.

**Digits.** A value is written with as many digits as its pin has bits, which holds only of values
below two to the power of the width; a larger one would move all bars after it. Inputs have room in
their pins because they are pieces of the number of the row, and outputs because evaluation keeps a
state shaped.

**Columns.** The text does not tell inputs from outputs. But there is a row for each combination of
inputs, and each column has at least one bit, so the number of rows tells how many of the columns
are inputs (`inputColumns`).

**Theorem (`Netlist.truthTable_text_exact`).** In the text of a truth table of a frozen netlist the
lines are aligned, each cell has a digit for each bit and is a numeral for its value, and the text
gives the table back.
-/

namespace ChipLogic

/-! ## Reading -/

/-- The cells of a line: what stands between the bars, without the blanks around it. -/
def cellsOf (line : List Char) : List (List Char) :=
  (line.splitOn '|').tail.dropLast.map trimBlank

/-- How many leading columns have the given number of bits together. -/
def inputColumns : Nat → List Nat → Nat
  | 0, _ => 0
  | _, [] => 0
  | bits + 1, width :: widths => inputColumns (bits + 1 - width) widths + 1

/-- What a table says: names and widths of the columns, and the values. -/
structure TableData where
  inputs : List (String × Nat)
  outputs : List (String × Nat)
  rows : List TableRow
  deriving DecidableEq, Repr

/-- What the cells of a table say. -/
def TableData.ofCells : List (List (List Char)) → TableData
  | [] => ⟨[], [], []⟩
  | names :: rows =>
    let widths := (rows.headD []).map List.length
    let columns := (names.map String.ofList).zip widths
    let count := inputColumns rows.length.log2 widths
    ⟨columns.take count, columns.drop count, rows.map fun cells =>
      let values := cells.map fun digits => UInt64.ofNat ((Numeral.read? 2 digits).getD 0)
      ⟨values.take count, values.drop count⟩⟩

/-- What the text of a table says. -/
def TableData.ofText (text : String) : TableData :=
  ofCells ((text.toList.splitOn '\n').dropLast.map cellsOf)

def Pin.column (p : Pin) : String × Nat := (p.name, p.width)

def TruthTable.data (t : TruthTable) : TableData :=
  ⟨t.inputs.map Pin.column, t.outputs.map Pin.column, t.rows⟩

theorem inputColumns_append {widths : List Nat} (h : ∀ width ∈ widths, 0 < width)
    (others : List Nat) : inputColumns widths.sum (widths ++ others) = widths.length := by
  induction widths with
  | nil => rw [List.sum_nil, inputColumns, List.length_nil]
  | cons width widths ih =>
    have hpos := h width List.mem_cons_self
    have hrest := ih fun w hw => h w (List.mem_cons_of_mem _ hw)
    obtain ⟨bits, hbits⟩ := Nat.exists_eq_add_of_lt hpos
    have hsum : (width :: widths).sum = bits + widths.sum + 1 := by
      rw [List.sum_cons]
      omega
    have hsub : bits + widths.sum + 1 - width = widths.sum := by omega
    rw [hsum, List.cons_append, inputColumns, hsub, hrest, List.length_cons]

/-! ## Cells -/

/-- A letter, a digit or an underscore is no blank. -/
theorem isBlank_of_isWordChar {c : Char} (h : Hdl.isWordChar c = true) : isBlank c = false := by
  have hrange : (48 ≤ c.toNat ∧ c.toNat ≤ 57) ∨ (65 ≤ c.toNat ∧ c.toNat ≤ 90) ∨
      (97 ≤ c.toNat ∧ c.toNat ≤ 122) ∨ c.toNat = 95 := by
    by_cases hlow : c = '_'
    · subst hlow
      decide
    · simp [Hdl.isWordChar, Char.isAlphanum, Hdl.Piece.isAlpha_iff, Hdl.Piece.isDigit_iff,
        hlow] at h
      omega
  simp [isBlank]
  omega

theorem mem_centred {width : Nat} {text : List Char} {c : Char} (h : c ∈ centred width text) :
    c = ' ' ∨ c ∈ text := by
  unfold centred at h
  rw [List.mem_append, List.mem_append] at h
  rcases h with (h | h) | h
  · exact .inl (List.eq_of_mem_replicate h)
  · exact .inr h
  · exact .inl (List.eq_of_mem_replicate h)

/-- A cell in the column of a pin, up to the bar. -/
def spaced (p : Pin) (content : List Char) : List Char :=
  ' ' :: (centred p.columnWidth content ++ [' '])

/-- The content of a cell in the column of a pin. -/
structure Fills (p : Pin) (content : List Char) : Prop where
  fits : content.length ≤ p.columnWidth
  plain : ∀ c ∈ content, Hdl.isWordChar c = true

namespace Fills

variable {p : Pin} {content : List Char}

theorem length_spaced (h : Fills p content) : (spaced p content).length = p.columnWidth + 2 := by
  simp [spaced, length_centred, h.fits]

/-- Neither bars nor newlines stand in a cell. -/
theorem notMem_spaced (h : Fills p content) {mark : Char} (hblank : mark ≠ ' ')
    (hword : Hdl.isWordChar mark = false) : mark ∉ spaced p content := by
  have hmark : mark ∉ centred p.columnWidth content := by
    intro hmem
    rcases mem_centred hmem with heq | hmem
    · exact hblank heq
    · rw [h.plain mark hmem] at hword
      cases hword
  simp [spaced, hblank, hmark]

/-- The content of a cell is its core. -/
theorem trimBlank_spaced (h : Fills p content) : trimBlank (spaced p content) = content := by
  have hblank : isBlank ' ' = true := by decide
  apply trims_iff.1
  refine ⟨⟨' ' :: List.replicate ((p.columnWidth - content.length) / 2) ' ',
    List.replicate (p.columnWidth - content.length - (p.columnWidth - content.length) / 2) ' ' ++
      [' '], ?_, ?_, ?_⟩, ?_, ?_⟩
  · simp [spaced, centred]
  · intro c hc
    rw [← List.replicate_succ] at hc
    rw [List.eq_of_mem_replicate hc]
    exact hblank
  · intro c hc
    rw [← List.replicate_succ'] at hc
    rw [List.eq_of_mem_replicate hc]
    exact hblank
  · intro c hc
    exact isBlank_of_isWordChar (h.plain c (List.mem_of_head? hc))
  · intro c hc
    exact isBlank_of_isWordChar (h.plain c (List.mem_of_getLast? hc))

end Fills

/-! ## Lines -/

/-- Texts that end in a mark are split at the mark. -/
theorem splitOn_ended {mark : Char} {texts : List (List Char)} (h : ∀ text ∈ texts, mark ∉ text) :
    (texts.flatMap (· ++ [mark])).splitOn mark = texts ++ [[]] := by
  induction texts with
  | nil => simp
  | cons text texts ih =>
    have hrest := ih fun other hother => h other (List.mem_cons_of_mem _ hother)
    have htext := h text List.mem_cons_self
    rw [List.flatMap_cons, List.append_assoc, List.singleton_append,
      List.splitOn_append_cons_self_of_not_mem htext, hrest, List.cons_append]

/-- A line of contents in the columns of pins, without the newline. What stands before the first bar
is empty. -/
def lineOf (ps : List Pin) (contents : List (List Char)) : List Char :=
  ([] :: List.zipWith spaced ps contents).flatMap (· ++ ['|'])

theorem barLine_eq (ps : List Pin) (contents : List (List Char)) :
    barLine (List.zipWith (fun p content => centred p.columnWidth content) ps contents) =
      lineOf ps contents ++ ['\n'] := by
  have hcells : List.zipWith spaced ps contents =
      (List.zipWith (fun p content => centred p.columnWidth content) ps contents).map
        fun cell => ' ' :: (cell ++ [' ']) := by
    rw [List.map_zipWith]
    rfl
  rw [barLine, lineOf, hcells, List.flatMap_cons, List.flatMap_map]
  simp

section Lines

variable {ps : List Pin} {contents contents' : List (List Char)}

theorem notMem_cells (h : List.Forall₂ Fills ps contents) {mark : Char} (hblank : mark ≠ ' ')
    (hword : Hdl.isWordChar mark = false) :
    ∀ cell ∈ [] :: List.zipWith spaced ps contents, mark ∉ cell := by
  refine List.forall_mem_cons.2 ⟨List.not_mem_nil, ?_⟩
  induction h with
  | nil => simp
  | cons hp _ ih => exact List.forall_mem_cons.2 ⟨hp.notMem_spaced hblank hword, ih⟩

theorem newline_notMem_lineOf (h : List.Forall₂ Fills ps contents) : '\n' ∉ lineOf ps contents := by
  intro hmem
  obtain ⟨cell, hcell, hmem⟩ := List.mem_flatMap.1 hmem
  have hnot := notMem_cells h (by decide : '\n' ≠ ' ') (by decide) cell hcell
  simp [hnot] at hmem

/-- Between the bars stand the contents. -/
theorem cellsOf_lineOf (h : List.Forall₂ Fills ps contents) :
    cellsOf (lineOf ps contents) = contents := by
  have hbars := notMem_cells h (by decide : '|' ≠ ' ') (by decide)
  rw [cellsOf, lineOf, splitOn_ended hbars, List.cons_append, List.tail_cons, List.dropLast_concat]
  clear hbars
  induction h with
  | nil => rfl
  | cons hp _ ih => rw [List.zipWith_cons_cons, List.map_cons, hp.trimBlank_spaced, ih]

/-- Where the bars stand depends on the columns only. -/
theorem bars_lineOf (h : List.Forall₂ Fills ps contents) :
    (lineOf ps contents).map (· == '|') =
      true :: ps.flatMap fun p => List.replicate (p.columnWidth + 2) false ++ [true] := by
  have hbar : ['|'].map (· == '|') = [true] := by decide
  rw [lineOf, List.flatMap_cons, List.map_append, List.nil_append, hbar, List.singleton_append]
  congr 1
  induction h with
  | nil => rfl
  | @cons p content _ _ hp _ ih =>
    have hcell : (spaced p content).map (· == '|') =
        List.replicate (p.columnWidth + 2) false := by
      rw [List.eq_replicate_iff, List.length_map, hp.length_spaced]
      refine ⟨rfl, fun b hb => ?_⟩
      obtain ⟨c, hc, rfl⟩ := List.mem_map.1 hb
      have hnot := hp.notMem_spaced (by decide : '|' ≠ ' ') (by decide)
      exact beq_false_of_ne fun heq => hnot (heq ▸ hc)
    rw [List.zipWith_cons_cons, List.flatMap_cons, List.map_append, List.map_append, hcell, hbar, ih,
      List.flatMap_cons]

/-- Two lines of a table are aligned. -/
theorem aligned_lineOf (h : List.Forall₂ Fills ps contents)
    (h' : List.Forall₂ Fills ps contents') :
    (lineOf ps contents).length = (lineOf ps contents').length ∧
      ∀ k : Nat, (lineOf ps contents)[k]? = some '|' ↔ (lineOf ps contents')[k]? = some '|' := by
  have hsame : (lineOf ps contents).map (· == '|') = (lineOf ps contents').map (· == '|') := by
    rw [bars_lineOf h, bars_lineOf h']
  have hat (cs : List Char) (k : Nat) :
      cs[k]? = some '|' ↔ (cs.map (· == '|'))[k]? = some true := by
    rw [List.getElem?_map, Option.map_eq_some_iff]
    simp
  constructor
  · simpa using congrArg List.length hsame
  · intro k
    rw [hat, hat, hsame]

end Lines

/-! ## What stands in the cells -/

theorem length_le_byteLength (cs : List Char) : cs.length ≤ byteLength cs := by
  induction cs with
  | nil => exact Nat.le_refl 0
  | cons c cs ih =>
    have hpos := c.utf8Size_pos
    rw [List.length_cons, byteLength]
    omega

theorem fills_name {p : Pin} (h : Hdl.IsName p.name) : Fills p p.name.toList := by
  constructor
  · have hlen := length_le_byteLength p.name.toList
    rw [← byteLength_ofList, String.ofList_toList] at hlen
    exact hlen.trans (Nat.le_max_left _ _)
  · obtain ⟨c, cs, hname, hc, hcs, -⟩ := h
    rw [hname]
    exact List.forall_mem_cons.2 ⟨Hdl.Piece.isWordChar_of_isWordStart hc, hcs⟩

/-- The digits of values in the columns of pins. -/
def digitCells : List Pin → List UInt64 → List (List Char) :=
  List.zipWith fun p value => Numeral.padded 2 p.width value.toNat

section Digits

variable {ps : List Pin} {values : List UInt64}

/-- Each cell has a digit for each bit. -/
theorem forall₂_digitCells (hpos : ∀ p ∈ ps, 0 < p.width)
    (h : List.Forall₂ (fun p value => value.toNat < 2 ^ p.width) ps values) :
    List.Forall₂ (fun p cell => cell.length = p.width ∧ ∀ c ∈ cell, c = '0' ∨ c = '1') ps
      (digitCells ps values) := by
  induction h with
  | nil => exact .nil
  | @cons p value ps values hv _ ih =>
    obtain ⟨hp, hps⟩ := List.forall_mem_cons.1 hpos
    refine .cons ⟨Numeral.length_padded hp hv, ?_⟩ (ih hps)
    exact (Numeral.denotes_padded (by decide) p.width value.toNat).eq_zero_or_one

/-- The cells are read as the values. -/
theorem read_digitCells (h : List.Forall₂ (fun p value => value.toNat < 2 ^ p.width) ps values) :
    (digitCells ps values).map (Numeral.read? 2) = values.map fun value => some value.toNat := by
  induction h with
  | nil => rfl
  | @cons p value ps values _ _ ih =>
    have hread : Numeral.read? 2 (Numeral.padded 2 p.width value.toNat) = some value.toNat :=
      (Numeral.read?_eq_some_iff (by decide)).2 (Numeral.denotes_padded (by decide) _ _)
    rw [digitCells, List.zipWith_cons_cons, List.map_cons, List.map_cons, hread, ← digitCells, ih]

theorem zipWith_digitCells (ps : List Pin) (values : List UInt64) :
    List.zipWith (fun p content => centred p.columnWidth content) ps (digitCells ps values) =
      (values.zip ps).map fun (value, p) =>
        centred p.columnWidth (Numeral.padded 2 p.width value.toNat) := by
  induction ps generalizing values with
  | nil => simp
  | cons p ps ih =>
    cases values with
    | nil => rfl
    | cons value values => simpa [digitCells] using ih values

end Digits

theorem fills_digits {p : Pin} {cell : List Char} (hlen : cell.length = p.width)
    (hdigits : ∀ c ∈ cell, c = '0' ∨ c = '1') : Fills p cell := by
  constructor
  · rw [hlen]
    exact Nat.le_max_right _ _
  · intro c hc
    rcases hdigits c hc with rfl | rfl
    · decide
    · decide

namespace TruthTable

/-- What stands in the cells of the first line. -/
def names (t : TruthTable) : List (List Char) :=
  t.columns.map (·.name.toList)

/-- What stands in the cells of the line of a row. -/
def digits (t : TruthTable) (row : TableRow) : List (List Char) :=
  digitCells t.columns (row.inputs ++ row.outputs)

/-- The lines of the text. -/
def lines (t : TruthTable) : List (List Char) :=
  lineOf t.columns t.names :: t.rows.map fun row => lineOf t.columns (t.digits row)

theorem headLine_eq (t : TruthTable) : t.headLine = lineOf t.columns t.names ++ ['\n'] := by
  rw [headLine, ← barLine_eq, names, List.zipWith_map_right, List.zipWith_self]

theorem rowLine_eq (t : TruthTable) (row : TableRow) :
    t.rowLine row = lineOf t.columns (t.digits row) ++ ['\n'] := by
  rw [rowLine, ← barLine_eq, digits, zipWith_digitCells]

theorem text_eq (t : TruthTable) : t.text.toList = t.lines.flatMap (· ++ ['\n']) := by
  have hrows : t.rows.flatMap t.rowLine =
      (t.rows.map fun row => lineOf t.columns (t.digits row)).flatMap (· ++ ['\n']) := by
    rw [List.flatMap_map]
    exact congrArg t.rows.flatMap (funext t.rowLine_eq)
  rw [text, String.toList_ofList, headLine_eq, hrows, lines, List.flatMap_cons]

/-- Columns with names and bits, values that have room in them, and as many rows as there are
combinations of inputs. -/
structure Regular (t : TruthTable) : Prop where
  name : ∀ p ∈ t.columns, Hdl.IsName p.name
  width_pos : ∀ p ∈ t.columns, 0 < p.width
  inputs : ∀ row ∈ t.rows, FitWidths (t.inputs.map (·.width)) row.inputs
  outputs : ∀ row ∈ t.rows, FitWidths (t.outputs.map (·.width)) row.outputs
  length_rows : t.rows.length = 2 ^ (t.inputs.map (·.width)).sum

namespace Regular

variable {t : TruthTable} {row : TableRow}

theorem room (h : t.Regular) (hrow : row ∈ t.rows) :
    List.Forall₂ (fun p value => value.toNat < 2 ^ p.width) t.columns
      (row.inputs ++ row.outputs) :=
  List.rel_append (List.forall₂_map_left_iff.1 (h.inputs row hrow))
    (List.forall₂_map_left_iff.1 (h.outputs row hrow))

theorem forall₂_digits (h : t.Regular) (hrow : row ∈ t.rows) :
    List.Forall₂ (fun p cell => cell.length = p.width ∧ ∀ c ∈ cell, c = '0' ∨ c = '1') t.columns
      (t.digits row) :=
  forall₂_digitCells h.width_pos (h.room hrow)

theorem read_digits (h : t.Regular) (hrow : row ∈ t.rows) :
    (t.digits row).map (Numeral.read? 2) =
      (row.inputs ++ row.outputs).map fun value => some value.toNat :=
  read_digitCells (h.room hrow)

theorem fills_names (h : t.Regular) : List.Forall₂ Fills t.columns t.names :=
  List.forall₂_map_right_iff.2 (List.forall₂_same.2 fun p hp => fills_name (h.name p hp))

theorem fills_row (h : t.Regular) (hrow : row ∈ t.rows) :
    List.Forall₂ Fills t.columns (t.digits row) :=
  (h.forall₂_digits hrow).imp fun _ _ hcell => fills_digits hcell.1 hcell.2

/-- A newline ends each line. -/
theorem splitOn_text (h : t.Regular) : t.text.toList.splitOn '\n' = t.lines ++ [[]] := by
  rw [text_eq]
  apply splitOn_ended
  refine List.forall_mem_cons.2 ⟨newline_notMem_lineOf h.fills_names, ?_⟩
  intro line hline
  obtain ⟨row, hrow, rfl⟩ := List.mem_map.1 hline
  exact newline_notMem_lineOf (h.fills_row hrow)

theorem cells_lines (h : t.Regular) : t.lines.map cellsOf = t.names :: t.rows.map t.digits := by
  rw [lines, List.map_cons, cellsOf_lineOf h.fills_names, List.map_map]
  congr 1
  apply List.map_congr_left
  intro row hrow
  exact cellsOf_lineOf (h.fills_row hrow)

/-- The widths of the columns are seen in any row. -/
theorem lengths_digits (h : t.Regular) (hrow : row ∈ t.rows) :
    (t.digits row).map List.length = t.columns.map (·.width) := by
  apply Eq.symm
  rw [← List.forall₂_eq_eq_eq, List.forall₂_map_left_iff, List.forall₂_map_right_iff]
  exact (h.forall₂_digits hrow).imp fun _ _ hcell => hcell.1.symm

/-- **The text gives the table back.** -/
theorem ofText_text (h : t.Regular) : TableData.ofText t.text = t.data := by
  have hrows : t.rows ≠ [] := by
    intro hnil
    have hlen := h.length_rows
    rw [hnil] at hlen
    exact (Nat.two_pow_pos _).ne hlen
  have hfirst : ((t.rows.map t.digits).headD []).map List.length = t.columns.map (·.width) := by
    obtain ⟨row, rows, hcons⟩ := List.exists_cons_of_ne_nil hrows
    rw [hcons]
    exact h.lengths_digits (hcons ▸ List.mem_cons_self)
  have hcount : inputColumns (t.rows.map t.digits).length.log2 (t.columns.map (·.width)) =
      t.inputs.length := by
    have hpos : ∀ width ∈ t.inputs.map (·.width), 0 < width := by
      intro width hwidth
      obtain ⟨p, hp, rfl⟩ := List.mem_map.1 hwidth
      exact h.width_pos p (List.mem_append_left _ hp)
    rw [List.length_map, h.length_rows, Nat.log2_two_pow, columns, List.map_append,
      inputColumns_append hpos, List.length_map]
  have hcolumns : (t.names.map String.ofList).zip (t.columns.map (·.width)) =
      t.inputs.map Pin.column ++ t.outputs.map Pin.column := by
    have hname (p : Pin) : ((String.ofList ∘ fun q : Pin => q.name.toList) p, p.width) =
        p.column := Prod.ext String.ofList_toList rfl
    rw [names, List.map_map, List.zip_map', ← List.map_append]
    exact List.map_congr_left fun p _ => hname p
  have hvalues : ∀ row ∈ t.rows, (t.digits row).map (fun digits =>
      UInt64.ofNat ((Numeral.read? 2 digits).getD 0)) = row.inputs ++ row.outputs := by
    intro row hrow
    have hread := congrArg (List.map fun number => UInt64.ofNat (number.getD 0))
      (h.read_digits hrow)
    simpa [Function.comp_def] using hread
  have hlen : ∀ row ∈ t.rows, t.inputs.length = row.inputs.length := by
    intro row hrow
    rw [← (h.inputs row hrow).length_eq, List.length_map]
  rw [TableData.ofText, h.splitOn_text, List.dropLast_concat, h.cells_lines, TableData.ofCells,
    hfirst, hcount, hcolumns, data, List.map_map]
  congr 1
  · rw [List.take_left' (List.length_map _)]
  · rw [List.drop_left' (List.length_map _)]
  · conv_rhs => rw [← List.map_id t.rows]
    apply List.map_congr_left
    intro row hrow
    dsimp only [Function.comp_apply]
    rw [hvalues row hrow, List.take_left' (hlen row hrow).symm, List.drop_left' (hlen row hrow).symm]
    rfl

end Regular

end TruthTable

/-! ## Tables of frozen netlists -/

section Frozen

variable {net : Netlist} {id : Nat} {c : Chip} {limits : Limits}

theorem State.Shaped.setAll {s : State} (h : s.Shaped net id) (values : List (Nat × UInt64)) :
    (s.setAll net values).Shaped net id := by
  induction values generalizing s with
  | nil => exact h
  | cons value values ih => exact ih (h.set value.1 value.2)

namespace Netlist

/-- Evaluation leaves no more in an output than it has room for. -/
theorem fitWidths_outputs (wf : net.Sound) (hc : net.chip? id = some c) {number : Nat}
    {row : TableRow} (h : net.tableRow id c limits number = .ok row) :
    FitWidths (c.outputs.map (·.2.width)) row.outputs := by
  unfold tableRow at h
  cases hfresh : State.fresh? net id with
  | error e =>
    rw [hfresh] at h
    cases h
  | ok s =>
    have hend := ((State.shaped_fresh hfresh).setAll ((c.inputs.map (·.1)).zip
      (splitBits (c.inputs.map fun p => p.2.width) number))).evaluate wf limits
    have hpure : State.fresh? net id = pure s := hfresh
    rw [hpure, pure_bind] at h
    dsimp only at h
    cases he : (s.setAll net _).evaluate net limits with
    | mk result s' =>
      rw [he] at h hend
      cases result with
      | error e => cases h
      | ok changed =>
        cases h
        refine List.forall₂_map_left_iff.2 (List.forall₂_map_right_iff.2
          (List.forall₂_same.2 fun pin hpin => ?_))
        have hnarrow := hend.narrow (hend.chip_eq ▸ hc)
          ((wf.chips id c hc).getElem?_of_mem_pinsOf hpin)
        exact Narrow.toNat_lt hnarrow

/-- Tables of well-formed netlists are regular if their columns have names. -/
theorem regular_of_truthTable (wf : net.Sound) {t : TruthTable}
    (ht : net.truthTable id limits = .ok t) (hnames : ∀ p ∈ t.columns, Hdl.IsName p.name) :
    t.Regular := by
  cases hc : net.chip? id with
  | none =>
    rw [truthTable, hc] at ht
    cases ht
  | some c =>
    obtain ⟨hinputs, houtputs, hrows⟩ := of_truthTable_eq_ok hc ht
    have hpos (kind : PinKind) : ∀ p ∈ (c.pinsOf kind).map (·.2), 0 < p.width := by
      intro p hp
      obtain ⟨pin, hpin, rfl⟩ := List.mem_map.1 hp
      exact (wf.chips id c hc).pins.width_pos pin.2
        (Array.mem_of_getElem? ((wf.chips id c hc).getElem?_of_mem_pinsOf hpin))
    refine ⟨hnames, ?_, ?_, ?_, ?_⟩
    · intro p hp
      rw [TruthTable.columns, hinputs, houtputs] at hp
      exact (List.mem_append.1 hp).elim (hpos _ p) (hpos _ p)
    · intro row hrow
      obtain ⟨k, hk⟩ := List.mem_iff_getElem?.1 hrow
      rw [hinputs, List.map_map]
      exact (row_of_truthTable_eq_ok wf hc ht hk).1
    · intro row hrow
      obtain ⟨k, hk⟩ := List.mem_iff_getElem?.1 hrow
      obtain ⟨number, -, hok⟩ := Session.getElem?_of_forall₂ hrows hk
      rw [houtputs, List.map_map]
      exact fitWidths_outputs wf hc hok
    · rw [← hrows.length_eq, List.length_range, hinputs, List.map_map]
      rfl

end Netlist

end Frozen

/-! ## A table with columns of different widths -/

namespace Netlist

theorem truthTable_mixed : ∃ t, mixedNet.truthTable 0 {} = .ok t ∧
    t.columns.map (·.name) = ["a", "b", "c"] ∧ t.data.inputs = [("a", 2), ("b", 1)] ∧
    t.data.outputs = [("c", 1)] ∧ t.rows[5]? = some ⟨[2, 1], [1]⟩ := by
  have hchecks : (mixedNet.truthTable 0 {}).toOption.map (fun t =>
      (t.columns.map (·.name), t.data.inputs, t.data.outputs, t.rows[5]?)) =
        some (["a", "b", "c"], [("a", 2), ("b", 1)], [("c", 1)], some ⟨[2, 1], [1]⟩) := by
    decide +kernel
  cases ht : mixedNet.truthTable 0 {} with
  | error e =>
    rw [ht] at hchecks
    cases hchecks
  | ok t =>
    rw [ht] at hchecks
    simpa [Except.toOption] using hchecks

end Netlist

end ChipLogic
