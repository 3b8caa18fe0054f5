import ChipLogic.Sim.Settle
import ChipLogic.Text.Align
import ChipLogic.Text.Numeral

/-!
# Truth tables

A table lists all combinations of the inputs of a chip with the outputs that they settle to. Row `k`
holds the inputs whose bits, the first input first and high bits before low ones, are the number
`k`. Every row starts from a state in which all is zero.

As text, a table is a line of pin names and a line for every row, values as binary digits, one for
each bit of the pin. Cells are centred in their columns.
-/

namespace ChipLogic

/-- A row: values of the inputs and of the outputs, in order. -/
structure TableRow where
  inputs : List UInt64
  outputs : List UInt64
  deriving DecidableEq, Repr

/-- A truth table: its columns as pins, and its rows. -/
structure TruthTable where
  inputs : List Pin
  outputs : List Pin
  rows : List TableRow
  deriving DecidableEq, Repr

/-- Splits a number into values of the given widths, high bits first. -/
def splitBits : List Nat → Nat → List UInt64
  | [], _ => []
  | width :: widths, number =>
    UInt64.ofNat (number / 2 ^ widths.sum % 2 ^ width) :: splitBits widths number

namespace State

/-- Sets pins by position to values. -/
def setAll (net : Netlist) : List (Nat × UInt64) → State → State
  | [], s => s
  | (pin, value) :: rest, s => setAll net rest (s.set net pin value).2

end State

namespace Netlist

/-- The row of a chip for the combination of inputs with a number. -/
def tableRow (net : Netlist) (id : Nat) (c : Chip) (limits : Limits) (number : Nat) :
    Except SimError TableRow := do
  let s ← State.fresh? net id
  let inputs := splitBits (c.inputs.map fun p => p.2.width) number
  match (s.setAll net ((c.inputs.map (·.1)).zip inputs)).evaluate net limits with
  | (.error e, _) => .error e
  | (.ok _, s) => .ok ⟨inputs, c.outputs.map fun p => s.get p.1⟩

/-- The table of a chip. -/
def truthTable (net : Netlist) (id : Nat) (limits : Limits) : Except SimError TruthTable :=
  match net.chip? id with
  | none => .error (.chipNotFound id)
  | some c =>
    if limits.maxTableInputs < c.inputBits ∨ 64 ≤ c.inputBits then
      .error (.tooManyInputs c.inputBits limits.maxTableInputs)
    else do
      let rows ← (List.range (1 <<< c.inputBits)).mapM (net.tableRow id c limits)
      return ⟨c.inputs.map (·.2), c.outputs.map (·.2), rows⟩

end Netlist

/-! ## As text -/

/-- The width of the column of a pin: room for its name and for its bits. -/
def Pin.columnWidth (p : Pin) : Nat :=
  max p.name.utf8ByteSize p.width

/-- A line of cells between bars. -/
def barLine (cells : List (List Char)) : List Char :=
  '|' :: cells.flatMap (fun cell => ' ' :: cell ++ [' ', '|']) ++ ['\n']

namespace TruthTable

def columns (t : TruthTable) : List Pin := t.inputs ++ t.outputs

/-- The line of pin names. -/
def headLine (t : TruthTable) : List Char :=
  barLine (t.columns.map fun p => centred p.columnWidth p.name.toList)

/-- The line of a row. -/
def rowLine (t : TruthTable) (row : TableRow) : List Char :=
  barLine (((row.inputs ++ row.outputs).zip t.columns).map fun (value, p) =>
    centred p.columnWidth (Numeral.padded 2 p.width value.toNat))

/-- The text of a table. -/
def text (t : TruthTable) : String :=
  String.ofList (t.headLine ++ t.rows.flatMap t.rowLine)

end TruthTable

end ChipLogic
