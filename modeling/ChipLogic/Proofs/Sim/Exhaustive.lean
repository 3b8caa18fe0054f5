import ChipLogic.Proofs.Session.Outcome
import ChipLogic.Proofs.Sim.Failure
import ChipLogic.Sim.Run
import ChipLogic.Sim.Table
import Mathlib.Algebra.Ring.Nat

/-!
# Truth tables are exhaustive

A truth table cuts the numbers from zero on into the values of the inputs and sets the inputs by
position. Whoever asks for a single evaluation sets them by name (`Netlist.simulateAt`), and the
values are checked.

**Numbers in pieces.** Values that have room in some widths are put together to a number
(`joinBits`), and the pieces of a number (`splitBits`) give it back. Different values give different
numbers (`joinBits_inj`), and the numbers are those below a power of two. So no combination of
inputs is left out and none occurs twice.

**By name and by position.** The pins of a chip have different names, and the pieces of a number
have room in their pins, so nothing is refused and the right pins are set
(`State.setAllNamed_eq`). A row is what a single evaluation gives (`Netlist.of_tableRow_eq_ok`).

**Theorem (`Netlist.truthTable_exhaustive`).** The table of a chip of a frozen netlist has a row for
each combination of inputs, in order, and the row holds the outputs of the single evaluation. There
is no table exactly if there are too many inputs or one of these evaluations fails.
-/

namespace ChipLogic

/-! ## Numbers in pieces -/

/-- Each value has room in its width. -/
def FitWidths : List Nat → List UInt64 → Prop :=
  List.Forall₂ fun width value => value.toNat < 2 ^ width

instance (widths : List Nat) (values : List UInt64) : Decidable (FitWidths widths values) :=
  inferInstanceAs (Decidable (List.Forall₂ _ widths values))

/-- The number whose bits are those of the values, the first value first and high bits before low
ones. -/
def joinBits (widths : List Nat) (values : List UInt64) : Nat :=
  (widths.zip values).foldl (fun number piece => number * 2 ^ piece.1 + piece.2.toNat) 0

section Numbers

variable {widths : List Nat} {values values' : List UInt64}

/-- What was put together before moves up to make room. -/
theorem foldl_join (h : FitWidths widths values) (number : Nat) :
    (widths.zip values).foldl (fun number piece => number * 2 ^ piece.1 + piece.2.toNat) number =
      number * 2 ^ widths.sum + joinBits widths values := by
  induction h generalizing number with
  | nil => simp [joinBits]
  | @cons width value widths values _ _ ih =>
    unfold joinBits
    rw [List.zip_cons_cons, List.foldl_cons, List.foldl_cons, ih, ih (0 * 2 ^ width + value.toNat),
      List.sum_cons, Nat.pow_add, Nat.zero_mul, Nat.zero_add, Nat.add_mul, Nat.mul_assoc,
      Nat.add_assoc]

theorem joinBits_cons (h : FitWidths widths values) (width : Nat) (value : UInt64) :
    joinBits (width :: widths) (value :: values) =
      value.toNat * 2 ^ widths.sum + joinBits widths values := by
  rw [joinBits, List.zip_cons_cons, List.foldl_cons, foldl_join h, Nat.zero_mul, Nat.zero_add]

theorem joinBits_lt (h : FitWidths widths values) : joinBits widths values < 2 ^ widths.sum := by
  induction h with
  | nil => exact Nat.one_pos
  | @cons width value widths values hv h ih =>
    rw [joinBits_cons h, List.sum_cons, Nat.pow_add]
    calc value.toNat * 2 ^ widths.sum + joinBits widths values
        < value.toNat * 2 ^ widths.sum + 2 ^ widths.sum := Nat.add_lt_add_left ih _
      _ = (value.toNat + 1) * 2 ^ widths.sum := (Nat.succ_mul _ _).symm
      _ ≤ 2 ^ width * 2 ^ widths.sum := Nat.mul_le_mul_right _ hv

/-- The first value and the number of the others are quotient and remainder. -/
theorem joinBits_cons_div_mod (h : FitWidths widths values) (width : Nat) (value : UInt64) :
    joinBits (width :: widths) (value :: values) / 2 ^ widths.sum = value.toNat ∧
      joinBits (width :: widths) (value :: values) % 2 ^ widths.sum = joinBits widths values := by
  rw [Nat.div_mod_unique (Nat.two_pow_pos widths.sum), joinBits_cons h, Nat.mul_comm, Nat.add_comm]
  exact ⟨rfl, joinBits_lt h⟩

/-- **Different values give different numbers.** -/
theorem joinBits_inj (h : FitWidths widths values) (h' : FitWidths widths values')
    (heq : joinBits widths values = joinBits widths values') : values = values' := by
  induction h generalizing values' with
  | nil =>
    cases h'
    rfl
  | @cons width value widths values _ h ih =>
    cases h' with
    | @cons _ value' _ values' _ h' =>
      obtain ⟨hfirst, hrest⟩ := joinBits_cons_div_mod h width value
      obtain ⟨hfirst', hrest'⟩ := joinBits_cons_div_mod h' width value'
      rw [heq, hfirst'] at hfirst
      rw [heq, hrest'] at hrest
      rw [UInt64.toNat_inj.1 hfirst, ih h' hrest.symm]

theorem splitBits_cons (width : Nat) (widths : List Nat) (number : Nat) :
    splitBits (width :: widths) number =
      UInt64.ofNat (number / 2 ^ widths.sum % 2 ^ width) :: splitBits widths number :=
  rfl

theorem fitWidths_splitBits (h : ∀ width ∈ widths, width ≤ 64) (number : Nat) :
    FitWidths widths (splitBits widths number) := by
  induction widths with
  | nil => exact .nil
  | cons width widths ih =>
    refine .cons ?_ (ih fun w hw => h w (List.mem_cons_of_mem _ hw))
    have hlt : number / 2 ^ widths.sum % 2 ^ width < 2 ^ width :=
      Nat.mod_lt _ (Nat.two_pow_pos width)
    have hle : 2 ^ width ≤ 2 ^ 64 := Nat.pow_le_pow_right (by decide) (h width List.mem_cons_self)
    rw [UInt64.toNat_ofNat_of_lt' (Nat.lt_of_lt_of_le hlt hle)]
    exact hlt

/-- **The pieces of a number give it back**, but for bits beyond the widths. -/
theorem joinBits_splitBits (h : ∀ width ∈ widths, width ≤ 64) (number : Nat) :
    joinBits widths (splitBits widths number) = number % 2 ^ widths.sum := by
  induction widths with
  | nil =>
    rw [List.sum_nil, Nat.pow_zero, Nat.mod_one]
    rfl
  | cons width widths ih =>
    have hrest : ∀ w ∈ widths, w ≤ 64 := fun w hw => h w (List.mem_cons_of_mem _ hw)
    have hlt : number / 2 ^ widths.sum % 2 ^ width < 2 ^ 64 :=
      Nat.lt_of_lt_of_le (Nat.mod_lt _ (Nat.two_pow_pos width))
        (Nat.pow_le_pow_right (by decide) (h width List.mem_cons_self))
    rw [splitBits_cons, joinBits_cons (fitWidths_splitBits hrest number), ih hrest,
      UInt64.toNat_ofNat_of_lt' hlt, List.sum_cons, Nat.add_comm width, Nat.pow_add, Nat.mod_mul,
      Nat.mul_comm, Nat.add_comm]

end Numbers

/-! ## Single evaluations -/

namespace Chip

/-- The widths of the inputs. -/
def inputWidths (c : Chip) : List Nat :=
  c.inputs.map (·.2.width)

/-- A combination of inputs: a value for each input that the pin has room for. -/
def Combination (c : Chip) (values : List UInt64) : Prop :=
  FitWidths c.inputWidths values

instance (c : Chip) (values : List UInt64) : Decidable (c.Combination values) :=
  inferInstanceAs (Decidable (FitWidths _ values))

/-- The values of the inputs, written one after the other as a number. -/
def combinationNumber (c : Chip) (values : List UInt64) : Nat :=
  joinBits c.inputWidths values

/-- The values under the names of the inputs. -/
def byName (c : Chip) (values : List UInt64) : List (String × UInt64) :=
  (c.inputs.map (·.2.name)).zip values

variable {net : Netlist} {c : Chip} {values : List UInt64}

/-- The pins of a kind stand where their numbers say. -/
theorem Sound.getElem?_of_mem_pinsOf (wf : c.Sound net) {kind : PinKind} {pin : Nat × Pin}
    (h : pin ∈ c.pinsOf kind) : c.pins[pin.1]? = some pin.2 := by
  obtain ⟨slot, hmem, rfl⟩ := List.mem_map.1 h
  obtain ⟨i, hi⟩ := List.mem_iff_getElem?.1 (List.mem_filter.1 hmem).1
  rw [Array.getElem?_toList] at hi
  obtain rfl := wf.pinsPlaced i slot hi
  rw [Chip.pins, Numbered.getElem?_items, hi]
  rfl

theorem inputWidths_le (wf : c.Sound net) : ∀ width ∈ c.inputWidths, width ≤ 64 := by
  intro width hw
  obtain ⟨pin, hpin, rfl⟩ := List.mem_map.1 hw
  exact wf.pins.width_le pin.2 (Array.mem_of_getElem? (wf.getElem?_of_mem_pinsOf hpin))

theorem combinationNumber_lt (h : c.Combination values) :
    c.combinationNumber values < 2 ^ c.inputBits :=
  joinBits_lt h

end Chip

/-- The outputs of a chip for some inputs; the others are zero. -/
def Netlist.simulateAt (net : Netlist) (id : Nat) (inputs : List (String × UInt64))
    (limits : Limits) : Except SimError (List (Pin × UInt64)) := do
  let s ← State.fresh? net id
  let s ← s.setAllNamed net inputs
  match s.evaluate net limits with
  | (.error e, _) => .error e
  | (.ok _, s) => return s.outputs net

theorem Netlist.simulate_eq (net : Netlist) : net.simulate = net.simulateAt net.top := rfl

namespace State

variable {net : Netlist} {s : State} {id : Nat} {c : Chip}

theorem and_not_lowMask {value : UInt64} {width : Nat} (h : value.toNat < 2 ^ width) :
    value &&& ~~~(lowMask width) = 0 := by
  apply eq_of_bitAt
  intro i
  rw [bitAt_and, bitAt_not, bitAt_lowMask, bitAt_zero]
  by_cases hi : i < width
  · by_cases h64 : i < 64 <;> simp [hi, h64]
  · have hpow : value.toNat < 2 ^ i :=
      Nat.lt_of_lt_of_le h (Nat.pow_le_pow_right (by decide) (Nat.le_of_not_lt hi))
    have hbit : bitAt value i = false := Nat.testBit_lt_two_pow hpow
    rw [hbit, Bool.false_and]

/-- A value that the pin has room for is set under the name of the pin as under its position. -/
theorem setNamed_eq (wf : c.Sound net) (hc : net.chip? s.chip = some c) {i : Nat} {p : Pin}
    (hp : c.pins[i]? = some p) {value : UInt64} (hv : value.toNat < 2 ^ p.width) :
    s.setNamed net p.name value = (.ok (s.set net i value).1, (s.set net i value).2) := by
  have hname : s.pinNamed net p.name = .ok i := by
    rw [pinNamed, chipIn_eq hc, ← Pin.key, wf.index i p hp]
  rw [setNamed, hname, chipIn_eq hc]
  dsimp only
  rw [hp, Option.map_some, Option.getD_some, and_not_lowMask hv, if_neg fun h => h rfl]

theorem Framed.setAll (h : Framed net id s) (values : List (Nat × UInt64)) :
    Framed net id (s.setAll net values) := by
  induction values generalizing s with
  | nil => exact h
  | cons value values ih => exact ih (h.set value.1 value.2)

/-- **Values that have room are set by name as by position.** -/
theorem setAllNamed_eq (wf : c.Sound net) (hc : net.chip? id = some c)
    {pins : List (Nat × Pin)} (hpins : ∀ pin ∈ pins, c.pins[pin.1]? = some pin.2)
    {values : List UInt64}
    (hv : List.Forall₂ (fun pin value => value.toNat < 2 ^ pin.2.width) pins values) (hs : Framed net id s) :
    s.setAllNamed net ((pins.map (·.2.name)).zip values) =
      .ok (s.setAll net ((pins.map (·.1)).zip values)) := by
  induction hv generalizing s with
  | nil => rfl
  | @cons pin value pins values hvalue _ ih =>
    have hset := setNamed_eq wf (hs.chip_eq ▸ hc) (hpins pin List.mem_cons_self) hvalue
    simp only [List.map_cons, List.zip_cons_cons, setAllNamed, setAll]
    rw [hset]
    exact ih (fun p hp => hpins p (List.mem_cons_of_mem _ hp)) (hs.set pin.1 value)

end State

namespace Netlist

variable {net : Netlist} {id : Nat} {c : Chip} {limits : Limits}

/-- The row for a number and the single evaluation for its pieces read the same state, or fail
alike. -/
theorem exists_settled (wf : net.Sound) (hc : net.chip? id = some c) (limits : Limits)
    (number : Nat) : ∃ settled : Except SimError State,
      net.tableRow id c limits number = settled.map (fun s =>
        ⟨splitBits c.inputWidths number, c.outputs.map fun pin => s.get pin.1⟩) ∧
      net.simulateAt id (c.byName (splitBits c.inputWidths number)) limits =
        settled.map fun s => c.outputs.map fun pin => (pin.2, s.get pin.1) := by
  have hwf := wf.chips id c hc
  have hpins : ∀ pin ∈ c.inputs, c.pins[pin.1]? = some pin.2 :=
    fun _ => hwf.getElem?_of_mem_pinsOf
  have hroom := List.forall₂_map_left_iff.1 (fitWidths_splitBits (Chip.inputWidths_le hwf) number)
  cases hfresh : State.fresh? net id with
  | error e =>
    rw [State.fresh?, hc] at hfresh
    cases hfresh
  | ok s =>
    have hs : State.Framed net id s := (State.shaped_fresh hfresh).framed
    have hpure : State.fresh? net id = pure s := hfresh
    have hset : s.setAllNamed net (c.byName (splitBits c.inputWidths number)) = pure _ :=
      State.setAllNamed_eq hwf hc hpins hroom hs
    have hend := (hs.setAll ((c.inputs.map (·.1)).zip (splitBits c.inputWidths number))).evaluate
      wf limits
    unfold tableRow simulateAt
    rw [hpure, pure_bind, pure_bind, hset, pure_bind, ← Chip.inputWidths]
    dsimp only
    cases he : (s.setAll net _).evaluate net limits with
    | mk result s' =>
      rw [he] at hend
      cases result with
      | error e => exact ⟨.error e, rfl, rfl⟩
      | ok changed =>
        have houtputs : s'.outputs net = c.outputs.map fun pin => (pin.2, s'.get pin.1) := by
          unfold State.outputs
          rw [State.chipIn_eq (hend.chip_eq ▸ hc)]
        exact ⟨.ok s', rfl, congrArg Except.ok houtputs⟩

/-- **A row is a single evaluation.** -/
theorem of_tableRow_eq_ok (wf : net.Sound) (hc : net.chip? id = some c) {number : Nat}
    {row : TableRow} (h : net.tableRow id c limits number = .ok row) :
    row.inputs = splitBits c.inputWidths number ∧ row.outputs.length = c.outputs.length ∧
      net.simulateAt id (c.byName row.inputs) limits =
        .ok ((c.outputs.map (·.2)).zip row.outputs) := by
  obtain ⟨settled, hrow, hsingle⟩ := exists_settled wf hc limits number
  rw [hrow] at h
  cases settled with
  | error e => cases h
  | ok s =>
    cases h
    refine ⟨rfl, List.length_map _, ?_⟩
    rw [hsingle, List.zip_map']
    rfl

/-- A row is missing if its single evaluation fails. -/
theorem tableRow_eq_error_iff (wf : net.Sound) (hc : net.chip? id = some c) {number : Nat} :
    (∃ e, net.tableRow id c limits number = .error e) ↔
      ∃ e, net.simulateAt id (c.byName (splitBits c.inputWidths number)) limits = .error e := by
  obtain ⟨settled, hrow, hsingle⟩ := exists_settled wf hc limits number
  rw [hrow, hsingle]
  cases settled with
  | error e => exact ⟨fun _ => ⟨e, rfl⟩, fun _ => ⟨e, rfl⟩⟩
  | ok s => refine ⟨fun ⟨_, h⟩ => ?_, fun ⟨_, h⟩ => ?_⟩ <;> cases h

/-! ## Tables -/

/-- There are no tables beyond the limits. -/
theorem truthTable_eq_error (hc : net.chip? id = some c)
    (hbits : limits.maxTableInputs < c.inputBits ∨ 64 ≤ c.inputBits) :
    net.truthTable id limits = .error (.tooManyInputs c.inputBits limits.maxTableInputs) := by
  unfold truthTable
  rw [hc]
  dsimp only
  rw [if_pos hbits]

/-- Within the limits, the table is its rows. -/
theorem truthTable_eq (hc : net.chip? id = some c)
    (hbits : ¬ (limits.maxTableInputs < c.inputBits ∨ 64 ≤ c.inputBits)) :
    net.truthTable id limits =
      ((List.range (2 ^ c.inputBits)).mapM (net.tableRow id c limits)).map fun rows =>
        ⟨c.inputs.map (·.2), c.outputs.map (·.2), rows⟩ := by
  unfold truthTable
  rw [hc]
  dsimp only
  rw [if_neg hbits, Nat.one_shiftLeft]
  rfl

/-- The rows of a table are those for the numbers in order. -/
theorem of_truthTable_eq_ok (hc : net.chip? id = some c) {t : TruthTable}
    (h : net.truthTable id limits = .ok t) :
    t.inputs = c.inputs.map (·.2) ∧ t.outputs = c.outputs.map (·.2) ∧
      List.Forall₂ (fun number row => net.tableRow id c limits number = .ok row)
        (List.range (2 ^ c.inputBits)) t.rows := by
  by_cases hbits : limits.maxTableInputs < c.inputBits ∨ 64 ≤ c.inputBits
  · rw [truthTable_eq_error hc hbits] at h
    cases h
  · rw [truthTable_eq hc hbits] at h
    cases hrows : (List.range (2 ^ c.inputBits)).mapM (net.tableRow id c limits) with
    | error e =>
      rw [hrows] at h
      cases h
    | ok rows =>
      rw [hrows] at h
      cases h
      exact ⟨rfl, rfl, Session.forall₂_of_mapM hrows⟩

/-- Within the limits, there is a table if there is every row. -/
theorem exists_truthTable (hc : net.chip? id = some c)
    (hbits : ¬ (limits.maxTableInputs < c.inputBits ∨ 64 ≤ c.inputBits))
    (hrows : ∀ number < 2 ^ c.inputBits, ∃ row, net.tableRow id c limits number = .ok row) :
    ∃ t, net.truthTable id limits = .ok t := by
  obtain ⟨rows, h⟩ := Session.mapM_ok fun number hn => hrows number (List.mem_range.1 hn)
  rw [truthTable_eq hc hbits, h]
  exact ⟨_, rfl⟩

/-- The row at a position is the one for the number, whose pieces give the number back. -/
theorem row_of_truthTable_eq_ok (wf : net.Sound) (hc : net.chip? id = some c) {t : TruthTable}
    (h : net.truthTable id limits = .ok t) {k : Nat} {row : TableRow}
    (hrow : t.rows[k]? = some row) :
    c.Combination row.inputs ∧ c.combinationNumber row.inputs = k ∧
      row.outputs.length = t.outputs.length ∧
      net.simulateAt id (c.byName row.inputs) limits = .ok (t.outputs.zip row.outputs) := by
  obtain ⟨-, houtputs, hrows⟩ := of_truthTable_eq_ok hc h
  obtain ⟨number, hnumber, hok⟩ := Session.getElem?_of_forall₂ hrows hrow
  obtain ⟨hlt, rfl⟩ := List.getElem?_eq_some_iff.1 hnumber
  rw [List.length_range] at hlt
  rw [List.getElem_range] at hok
  obtain ⟨hinputs, hlen, hsingle⟩ := of_tableRow_eq_ok wf hc hok
  have hle := Chip.inputWidths_le (wf.chips id c hc)
  refine ⟨?_, ?_, ?_, houtputs ▸ hsingle⟩
  · rw [hinputs]
    exact fitWidths_splitBits hle k
  · rw [hinputs, Chip.combinationNumber, joinBits_splitBits hle]
    exact Nat.mod_eq_of_lt hlt
  · rw [houtputs, hlen, List.length_map]

/-- The row of a combination stands where its number says. -/
theorem exists_row (wf : net.Sound) (hc : net.chip? id = some c) {t : TruthTable}
    (h : net.truthTable id limits = .ok t) {values : List UInt64} (hv : c.Combination values) :
    ∃ row, t.rows[c.combinationNumber values]? = some row ∧ row.inputs = values := by
  obtain ⟨-, -, hrows⟩ := of_truthTable_eq_ok hc h
  have hlt : c.combinationNumber values < t.rows.length := by
    rw [← hrows.length_eq, List.length_range]
    exact Chip.combinationNumber_lt hv
  have hrow := List.getElem?_eq_getElem hlt
  obtain ⟨hfit, hnumber, -⟩ := row_of_truthTable_eq_ok wf hc h hrow
  exact ⟨_, hrow, joinBits_inj hfit hv hnumber⟩

/-- There is no table exactly if it is beyond the limits or a single evaluation fails. -/
theorem truthTable_fails_iff (wf : net.Sound) (hc : net.chip? id = some c) :
    (∃ e, net.truthTable id limits = .error e) ↔
      limits.maxTableInputs < c.inputBits ∨ 64 ≤ c.inputBits ∨
        ∃ values e, c.Combination values ∧
          net.simulateAt id (c.byName values) limits = .error e := by
  refine ⟨fun ⟨e, he⟩ => ?_, fun h => ?_⟩
  · by_contra hnone
    push Not at hnone
    obtain ⟨hlimit, hword, hruns⟩ := hnone
    have hrows : ∀ number < 2 ^ c.inputBits, ∃ row, net.tableRow id c limits number = .ok row := by
      intro number _
      cases hrow : net.tableRow id c limits number with
      | ok row => exact ⟨row, rfl⟩
      | error e' =>
        obtain ⟨e'', hfails⟩ := (tableRow_eq_error_iff wf hc).1 ⟨e', hrow⟩
        have hfit := fitWidths_splitBits (Chip.inputWidths_le (wf.chips id c hc)) number
        exact absurd hfails (hruns _ e'' hfit)
    obtain ⟨t, ht⟩ := exists_truthTable hc (by omega) hrows
    rw [ht] at he
    cases he
  · cases ht : net.truthTable id limits with
    | error e => exact ⟨e, rfl⟩
    | ok t =>
      have hbits : ¬ (limits.maxTableInputs < c.inputBits ∨ 64 ≤ c.inputBits) := fun hbits => by
        rw [truthTable_eq_error hc hbits] at ht
        cases ht
      rcases h with hlimit | hword | ⟨values, e, hv, hfails⟩
      · exact absurd (.inl hlimit) hbits
      · exact absurd (.inr hword) hbits
      · obtain ⟨row, hrow, rfl⟩ := exists_row wf hc ht hv
        rw [(row_of_truthTable_eq_ok wf hc ht hrow).2.2.2] at hfails
        cases hfails

/-- A design with an input of two bits and one of a single bit. -/
def mixed : Session :=
  (Session.addSource { disk := .empty } "T.hdl"
    "CHIP T\x7bIN a[2],b;OUT c;PARTS:And(a=a[1],b=b,out=c);\x7d").2

/-- The netlist of `T`, which is chip 0. -/
def mixedNet : Netlist :=
  (mixed.freeze 0).1.toOption.join.getD ⟨#[], 0⟩

theorem freeze_mixed : (mixed.freeze 0).1 = .ok (some mixedNet) := by
  have hsome : (mixed.freeze 0).1.toOption.join.isSome := by decide +kernel
  obtain ⟨net, hnet⟩ := Session.exists_netlist_of_isSome hsome
  rw [mixedNet, hnet]
  rfl

/-- The chip `T`. -/
def mixedChip : Chip :=
  (mixedNet.chip? 0).getD default

theorem mixedChip_checks : (mixedNet.chip? 0).isSome ∧ mixedNet.top = 0 ∧
    mixedChip.inputBits = 3 ∧ mixedChip.Combination [2, 1] ∧
    mixedChip.combinationNumber [2, 1] = 5 ∧
    mixedChip.byName [2, 1] = [("a", 2), ("b", 1)] ∧
    (mixedNet.truthTable 0 {}).toOption.isSome := by
  decide +kernel

end Netlist

end ChipLogic
