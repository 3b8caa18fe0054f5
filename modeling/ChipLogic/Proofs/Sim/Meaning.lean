import ChipLogic.Proofs.Netlist.Dependency
import ChipLogic.Proofs.Sim.Window
import Mathlib.Logic.Function.Basic

/-!
# What a combinational design means

A chip is a function of its inputs. It gives each pin a value (`Valuation`): a gate computes its
output, and a chip with parts goes through them in an order of dependency, where each part takes
what its wires bring it, is applied as the function of its chip, and gives out what its wires take
from it (`Netlist.applyPart`). Bits that nothing gives a value to are zero. This is
`Netlist.meaning`; states and passes do not occur in it.

A valuation **solves** a chip (`Chip.Solves`) if it agrees with what every part gives out, in
whatever order one looks at the parts. What goes to bits that a net does not have is not looked at.

**Theorem (`Chip.Solves.eq_foldl`).** A combinational chip has no solution but the one that going
through its parts in the order of dependency computes.
-/

namespace ChipLogic

/-- The values of the pins of a chip, by position. -/
abbrev Valuation := Nat → UInt64

/-! ## Writing into windows -/

/-- Writes a value into a window of a pin, for each item of a list. -/
def writeAll {α : Type} (pin : α → Nat) (window : α → BitRange) (value : α → UInt64) :
    List α → Valuation → Valuation
  | [], v => v
  | a :: as, v =>
    writeAll pin window value as
      (Function.update v (pin a) ((window a).insert (v (pin a)) (value a)))

section Writes

variable {α : Type} {pin : α → Nat} {window : α → BitRange} {value value' : α → UInt64}
  {as : List α} {v : Valuation}

theorem writeAll_congr (h : ∀ a ∈ as, value a = value' a) :
    writeAll pin window value as v = writeAll pin window value' as v := by
  induction as generalizing v with
  | nil => rfl
  | cons a as ih =>
    rw [writeAll, writeAll, h a List.mem_cons_self]
    exact ih fun b hb => h b (List.mem_cons_of_mem a hb)

/-- Bits outside the windows stay as they are. -/
theorem bitAt_writeAll {i k : Nat} (h : ∀ a ∈ as, pin a = i → ¬ (window a).Covers k) :
    bitAt (writeAll pin window value as v i) k = bitAt (v i) k := by
  induction as generalizing v with
  | nil => rfl
  | cons a as ih =>
    rw [writeAll, ih fun b hb => h b (List.mem_cons_of_mem a hb)]
    by_cases hi : i = pin a
    · subst hi
      rw [Function.update_self,
        BitRange.bitAt_insert_of_not_covers (h a List.mem_cons_self rfl)]
    · rw [Function.update_of_ne hi]

theorem extract_congr {r : BitRange} {a b : UInt64}
    (h : ∀ k, r.Covers k → bitAt a k = bitAt b k) : r.extract a = r.extract b := by
  apply eq_of_bitAt
  intro k
  rw [BitRange.bitAt_extract, BitRange.bitAt_extract]
  cases hk : bitAt r.window (r.first + k) with
  | true => rw [h _ (BitRange.covers_of_bitAt_window hk)]
  | false => rw [Bool.false_and, Bool.false_and]

theorem bitAt_of_extract {r : BitRange} {a b : UInt64} (hr : r.last < 64)
    (h : r.extract a = r.extract b) {k : Nat} (hk : r.Covers k) : bitAt a k = bitAt b k := by
  have hbit : bitAt (r.extract a) (k - r.first) = bitAt (r.extract b) (k - r.first) := by rw [h]
  have hwindow : bitAt r.window k = true := by
    rw [BitRange.bitAt_window_of_counted (.of_last_lt (Nat.lt_trans hr (by decide)))]
    exact decide_eq_true ⟨hk, Nat.lt_of_le_of_lt hk.2 hr⟩
  rwa [BitRange.bitAt_extract, BitRange.bitAt_extract, Nat.add_sub_cancel' hk.1, hwindow,
    Bool.true_and, Bool.true_and] at hbit

/-- A window that overlaps no other one has the value that was written into it. -/
theorem extract_writeAll
    (hapart : as.Pairwise fun a b => ¬ (pin a = pin b ∧ (window a).Overlaps (window b)))
    {a : α} (ha : a ∈ as) (hlast : (window a).last < 64)
    (hvalue : value a &&& lowMask (window a).width = value a) :
    (window a).extract (writeAll pin window value as v (pin a)) = value a := by
  induction as generalizing v with
  | nil => cases ha
  | cons b as ih =>
    obtain ⟨hb, hrest⟩ := List.pairwise_cons.1 hapart
    rcases List.mem_cons.1 ha with rfl | ha
    · have hself : (window a).extract
          (Function.update v (pin a) ((window a).insert (v (pin a)) (value a)) (pin a)) =
            value a := by
        rw [Function.update_self]
        exact BitRange.extract_insert hlast hvalue
      refine Eq.trans (extract_congr fun k hk => ?_) hself
      rw [writeAll, bitAt_writeAll fun b' hb' hpin hk' => ?_]
      exact hb b' hb' ⟨hpin.symm, BitRange.overlaps_iff.2 ⟨k, hk, hk'⟩⟩
    · exact ih hrest ha

end Writes

/-! ## Meaning -/

namespace Chip

/-- The pin is an input. -/
def isInput (c : Chip) (pin : Nat) : Bool :=
  (c.pins[pin]?).any fun p => p.kind == .input

/-- The inputs have their values, and all else is zero. -/
def start (c : Chip) (x : Valuation) : Valuation :=
  fun i => if c.isInput i then x i else 0

/-- The values of a part once the wires into it have taken the values `v` of the chip around. -/
def takeInputs (c inner : Chip) (p : Instance) (v y : Valuation) : Valuation :=
  writeAll Wire.inner inner.innerWindow (fun w => (c.outerWindow w).extract (v w.outer)) p.drives y

/-- What the wires into a part bring it; the other bits are zero. -/
def drivenInputs (c inner : Chip) (p : Instance) (v : Valuation) : Valuation :=
  c.takeInputs inner p v fun _ => 0

/-- The values of a chip once the wires out of a part have taken the part's values `y`. -/
def takeOutputs (c inner : Chip) (p : Instance) (y v : Valuation) : Valuation :=
  writeAll Wire.outer c.outerWindow (fun w => (inner.innerWindow w).extract (y w.inner)) p.senses v

end Chip

namespace Netlist

/-- Applies a part as the function of its chip. -/
def applyPart (net : Netlist) (meaning : Nat → Valuation → Valuation) (c : Chip) (v : Valuation)
    (part : Nat) : Valuation :=
  let p := c.partAt part
  let inner := c.innerAt net part
  c.takeOutputs inner p (meaning p.chip (c.drivenInputs inner p v)) v

/-- The values of the pins of a chip as a function of its inputs, for chips nested at most so
deep. -/
def meaningWithin (net : Netlist) : (levels : Nat) → (id : Nat) → Valuation → Valuation
  | 0, _, _ => fun _ => 0
  | levels + 1, id, x =>
    let c := net.chipAt id
    match c.kind with
    | .gate g =>
      Function.update (c.start x) g.arity (g.apply ((List.range g.arity).map (c.start x)))
    | .composite =>
      c.dependencyOrder.foldl (net.applyPart (net.meaningWithin levels) c) (c.start x)

/-- The values of the pins of a chip as a function of its inputs. -/
def meaning (net : Netlist) (id : Nat) (x : Valuation) : Valuation :=
  net.meaningWithin net.size id x

end Netlist

/-! ## Solutions -/

namespace Chip

variable {net : Netlist} {c : Chip} {F : Nat → Valuation → Valuation} {x v u : Valuation}

/-- A part gives the bit of a pin its value. -/
def SensedBy (c : Chip) (part i k : Nat) : Prop :=
  ∃ w ∈ (c.partAt part).senses, w.outer = i ∧ (c.outerWindow w).Covers k

/-- The ends of all wires are pins, and their windows match. -/
def Wired (net : Netlist) (c : Chip) : Prop :=
  ∀ part, ∀ w ∈ (c.partAt part).wires, w.Ends (c.innerAt net part) c

theorem Sound.wired (wf : net.Sound) {id : Nat} (hc : net.chip? id = some c) :
    c.Wired net := by
  intro part w hw
  have hmem : c.partAt part ∈ c.parts := Array.mem_of_getElem? (getElem?_of_wire hw)
  obtain ⟨d, hd, -⟩ := (wf.chips id c hc).parts _ hmem
  rw [innerAt, Netlist.chipAt_eq hd]
  exact ends wf hc hmem hd hw

/-- The values agree with what the parts give out, as far as it is not lost, and no other bit of the
chip has changed. -/
structure Solves (net : Netlist) (F : Nat → Valuation → Valuation) (c : Chip) (x v : Valuation) :
    Prop where
  rest : ∀ i k, (∀ part, ¬ c.SensedBy part i k) → bitAt (v i) k = bitAt (c.start x i) k
  parts : ∀ part, ∀ w ∈ (c.partAt part).senses, ¬ w.WrapsAround →
    (c.outerWindow w).extract (v w.outer) =
      ((c.innerAt net part).innerWindow w).extract
        (F (c.partAt part).chip
          (c.drivenInputs (c.innerAt net part) (c.partAt part) v) w.inner)

theorem drivenInputs_congr {inner : Chip} {p : Instance}
    (h : ∀ w ∈ p.drives, (c.outerWindow w).extract (u w.outer) =
      (c.outerWindow w).extract (v w.outer)) :
    c.drivenInputs inner p u = c.drivenInputs inner p v :=
  writeAll_congr h

/-- A part does not touch the bits that it does not give a value to. -/
theorem bitAt_applyPart {part i k : Nat} (h : ¬ c.SensedBy part i k) :
    bitAt (net.applyPart F c v part i) k = bitAt (v i) k :=
  bitAt_writeAll fun w hw hi hk => h ⟨w, hw, hi, hk⟩

/-- Each wire out of a part has the value that the part gives out, unless it is lost. -/
theorem extract_takeOutputs (hcomb : c.Combinational net) (hwired : c.Wired net) {part : Nat}
    {w : Wire} (hw : w ∈ (c.partAt part).senses) (hkept : ¬ w.WrapsAround) (y : Valuation) :
    (c.outerWindow w).extract
        (c.takeOutputs (c.innerAt net part) (c.partAt part) y v w.outer) =
      ((c.innerAt net part).innerWindow w).extract (y w.inner) := by
  have hends := hwired part w (Instance.mem_senses.1 hw).1
  refine extract_writeAll (hcomb.senses_of_part part) hw (hends.outer_last_lt hkept) ?_
  rw [← hends.width_eq]
  exact BitRange.extract_and_lowMask _ _

/-- Each wire into a part has brought its value. -/
theorem extract_takeInputs (hcomb : c.Combinational net) (hwired : c.Wired net) {part : Nat}
    {w : Wire} (hw : w ∈ (c.partAt part).drives) (y : Valuation) :
    ((c.innerAt net part).innerWindow w).extract
        (c.takeInputs (c.innerAt net part) (c.partAt part) v y w.inner) =
      (c.outerWindow w).extract (v w.outer) := by
  have hends := hwired part w (Instance.mem_drives.1 hw).1
  refine extract_writeAll (hcomb.drives_of_part part) hw hends.inner_last_lt ?_
  rw [hends.width_eq]
  exact BitRange.extract_and_lowMask _ _

namespace Solves

/-- The parts gone through so far have the values of the solution. -/
theorem bitAt_foldl (h : Solves net F c x v) (hcomb : c.Combinational net) (hwired : c.Wired net)
    {before after : List Nat} (horder : c.dependencyOrder = before ++ after) {i k : Nat}
    (hbit : (∃ part ∈ before, c.SensedBy part i k) ∨ ∀ part, ¬ c.SensedBy part i k) :
    bitAt (before.foldl (net.applyPart F c) (c.start x) i) k = bitAt (v i) k := by
  induction before using List.reverseRecOn generalizing after i k with
  | nil =>
    rcases hbit with ⟨part, hpart, -⟩ | hbit
    · cases hpart
    · exact (h.rest i k hbit).symm
  | append_singleton before part ih =>
    rw [List.append_assoc, List.singleton_append] at horder
    rw [List.foldl_append, List.foldl_cons, List.foldl_nil]
    have hearlier {i k : Nat} := @ih (part :: after) horder i k
    by_cases hs : c.SensedBy part i k
    · obtain ⟨w, hw, rfl, hk⟩ := hs
      have hends := hwired part w (Instance.mem_senses.1 hw).1
      by_cases hwrap : w.WrapsAround
      · -- no cell has the bit
        have hbeyond := Nat.le_trans (hends.outer_beyond hwrap) hk.1
        rw [bitAt_of_le hbeyond, bitAt_of_le hbeyond]
      refine bitAt_of_extract (hends.outer_last_lt hwrap) ?_ hk
      rw [h.parts part w hw hwrap, Netlist.applyPart, extract_takeOutputs hcomb hwired hw hwrap]
      -- What the part reads comes from parts before it, or from no part.
      rw [drivenInputs_congr fun u hu => extract_congr fun k' hk' => hearlier ?_]
      by_cases hsensed : ∃ feeder, c.SensedBy feeder u.outer k'
      · obtain ⟨feeder, w', hw', hout, hk''⟩ := hsensed
        refine .inl ⟨feeder, hcomb.feeder_before horder ⟨w', hw', u, hu, hout, ?_⟩, w', hw', hout,
          hk''⟩
        exact BitRange.overlaps_iff.2 ⟨k', hk'', hk'⟩
      · exact .inr fun feeder hf => hsensed ⟨feeder, hf⟩
    · rw [bitAt_applyPart hs]
      refine hearlier ?_
      rcases hbit with ⟨other, hother, hbit⟩ | hbit
      · rcases List.mem_append.1 hother with hother | hother
        · exact .inl ⟨other, hother, hbit⟩
        · rw [List.mem_singleton.1 hother] at hbit
          exact absurd hbit hs
      · exact .inr hbit

/-- **A solution is what the parts compute in their order of dependency.** -/
theorem eq_foldl (h : Solves net F c x v) (hcomb : c.Combinational net) (hwired : c.Wired net) :
    v = c.dependencyOrder.foldl (net.applyPart F c) (c.start x) := by
  funext i
  apply eq_of_bitAt
  intro k
  refine (h.bitAt_foldl hcomb hwired (List.append_nil _).symm ?_).symm
  by_cases hsensed : ∃ part, c.SensedBy part i k
  · obtain ⟨part, hpart⟩ := hsensed
    refine .inl ⟨part, hcomb.mem_order.2 ?_, hpart⟩
    obtain ⟨w, hw, -⟩ := hpart
    exact (Array.getElem?_eq_some_iff.1 (getElem?_of_wire (Instance.mem_senses.1 hw).1)).1
  · exact .inr fun part hpart => hsensed ⟨part, hpart⟩

end Solves

end Chip

end ChipLogic
