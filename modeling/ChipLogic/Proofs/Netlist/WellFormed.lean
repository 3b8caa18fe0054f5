import ChipLogic.Netlist.Basic
import ChipLogic.Proofs.Chip.Pins
import Mathlib.Logic.Relation

/-!
# Well-formed netlists

A netlist written by hand may lead anywhere. `Netlist.Sound` is what a frozen one promises:

* chip 0 is there and is the top;
* each chip has a sound pin table, and a gate has its own pins first and no parts;
* each pin and each part carries the number of its position;
* each part leads to a chip of the netlist, and each of its wires **fits** (`Wire.Fits`): both ends
  are pins, the ends have the same number of bits, and the direction follows from the kind of the
  part's pin;
* no chip contains itself (`Netlist.Instantiates`).

**Ranges.** The range at the inner end of a wire lies inside its pin. The range at the outer end
does so too, but for one that ends at the very last position (`Wire.WrapsAround`): the net is made
for such a range, and the width that it asks for comes out as zero. A netlist without such wires is
**well formed** (`Netlist.WellFormed`).

A wire that fits two pin tables still fits them when pins are added at the end (`Wire.Fits.mono`).
-/

namespace ChipLogic

/-! ## Wires -/

/-- The number of bits that a wire end means on a pin. -/
def endWidth (range : Option BitRange) (p : Pin) : Nat :=
  match range with
  | some range => range.width
  | none => p.width

/-- The outer end of the wire is a range that ends at the very last position. -/
def Wire.WrapsAround (w : Wire) : Prop :=
  ∃ r, w.outerRange = some r ∧ r.WrapsAround

instance (w : Wire) : Decidable w.WrapsAround :=
  decidable_of_iff (∃ r ∈ w.outerRange, r.WrapsAround) Iff.rfl

/-- A wire out of a part to bits that its net does not have: what it carries is lost. -/
def Wire.Lossy (w : Wire) : Prop :=
  w.direction = .sense ∧ w.WrapsAround

instance (w : Wire) : Decidable w.Lossy :=
  inferInstanceAs (Decidable (_ ∧ _))

/-- A wire joins a pin of a part and a pin of the chip around it. -/
structure Wire.Joins (w : Wire) (inner outer : Pin) : Prop where
  terminal : inner.kind ≠ .internal
  innerFits : ∀ r, w.innerRange = some r → r.first ≤ r.last ∧ r.last < inner.width
  outerFits : ∀ r, w.outerRange = some r →
    r.first ≤ r.last ∧ r.last < outer.width ∨ r.WrapsAround ∧ outer.kind = .internal
  sameWidth : endWidth w.innerRange inner = endWidth w.outerRange outer
  drive_iff : w.direction = .drive ↔ inner.kind = .input
  /-- Nothing inside a chip drives its inputs. -/
  sense_outer : w.direction = .sense → outer.kind ≠ .input

namespace Wire.Joins

variable {w : Wire} {inner outer : Pin} {r : BitRange}

theorem outer_ordered (h : w.Joins inner outer) (hr : w.outerRange = some r) : r.first ≤ r.last :=
  (h.outerFits r hr).elim And.left fun hwrap => hwrap.1.1

/-- The pin has the bits that the range asks for. -/
theorem extent_le (h : w.Joins inner outer) (hr : w.outerRange = some r) :
    r.extent ≤ outer.width :=
  BitRange.extent_le ((h.outerFits r hr).imp_right And.left)

end Wire.Joins

/-- The ends of a wire are pins of the two tables, and the wire joins them. -/
def Wire.Fits (w : Wire) (inner outer : Array Pin) : Prop :=
  ∃ p q, inner[w.inner]? = some p ∧ outer[w.outer]? = some q ∧ w.Joins p q

theorem getElem?_of_toList_prefix {α : Type} {xs ys : Array α} (h : xs.toList <+: ys.toList)
    {i : Nat} {x : α} (hx : xs[i]? = some x) : ys[i]? = some x := by
  rw [← Array.getElem?_toList] at hx ⊢
  obtain ⟨hlt, -⟩ := List.getElem?_eq_some_iff.1 hx
  rw [List.prefix_iff_getElem?] at h
  rw [h i hlt, ← List.getElem?_eq_getElem hlt, hx]

theorem Wire.Fits.mono {w : Wire} {inner inner' outer outer' : Array Pin} (h : w.Fits inner outer)
    (hi : inner.toList <+: inner'.toList) (ho : outer.toList <+: outer'.toList) :
    w.Fits inner' outer' := by
  obtain ⟨p, q, hp, hq, hj⟩ := h
  exact ⟨p, q, getElem?_of_toList_prefix hi hp, getElem?_of_toList_prefix ho hq, hj⟩

/-! ## Netlists -/

namespace Netlist

/-- The chip at `parent` has a part that leads to the chip at `child`. -/
def Instantiates (n : Netlist) (parent child : Nat) : Prop :=
  ∃ c, n.chip? parent = some c ∧ ∃ p ∈ c.parts, p.chip = child

end Netlist

/-- What holds of a chip of a frozen netlist. -/
structure Chip.Sound (n : Netlist) (c : Chip) : Prop where
  pins : Pins.Sound c.pins
  /-- A pin is found by its key at its own position. -/
  index : ∀ i p, c.pins[i]? = some p → c.findPin? p.key = some i
  /-- Pins and parts carry the numbers of their positions. -/
  pinsPlaced : InPlace c.pinSlots
  partsPlaced : InPlace c.partSlots
  /-- A part leads to a chip of the netlist, and its wires fit. -/
  parts : ∀ p ∈ c.parts, ∃ child, n.chip? p.chip = some child ∧
    ∀ w ∈ p.wires, w.Fits child.pins c.pins
  /-- A gate has its one-bit inputs and `out` first, and no parts. -/
  gate : ∀ g, c.kind = .gate g → g.definition.pins.toList <+: c.pins.toList ∧ c.parts = #[]

/-- What holds of a frozen netlist. -/
structure Netlist.Sound (n : Netlist) : Prop where
  top : n.top = 0
  topChip : ∃ c, n.chip? 0 = some c
  chips : ∀ id c, n.chip? id = some c → c.Sound n
  acyclic : ∀ id, ¬ Relation.TransGen n.Instantiates id id

namespace Netlist

/-- A sound netlist in which all ranges lie inside their pins. -/
structure WellFormed (n : Netlist) : Prop extends n.Sound where
  inside : ∀ id c, n.chip? id = some c → ∀ p ∈ c.parts, ∀ w ∈ p.wires, ∀ r,
    w.outerRange = some r → ∃ q, c.pins[w.outer]? = some q ∧ r.first ≤ r.last ∧ r.last < q.width

/-- The wires of all parts. -/
def wires (n : Netlist) : List Wire :=
  n.chips.toList.flatMap fun c => c.parts.toList.flatMap (·.wires)

theorem mem_wires {n : Netlist} {w : Wire} :
    w ∈ n.wires ↔ ∃ id c, n.chip? id = some c ∧ ∃ p ∈ c.parts, w ∈ p.wires := by
  simp only [wires, List.mem_flatMap, Array.mem_toList_iff, Array.mem_iff_getElem?, chip?]
  constructor
  · rintro ⟨c, ⟨id, hc⟩, p, hp, hw⟩
    exact ⟨id, c, hc, p, hp, hw⟩
  · rintro ⟨id, c, hc, p, hp, hw⟩
    exact ⟨c, ⟨id, hc⟩, p, hp, hw⟩

/-- A range that wraps around lies inside no pin, and all others do. -/
theorem Sound.wellFormed_iff {n : Netlist} (h : n.Sound) :
    n.WellFormed ↔ ∀ w ∈ n.wires, ¬ w.WrapsAround := by
  constructor
  · rintro hwf w hw ⟨r, hr, hwrap⟩
    obtain ⟨id, c, hc, p, hp, hw⟩ := mem_wires.1 hw
    obtain ⟨q, hq, -, hlast⟩ := hwf.inside id c hc p hp w hw r hr
    have hle : q.width ≤ 64 := (h.chips id c hc).pins.width_le q (Array.mem_of_getElem? hq)
    rw [hwrap.2, max32] at hlast
    omega
  · intro hnone
    refine { h with inside := fun id c hc p hp w hw r hr => ?_ }
    obtain ⟨child, -, hfits⟩ := (h.chips id c hc).parts p hp
    obtain ⟨_, q, -, hq, hj⟩ := hfits w hw
    refine ⟨q, hq, (hj.outerFits r hr).resolve_right fun hwrap => ?_⟩
    exact hnone w (mem_wires.2 ⟨id, c, hc, p, hp, hw⟩) ⟨r, hr, hwrap.1⟩

end Netlist

end ChipLogic
