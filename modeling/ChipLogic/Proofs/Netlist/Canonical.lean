import ChipLogic.Netlist.Printer
import ChipLogic.Proofs.Netlist.Dependency
import ChipLogic.Proofs.Session.Layout

/-!
# Canonical netlists

A chip of a netlist is printed from its wires, so what is printed is a definition of its own
(`Netlist.declared`): the pins are as they are, and the connections are spelled as the pins that
they join. The text of a chip of a well-formed netlist is the text of this definition
(`Netlist.Sound.render?_eq`).

A netlist is **canonical** (`Netlist.Canonical`) if nothing in it is lost when all its chips are
printed:

* a name stands for one chip, and each part has the name of its chip;
* a gate is the built-in one;
* the definitions can be printed, and are laid out as linking lays them out;
* the chips are in the order in which they are met from the top (`Netlist.visit`).
-/

namespace ChipLogic

/-! ## What is printed -/

/-- A wire as the connection of the pins that it joins. -/
def Wire.connection (w : Wire) (inner outer : Chip) : Connection where
  inner := ⟨(inner.pinAt w.inner).name, w.innerRange, .nowhere⟩
  outer := ⟨(outer.pinAt w.outer).name, w.outerRange, .nowhere⟩
  span := .nowhere

namespace Netlist

variable {n : Netlist} {c : Chip} {id : Nat}

/-- A part of the chip `c` as it is printed. -/
def declaredPart (n : Netlist) (c : Chip) (i : Instance) : Part :=
  { chip := i.name
    connections := i.wires.map fun w => w.connection (n.chipAt i.chip) c
    span := .nowhere }

/-- A chip as it is printed. -/
def declared (n : Netlist) (c : Chip) : Definition where
  name := c.name
  span := .nowhere
  pinTable := .ofPins c.pins
  partSlots := numbered (c.parts.map (n.declaredPart c))
  gate := c.kind.gate?

@[simp]
theorem pins_declared (n : Netlist) (c : Chip) : (n.declared c).pins = c.pins :=
  Definition.pins_mk ..

@[simp]
theorem parts_declared (n : Netlist) (c : Chip) :
    (n.declared c).parts = c.parts.map (n.declaredPart c) :=
  Definition.parts_mk ..

theorem mapM_eq_some {α β : Type} {f : α → Option β} {g : α → β} {xs : List α}
    (h : ∀ x ∈ xs, f x = some (g x)) : xs.mapM f = some (xs.map g) := by
  induction xs with
  | nil => rfl
  | cons x xs ih =>
    obtain ⟨hx, hxs⟩ := List.forall_mem_cons.1 h
    rw [List.mapM_cons, hx, ih hxs]
    rfl

theorem Sound.partLine?_eq (wf : n.Sound) (hc : n.chip? id = some c) {i : Instance}
    (hi : i ∈ c.parts) : n.partLine? c i = some (partLine i.name
      ((n.declaredPart c i).connections.map fun c => connectionText c.inner c.outer)) := by
  obtain ⟨d, hd, -⟩ := (wf.chips id c hc).parts i hi
  have hwires : i.wires.mapM (fun w => w.render? d c) =
      some (i.wires.map fun w => connectionText (w.connection d c).inner (w.connection d c).outer) := by
    refine mapM_eq_some fun w hw => ?_
    have hends := Chip.Sound.ends wf hc hi hd hw
    simp only [Wire.render?, hends.innerPin, hends.outerPin]
    rfl
  simp only [partLine?, hd, bind, Option.bind_some, hwires, declaredPart, List.map_map,
    Netlist.chipAt_eq hd]
  rfl

/-- **The text of a chip is the text of its definition.** -/
theorem Sound.render?_eq (wf : n.Sound) (hc : n.chip? id = some c) :
    n.render? id = some (n.declared c).render := by
  have hlines : c.parts.toList.mapM (n.partLine? c) = some (c.parts.toList.map fun i => partLine i.name
      ((n.declaredPart c i).connections.map fun c => connectionText c.inner c.outer)) :=
    mapM_eq_some fun i hi => wf.partLine?_eq hc (by simpa using hi)
  unfold render?
  rw [hc]
  simp only [bind, Option.bind_some, hlines, pure, Definition.render, pins_declared,
    parts_declared, Array.toList_map, List.map_map, Function.comp_def]
  rfl

/-! ## The order of chips -/

/-- Adds the chips of parts to those met so far. -/
def meetParts (met : List Nat) : List Instance → List Nat
  | [] => met
  | i :: is => meetParts (if met.contains i.chip then met else met ++ [i.chip]) is

/-- The chips met from those in `met`; the ones before position `next` have been gone through. -/
def visit (n : Netlist) : Nat → List Nat → Nat → List Nat
  | 0, met, _ => met
  | fuel + 1, met, next =>
    match met[next]? with
    | none => met
    | some id => n.visit fuel (meetParts met (n.chipAt id).parts.toList) (next + 1)

theorem prefix_meetParts (met : List Nat) (parts : List Instance) : met <+: meetParts met parts := by
  induction parts generalizing met with
  | nil => exact List.prefix_refl _
  | cons i parts ih =>
    refine List.IsPrefix.trans ?_ (ih _)
    split
    · exact List.prefix_refl _
    · exact List.prefix_append _ _

theorem prefix_visit (n : Netlist) (fuel : Nat) (met : List Nat) (next : Nat) :
    met <+: n.visit fuel met next := by
  induction fuel generalizing met next with
  | zero => exact List.prefix_refl _
  | succ fuel ih =>
    unfold visit
    split
    · exact List.prefix_refl _
    · exact (prefix_meetParts met _).trans (ih _ _)

/-- With more fuel no less is met. -/
theorem prefix_visit_add (n : Netlist) (fuel more : Nat) (met : List Nat) (next : Nat) :
    n.visit fuel met next <+: n.visit (fuel + more) met next := by
  induction fuel generalizing met next with
  | zero => exact n.prefix_visit _ _ _
  | succ fuel ih =>
    rw [Nat.add_right_comm]
    unfold visit
    split
    · exact List.prefix_refl _
    · exact ih _ _

/-- Once all has been gone through, more fuel changes nothing. -/
theorem visit_add {fuel : Nat} {met : List Nat} {next : Nat}
    (h : (n.visit fuel met next).length ≤ fuel + next) (more : Nat) :
    n.visit (fuel + more) met next = n.visit fuel met next := by
  induction fuel generalizing met next with
  | zero =>
    have hnone : met[next]? = none := List.getElem?_eq_none (by simpa [visit] using h)
    cases more with
    | zero => rfl
    | succ more => simp [visit, hnone]
  | succ fuel ih =>
    rw [Nat.add_right_comm, visit, visit]
    cases hid : met[next]? with
    | none => rfl
    | some id =>
      rw [visit, hid] at h
      dsimp only at h
      exact ih (by omega)

/-- The chips are in the order in which they are met from the top. -/
def Ordered (n : Netlist) : Prop :=
  n.visit n.size [0] 0 = List.range n.size

theorem Ordered.visit_eq (h : n.Ordered) {fuel : Nat} (hf : n.size ≤ fuel) :
    n.visit fuel [0] 0 = List.range n.size := by
  obtain ⟨more, rfl⟩ := Nat.exists_eq_add_of_le hf
  rw [visit_add (by rw [h]; simp), h]

/-- The order shows with any fuel. -/
theorem ordered_of_visit {fuel : Nat} (h : n.visit fuel [0] 0 = List.range n.size)
    (hf : n.size ≤ fuel) : n.Ordered := by
  obtain ⟨more, rfl⟩ := Nat.exists_eq_add_of_le hf
  have hle := (n.prefix_visit_add n.size more [0] 0).length_le
  rw [h, List.length_range] at hle
  rw [Ordered, ← visit_add hle more, h]

/-! ## Canonical netlists -/

/-- Nothing is lost when all chips are printed. -/
structure Canonical (n : Netlist) : Prop where
  sound : n.Sound
  /-- A name stands for one chip. -/
  keys : ∀ i j c d, n.chip? i = some c → n.chip? j = some d →
    foldCase c.name = foldCase d.name → i = j
  /-- A part has the name of its chip. -/
  named : ∀ id c, n.chip? id = some c → ∀ p ∈ c.parts, ∀ d, n.chip? p.chip = some d →
    foldCase p.name = foldCase d.name
  /-- A gate is known by its exact name only. -/
  exact : ∀ id c, n.chip? id = some c → ∀ p ∈ c.parts, ∀ d g, n.chip? p.chip = some d →
    d.kind = .gate g → p.name = g.name
  gate : ∀ id c g, n.chip? id = some c → c.kind = .gate g →
    (n.declared c).bare = g.definition.bare
  printable : ∀ id c, n.chip? id = some c → c.kind = .composite → (n.declared c).bare.Printable
  laidOut : ∀ id c, n.chip? id = some c → (n.declared c).LaidOut
  ordered : n.Ordered

end Netlist

/-! ## Places -/

def Instance.bare (i : Instance) : Instance := { i with span := .nowhere }

/-- A chip without the places. -/
def Chip.bare (c : Chip) : Chip where
  name := c.name
  kind := c.kind
  pinSlots := c.pinSlots.map (Numbered.map Pin.bare)
  partSlots := c.partSlots.map (Numbered.map Instance.bare)

/-- What a bare chip is made of, where pins and parts are in their places. -/
theorem Chip.Sound.bare_congr {n n' : Netlist} {c c' : Chip} (h : c.Sound n) (h' : c'.Sound n')
    (hname : c'.name = c.name) (hkind : c'.kind = c.kind)
    (hpins : c'.pins.map Pin.bare = c.pins.map Pin.bare)
    (hparts : c'.parts.map Instance.bare = c.parts.map Instance.bare) : c'.bare = c.bare := by
  have hpinSlots := (h'.pinsPlaced.map Pin.bare).ext (h.pinsPlaced.map Pin.bare)
    (by rwa [Numbered.items_map, Numbered.items_map])
  have hpartSlots := (h'.partsPlaced.map Instance.bare).ext (h.partsPlaced.map Instance.bare)
    (by rwa [Numbered.items_map, Numbered.items_map])
  rw [Chip.bare, Chip.bare, hname, hkind, hpinSlots, hpartSlots]

/-- A netlist without the places. -/
def Netlist.bare (n : Netlist) : Netlist := ⟨n.chips.map Chip.bare, n.top⟩

end ChipLogic
