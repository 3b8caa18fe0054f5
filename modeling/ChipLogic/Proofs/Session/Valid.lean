import ChipLogic.Proofs.Session.Connect
import Mathlib.Data.List.MinMax
import Mathlib.Logic.Relation
import Mathlib.Order.Nat

/-!
# Valid chips

Whether a chip can be linked, said without a walk, an order or a memory. All notions here are about
the definitions of a session as they were written, before anything is linked.

**Names.** A name means the registered chip of that name, in any spelling, and else the built-in
gate of exactly that name (`Session.meant?`).

**Sides.** The inner side of a connection must name a terminal (`Definition.Offers`). The outer side
must name a declared pin or a net of at most `maxWidth` bits (`Session.Takes`). A net is as wide as
the widest of all references to it in the chip (`Session.netBits`), whatever their order. How wide a
net has to be for a range is a parameter of these notions (`count`): it is `BitRange.reach`, the
last position and one more, or what comes out of that in 32 bits, which is `BitRange.extent`.

**Chips** (`Session.Valid`). A gate is valid. Any other chip is valid if all its parts are: the chip
that a part means is valid, and each connection of the part fits. The definition is inductive, so a
chip that uses itself, at any depth, is not valid (`Session.Valid.not_uses_self`).
-/

namespace ChipLogic

/-- The width of a pin that just has the last bit, whatever the size of numbers. -/
def BitRange.reach (r : BitRange) : Nat := r.last + 1

theorem BitRange.extent_eq_reach {r : BitRange} (ho : r.isOrdered) (h : ¬ r.WrapsAround) :
    r.extent = r.reach :=
  r.extent_eq ho h

namespace Definition

variable {d d' : Definition} {key : String}

/-! ## References -/

/-- All references to a net in the parts of a chip. -/
def mentions (d : Definition) (key : String) : List Session.Mention :=
  d.parts.toList.flatMap fun p =>
    (p.connections.filter (·.outer.key == key)).map fun c =>
      ⟨p.chip, p.span, c.inner, c.outer.range⟩

theorem mem_mentions {m : Session.Mention} :
    m ∈ d.mentions key ↔ ∃ p ∈ d.parts, ∃ c ∈ p.connections, c.outer.key = key ∧
      m = ⟨p.chip, p.span, c.inner, c.outer.range⟩ := by
  simp only [mentions, List.mem_flatMap, List.mem_map, List.mem_filter, beq_iff_eq,
    Array.mem_toList_iff]
  constructor
  · rintro ⟨p, hp, c, ⟨hc, hk⟩, rfl⟩
    exact ⟨p, hp, c, hc, hk, rfl⟩
  · rintro ⟨p, hp, c, hc, hk, rfl⟩
    exact ⟨p, hp, c, ⟨hc, hk⟩, rfl⟩

theorem mentions_written (d : Definition) (key : String) :
    d.mentions key = (d.parts.map Part.written).toList.flatMap fun p =>
      (p.connections.filter (·.outer.key == key)).map fun c =>
        ⟨p.chip, p.span, c.inner, c.outer.range⟩ := by
  rw [Array.toList_map, List.flatMap_map]
  rfl

theorem Grows.mentions (h : d.Grows d') (key : String) : d'.mentions key = d.mentions key := by
  rw [d'.mentions_written, d.mentions_written, h.parts]

/-- The pin `p` is a terminal that a reference names, and the range lies inside it. -/
structure Offers (d : Definition) (r : Reference) (p : Pin) : Prop where
  named : ∃ i, d.pinNamed? r.key = some (i, p)
  terminal : p.kind ≠ .internal
  range : ∀ range, r.range = some range → range.fits p.width

namespace Offers

variable {r : Reference} {p p' : Pin}

theorem unique (h : d.Offers r p) (h' : d.Offers r p') : p = p' := by
  obtain ⟨i, hi⟩ := h.named
  obtain ⟨i', hi'⟩ := h'.named
  rw [hi, Option.some.injEq] at hi'
  exact congrArg Prod.snd hi'

/-- A terminal means at least one bit. -/
theorem widthOn_pos (hd : d.Sane) (h : d.Offers r p) : 0 < r.widthOn p.width := by
  obtain ⟨i, hi⟩ := h.named
  have hpin := Array.mem_of_getElem? (Definition.of_pinNamed? hi).1
  unfold Reference.widthOn
  cases hr : r.range with
  | none => exact hd.pins.width_pos p hpin
  | some range =>
    obtain ⟨ho, hlast⟩ := BitRange.fits_iff.1 (h.range range hr)
    have hle : p.width ≤ 64 := hd.pins.width_le p hpin
    show 0 < range.width
    rw [BitRange.width_eq ho (by rw [max32]; omega)]
    omega

end Offers

end Definition

namespace Session

variable {s : Session} {count : BitRange → Nat} {d child : Definition}

theorem mentions_eq {id : Nat} (hd : s.definition? id = some d) (key : String) :
    s.mentions id key = d.mentions key := by
  rw [mentions, hd]
  rfl

/-! ## Names -/

/-- What a name means as long as nothing is loaded for it. -/
def meant? (s : Session) (name : String) : Option Definition :=
  match s.lookup? name with
  | some id => s.definition? id
  | none => (Gate.ofName? name).map Gate.definition

theorem meant?_isSome_iff {name : String} :
    (s.meant? name).isSome ↔ (s.lookup? name).isSome ∨ (Gate.ofName? name).isSome := by
  unfold meant?
  cases h : s.lookup? name with
  | none => simp
  | some id =>
    obtain ⟨d, hd, -⟩ := definition?_of_find? h
    simp [hd]

/-! ## Nets -/

/-- The width that a reference asks of its net: up to the last bit of a range, or the effective
width of the inner side for the whole net. -/
def bitsAsked (s : Session) (count : BitRange → Nat) (m : Mention) : Nat :=
  match m.range with
  | some range => if range.isOrdered then count range else 0
  | none =>
    match (s.meant? m.chip).bind (·.pinNamed? m.inner.key) with
    | some (_, p) => m.inner.widthOn p.width
    | none => 0

/-- The width of an undeclared net of a chip. -/
def netBits (s : Session) (count : BitRange → Nat) (d : Definition) (key : String) : Nat :=
  ((d.mentions key).map (s.bitsAsked count)).foldr max 0

theorem bitsAsked_le_netBits {key : String} {m : Mention} (hm : m ∈ d.mentions key) :
    s.bitsAsked count m ≤ s.netBits count d key :=
  List.le_max_of_le' 0 (List.mem_map_of_mem hm) (Nat.le_refl _)

theorem netBits_le {key : String} {bits : Nat}
    (h : ∀ m ∈ d.mentions key, s.bitsAsked count m ≤ bits) : s.netBits count d key ≤ bits := by
  refine List.max_le_of_forall_le _ _ fun asked hasked => ?_
  obtain ⟨m, hm, rfl⟩ := List.mem_map.1 hasked
  exact h m hm

/-! ## Connections -/

/-- A terminal that holds the range is found on the inner side. -/
theorem innerPin_of_offers {id : Nat} (hd : s.definition? id = some d) {r : Reference} {p : Pin}
    (h : d.Offers r p) : ∃ i, s.innerPin id r = .ok (i, p) := by
  obtain ⟨i, hi⟩ := h.named
  refine ⟨i, ?_⟩
  have hterm : p.isTerminal = true := by simpa [Pin.isTerminal] using h.terminal
  rw [innerPin, hd, Option.getD_some]
  simp only [hi, hterm, Bool.not_true, Bool.false_eq_true, if_false]
  cases hrange : r.range with
  | none => rfl
  | some range => simp [h.range range hrange]

/-- The pin `q` is what a reference on the outer side stands for: a declared pin that holds the
range, or a net. -/
inductive Takes (s : Session) (count : BitRange → Nat) (d : Definition) (r : Reference) (q : Pin) :
    Prop
  | declared {i : Nat} (named : d.pinNamed? r.key = some (i, q))
      (range : ∀ range, r.range = some range → range.fits q.width)
  | net (undeclared : d.pinNamed? r.key = none) (kind : q.kind = .internal)
      (width : q.width = s.netBits count d r.key) (width_pos : 0 < q.width)
      (width_le : q.width ≤ maxWidth) (range : ∀ range, r.range = some range → range.isOrdered)

theorem Takes.unique {r : Reference} {q q' : Pin} (h : s.Takes count d r q)
    (h' : s.Takes count d r q') : q.width = q'.width ∧ q.kind = q'.kind := by
  cases h with
  | declared named _ =>
    cases h' with
    | declared named' _ =>
      rw [named] at named'
      cases named'
      exact ⟨rfl, rfl⟩
    | net undeclared =>
      rw [named] at undeclared
      cases undeclared
  | net undeclared kind width =>
    cases h' with
    | declared named' _ =>
      rw [undeclared] at named'
      cases named'
    | net _ kind' width' => exact ⟨width.trans width'.symm, kind.trans kind'.symm⟩

/-- A connection in `d` of a part of chip `child`: both sides exist and have the same number of
bits, and no output drives an input of `d`. -/
def Connectable (s : Session) (count : BitRange → Nat) (d child : Definition) (c : Connection) :
    Prop :=
  ∃ p q, child.Offers c.inner p ∧ s.Takes count d c.outer q ∧
    c.inner.widthOn p.width = c.outer.widthOn q.width ∧ ¬ (p.kind = .output ∧ q.kind = .input)

/-- The chip of a part is known, and every connection of the part fits. -/
def PartFits (s : Session) (count : BitRange → Nat) (d : Definition) (p : Part) : Prop :=
  ∃ child, s.meant? p.chip = some child ∧ ∀ c ∈ p.connections, s.Connectable count d child c

/-! ## Chips -/

/-- A chip whose parts can be linked. -/
inductive Valid (s : Session) : Definition → Prop
  | gate {d : Definition} (gate : d.gate.isSome) : Valid s d
  | composite {d : Definition} (parts : ∀ p ∈ d.parts, s.PartFits BitRange.reach d p)
      (children : ∀ p ∈ d.parts, ∀ child, s.meant? p.chip = some child → Valid s child) : Valid s d

/-- A chip uses the chips of its parts. -/
def Uses (s : Session) (d child : Definition) : Prop :=
  d.gate = none ∧ ∃ p ∈ d.parts, s.meant? p.chip = some child

theorem acc_uses_gate (hg : d.gate.isSome) : Acc (fun child d => s.Uses d child) d :=
  .intro d fun child huse => by rw [huse.1] at hg; cases hg

theorem acc_uses_composite (h : ∀ p ∈ d.parts, ∀ child, s.meant? p.chip = some child →
    Acc (fun child d => s.Uses d child) child) : Acc (fun child d => s.Uses d child) d :=
  .intro d fun child huse => by
    obtain ⟨-, p, hp, hm⟩ := huse
    exact h p hp child hm

/-- All ways from chip to chip inside a valid chip come to an end. -/
theorem Valid.acc (h : s.Valid d) : Acc (fun child d => s.Uses d child) d := by
  induction h with
  | gate hg => exact acc_uses_gate hg
  | composite _ _ ih => exact acc_uses_composite ih

theorem not_uses_self_of_acc (h : Acc (fun child d => s.Uses d child) d) :
    ¬ Relation.TransGen s.Uses d d := by
  induction h with
  | intro d _ ih =>
    intro hcycle
    -- the way back to the chip goes through a chip of one of its parts
    obtain ⟨child, huse, hback⟩ := Relation.TransGen.head'_iff.1 hcycle
    exact ih child huse (.tail' hback huse)

/-- **A chip inside itself is not valid.** -/
theorem Valid.not_uses_self (h : s.Valid d) : ¬ Relation.TransGen s.Uses d d :=
  not_uses_self_of_acc h.acc

end Session

end ChipLogic
