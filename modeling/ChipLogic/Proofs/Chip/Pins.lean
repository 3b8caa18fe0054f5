import ChipLogic.Chip.Builder

/-!
# Pin tables

`Pins.Sound` says what holds of the pins of every definition: widths from 1 to `maxWidth`, and no
key twice. The empty table is sound, and a definition takes a pin exactly when the table stays
sound (`Definition.refusal?_eq_none_iff`), so a definition made by adding pins is sound.

In a sound table a key stands for at most one position, and looking up the key of a pin gives that
pin back (`Pins.Sound.findPin?_eq_some_iff`).

`Definition.Sane` adds what gates keep: no parts, and their own pins first. It holds of what texts
and gates declare (`Definition.declared_ofDocument`, `Gate.declared_definition`), and adding pins
keeps it.
-/

namespace ChipLogic

/-! ## Sound tables -/

/-- Pins that a definition can hold. -/
structure Pins.Sound (pins : Array Pin) : Prop where
  width_pos : ∀ p ∈ pins, 0 < p.width
  width_le : ∀ p ∈ pins, p.width ≤ maxWidth
  nodup : (pins.toList.map Pin.key).Nodup

theorem lastIndex?_eq_some_of_unique {α : Type} {p : α → Bool} {xs : List α} {i : Nat} {x : α}
    (hi : xs[i]? = some x) (hx : p x = true)
    (hu : ∀ j y, xs[j]? = some y → p y = true → j = i) : lastIndex? p xs = some i := by
  cases h : lastIndex? p xs with
  | none =>
    rw [lastIndex?_eq_none_iff.1 h x (List.mem_of_getElem? hi)] at hx
    cases hx
  | some j =>
    obtain ⟨y, hy, hpy⟩ := getElem?_of_lastIndex? h
    rw [hu j y hy hpy]

theorem findPin?_eq_none_iff {pins : Array Pin} {key : String} :
    findPin? pins key = none ↔ ∀ p ∈ pins, p.key ≠ key := by
  simp [findPin?, lastIndex?_eq_none_iff]

theorem getElem?_of_findPin? {pins : Array Pin} {key : String} {i : Nat}
    (h : findPin? pins key = some i) : ∃ p, pins[i]? = some p ∧ p.key = key := by
  obtain ⟨p, hp, hk⟩ := getElem?_of_lastIndex? h
  exact ⟨p, by simpa using hp, by simpa using hk⟩

namespace Pins.Sound

theorem empty : Pins.Sound #[] where
  width_pos := by simp
  width_le := by simp
  nodup := List.nodup_nil

theorem push {pins : Array Pin} {p : Pin} (h : Pins.Sound pins) (hnew : ∀ q ∈ pins, q.key ≠ p.key)
    (h0 : 0 < p.width) (h1 : p.width ≤ maxWidth) : Pins.Sound (pins.push p) where
  width_pos q hq := by
    rcases Array.mem_push.1 hq with hq | rfl
    · exact h.width_pos q hq
    · exact h0
  width_le q hq := by
    rcases Array.mem_push.1 hq with hq | rfl
    · exact h.width_le q hq
    · exact h1
  nodup := by
    rw [Array.toList_push, List.map_append, List.nodup_append]
    refine ⟨h.nodup, by simp, ?_⟩
    intro a ha b hb
    obtain ⟨q, hq, rfl⟩ := List.mem_map.1 ha
    rw [List.map_singleton, List.mem_singleton] at hb
    rw [hb]
    exact hnew q (by simpa using hq)

/-- A key stands at one position only. -/
theorem index_unique {pins : Array Pin} (h : Pins.Sound pins) {i j : Nat} {p q : Pin}
    (hi : pins[i]? = some p) (hj : pins[j]? = some q) (hk : p.key = q.key) : i = j := by
  have hi' : (pins.toList.map Pin.key)[i]? = some p.key := by simp [hi]
  have hj' : (pins.toList.map Pin.key)[j]? = some q.key := by simp [hj]
  have hlt : i < (pins.toList.map Pin.key).length := by
    obtain ⟨hlt, -⟩ := List.getElem?_eq_some_iff.1 hi'
    exact hlt
  exact (List.getElem?_inj hlt h.nodup).1 (by rw [hi', hj', hk])

/-- **Looking up a key finds the pin that has it.** -/
theorem findPin?_eq_some_iff {pins : Array Pin} (h : Pins.Sound pins) {key : String} {i : Nat} :
    findPin? pins key = some i ↔ ∃ p, pins[i]? = some p ∧ p.key = key := by
  refine ⟨getElem?_of_findPin?, ?_⟩
  rintro ⟨p, hp, rfl⟩
  refine lastIndex?_eq_some_of_unique (x := p) (by simpa using hp) (by simp) ?_
  intro j q hj hq
  exact h.index_unique (by simpa using hj) hp (by simpa using hq)

end Pins.Sound

namespace Definition

/-- The table of keys and the pins agree. -/
theorem findPin?_eq (d : Definition) (key : String) :
    d.findPin? key = ChipLogic.findPin? d.pins key :=
  d.pinTable.find?_byKey key

/-- The position that a pin carries is the one where it stands. -/
theorem pinNamed?_eq (d : Definition) (key : String) : d.pinNamed? key =
    (ChipLogic.findPin? d.pins key).bind fun i => d.pins[i]?.map fun p => (i, p) := by
  rw [pinNamed?, findPin?_eq]
  congr 1
  funext i
  rw [d.pinTable.getElem?_slots, Option.map_map]
  rfl

theorem pinNamed?_eq_none_iff {d : Definition} {key : String} :
    d.pinNamed? key = none ↔ ∀ p ∈ d.pins, p.key ≠ key := by
  rw [← findPin?_eq_none_iff, pinNamed?_eq]
  cases h : ChipLogic.findPin? d.pins key with
  | none => simp
  | some i =>
    obtain ⟨p, hp, -⟩ := getElem?_of_findPin? h
    simp [hp]

theorem of_pinNamed? {d : Definition} {key : String} {i : Nat} {p : Pin}
    (h : d.pinNamed? key = some (i, p)) : d.pins[i]? = some p ∧ p.key = key := by
  rw [pinNamed?_eq] at h
  obtain ⟨j, hj, hm⟩ := Option.bind_eq_some_iff.1 h
  obtain ⟨q, hq, he⟩ := Option.map_eq_some_iff.1 hm
  obtain ⟨rfl, rfl⟩ := Prod.mk.inj he
  obtain ⟨q', hq', hk⟩ := getElem?_of_findPin? hj
  rw [hq] at hq'
  cases hq'
  exact ⟨hq, hk⟩

theorem pinNamed?_eq_some_iff {d : Definition} (hd : Pins.Sound d.pins) {key : String} {i : Nat}
    {p : Pin} : d.pinNamed? key = some (i, p) ↔ d.pins[i]? = some p ∧ p.key = key := by
  refine ⟨of_pinNamed?, fun ⟨hp, hk⟩ => ?_⟩
  have hi := hd.findPin?_eq_some_iff.2 ⟨p, hp, hk⟩
  simp [pinNamed?_eq, hi, hp]

/-- **A definition takes a pin exactly if its key is new and its width allowed.** -/
theorem refusal?_eq_none_iff {d : Definition} {p : Pin} :
    d.refusal? p = none ↔ (∀ q ∈ d.pins, q.key ≠ p.key) ∧ 0 < p.width ∧ p.width ≤ maxWidth := by
  unfold refusal?
  rw [← pinNamed?_eq_none_iff]
  cases d.pinNamed? p.key with
  | some x => simp
  | none =>
    dsimp only
    split
    · simp; omega
    · split
      · simp; omega
      · simp; omega

theorem addPin_eq_ok_iff {d d' : Definition} {p : Pin} :
    d.addPin p = .ok d' ↔ d.refusal? p = none ∧ d' = d.push p := by
  unfold addPin
  cases d.refusal? p <;> simp [eq_comm]

theorem addPin_eq_error_iff {d : Definition} {p : Pin} {refusal : PinRefusal} :
    d.addPin p = .error refusal ↔ d.refusal? p = some refusal := by
  unfold addPin
  cases d.refusal? p <;> simp

/-! ## Sane definitions -/

/-- What holds of every definition at any time. -/
structure Sane (d : Definition) : Prop where
  pins : Pins.Sound d.pins
  /-- Every part carries the number of its position. -/
  placed : InPlace d.partSlots
  /-- The pins of a gate come first, and it has no parts. -/
  gate : ∀ g, d.gate = some g → g.definition.pins.toList <+: d.pins.toList ∧ d.parts = #[]

theorem Sane.push {d : Definition} {p : Pin} (h : d.Sane) (hr : d.refusal? p = none) :
    (d.push p).Sane := by
  obtain ⟨hnew, h0, h1⟩ := refusal?_eq_none_iff.1 hr
  refine ⟨pins_push d p ▸ h.pins.push hnew h0 h1, h.placed, fun g hg => ?_⟩
  obtain ⟨hp, hparts⟩ := h.gate g hg
  exact ⟨hp.trans (by simp), hparts⟩

/-- A link moves no part. -/
theorem Sane.setLink {d : Definition} (h : d.Sane) (index : Nat) (link : Link) :
    (d.setLink index link).Sane := by
  refine ⟨h.pins, h.placed.modify index _, fun g hg => ?_⟩
  obtain ⟨hpins, hparts⟩ := h.gate g hg
  refine ⟨hpins, ?_⟩
  rw [d.parts_setLink, hparts]
  rfl

/-- As declared: sane, and with no part linked. -/
structure Declared (d : Definition) : Prop where
  sane : d.Sane
  unlinked : ∀ p ∈ d.parts, p.link = none

/-- What each pin that is taken keeps, declaring pins keeps. -/
theorem declare_keeps {P : Definition → Prop} {ps : List Pin} {d : Definition} (h : P d)
    (hpush : ∀ d p, p ∈ ps → d.refusal? p = none → P d → P (d.push p)) : P (d.declare ps).1 := by
  induction ps generalizing d with
  | nil => exact h
  | cons p ps ih =>
    have hrest : ∀ d q, q ∈ ps → d.refusal? q = none → P d → P (d.push q) :=
      fun d q hq => hpush d q (List.mem_cons_of_mem p hq)
    unfold declare
    cases ha : d.addPin p with
    | ok d' =>
      obtain ⟨hr, rfl⟩ := addPin_eq_ok_iff.1 ha
      exact ih (hpush d p List.mem_cons_self hr h) hrest
    | error r => exact ih h hrest

theorem Declared.declare {d : Definition} (h : d.Declared) (ps : List Pin) :
    (d.declare ps).1.Declared :=
  declare_keeps h fun _ _ _ hr h => ⟨h.sane.push hr, h.unlinked⟩

theorem declared_ofNode (c : Hdl.ChipNode) : (ofNode c).1.Declared := by
  have hsane : Sane (.mk c.name c.nameSpan .empty
      (numbered (c.parts.map Hdl.PartNode.part).toArray) none) :=
    ⟨.empty, .numbered _, fun g hg => by cases hg⟩
  refine Declared.declare ⟨hsane, fun p hp => ?_⟩ c.pins
  rw [parts_mk, List.mem_toArray] at hp
  obtain ⟨n, -, rfl⟩ := List.mem_map.1 hp
  rfl

theorem declared_ofDocument (doc : Hdl.Document) :
    ∀ d ∈ (Definition.ofDocument doc).definitions, d.Declared := by
  intro d hd
  obtain ⟨x, hx, rfl⟩ := List.mem_map.1 hd
  obtain ⟨c, -, rfl⟩ := List.mem_map.1 hx
  exact declared_ofNode c

end Definition

theorem Gate.declared_definition (g : Gate) : g.definition.Declared where
  sane :=
    { pins :=
        { width_pos := by cases g <;> decide
          width_le := by cases g <;> decide
          nodup := by cases g <;> decide }
      placed := .empty
      gate := by
        intro g' hg
        cases hg
        exact ⟨List.prefix_refl _, rfl⟩ }
  unlinked p hp := by
    rw [g.parts_definition] at hp
    cases Array.mem_toList_iff.2 hp

end ChipLogic
