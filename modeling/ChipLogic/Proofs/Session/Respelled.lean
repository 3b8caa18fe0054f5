import ChipLogic.Proofs.Netlist.Mirror
import ChipLogic.Proofs.Session.Layout

/-!
# Chips in another spelling

A chip that is printed from its wires names its pins as they are declared and not as its text named
them (`Definition.Respells`). It still asks for the same nets (`Definition.Respells.laidOut`), and
can be printed if the pins of the other chips have names (`Definition.Respells.printable`).
-/

namespace ChipLogic

/-- Both sides name the same bits of pins of the same keys. -/
structure Connection.Respells (c c' : Connection) : Prop where
  inner : c'.inner.key = c.inner.key
  innerRange : c'.inner.range = c.inner.range
  outer : c'.outer.key = c.outer.key
  outerRange : c'.outer.range = c.outer.range

structure Part.Respells (p p' : Part) : Prop where
  chip : p'.chip = p.chip
  connections : List.Forall₂ Connection.Respells p.connections p'.connections

/-- The same chip, with pins named in connections as they are spelled in the chip. -/
structure Definition.Respells (d d' : Definition) : Prop where
  name : d'.name = d.name
  gate : d'.gate = d.gate
  pins : d'.pins = d.pins
  parts : List.Forall₂ Part.Respells d.parts.toList d'.parts.toList
  spelled : ∀ p ∈ d'.parts, ∀ c ∈ p.connections, c.outer.name ∈ d.names

theorem map_eq_map_iff_forall₂ {α β γ : Type} {f : α → γ} {g : β → γ} {xs : List α} {ys : List β} :
    xs.map f = ys.map g ↔ List.Forall₂ (fun x y => f x = g y) xs ys := by
  rw [← List.forall₂_map_right_iff, ← List.forall₂_map_left_iff, List.forall₂_eq_eq_eq]

namespace Definition.Respells

variable {d d' : Definition}

theorem terminals (h : d.Respells d') : d'.terminals = d.terminals := by
  rw [Definition.terminals, Definition.terminals, h.pins]

/-- The outer sides name the same bits. -/
theorem outers (h : d.Respells d') :
    List.Forall₂ (fun r r' => Reference.target r' = Reference.target r) d.outers d'.outers := by
  refine List.rel_flatMap h.parts fun p p' hp => ?_
  exact List.rel_map (fun c c' hc => show (c'.outer.key, c'.outer.range) = (c.outer.key, c.outer.range)
    by rw [hc.outer, hc.outerRange]) hp.connections

theorem outerNames (h : d.Respells d') : List.Forall₂ (fun n n' => n' ∈ d.names ∧
    foldCase n' = foldCase n) d.outerNames d'.outerNames := by
  have hkeys : List.Forall₂ (fun n n' => foldCase n' = foldCase n) d.outerNames d'.outerNames :=
    List.rel_map (fun r r' hr => show r'.key = r.key from congrArg Prod.fst hr) h.outers
  refine List.forall₂_iff_zip.2 ⟨hkeys.length_eq, fun {n n'} hm => ?_⟩
  refine ⟨?_, List.forall₂_zip hkeys hm⟩
  obtain ⟨r, hr, rfl⟩ := List.mem_map.1 (List.of_mem_zip hm).2
  obtain ⟨p, hp, c, hc, rfl⟩ := mem_outers.1 hr
  exact h.spelled p hp c hc

/-- **The same nets are asked for, and they are as tight.** -/
theorem laidOut (h : d.Respells d') (hs : Pins.Sound d.pins) (hl : d.LaidOut) : d'.LaidOut where
  names := by
    have hnames : d'.names = d.names := by rw [Definition.names, Definition.names, h.pins]
    have hnodup : (d.names.map foldCase).Nodup := by
      rw [Definition.names, List.map_map]
      exact hs.nodup
    rw [hnames, h.terminals, hl.names]
    rw [hl.names] at hnodup
    refine (foldl_meet_respelled hnodup ?_).symm
    rw [← hl.names]
    exact h.outerNames
  wrapsFirst := by
    have htargets : d'.outers.map Reference.target = d.outers.map Reference.target :=
      map_eq_map_iff_forall₂.2 h.outers.flip
    rw [h.terminals]
    exact hl.wrapsFirst.congr htargets
  tight q hq hk := by
    obtain ⟨m, hm, hr⟩ := hl.tight q (h.pins ▸ hq) hk
    obtain ⟨p, hp, c, hc, hkey, rfl⟩ := mem_mentions.1 hm
    obtain ⟨p', hp', hpp⟩ := forall₂_of_mem_right h.parts (Array.mem_toList_iff.2 hp)
    obtain ⟨c', hc', hcc⟩ := forall₂_of_mem_right hpp.connections hc
    refine ⟨_, mem_mentions.2 ⟨p', Array.mem_toList_iff.1 hp', c', hc', hcc.outer.trans hkey, rfl⟩,
      fun range hrange => hr range ?_⟩
    rw [← hcc.outerRange]
    exact hrange

end Definition.Respells

/-! ## Printing -/

open Hdl (IsName)

namespace Definition

variable {d d' : Definition}

/-- A net has a name that was written for it. -/
theorem LaidOut.isName (hl : d.LaidOut) (h : d.bare.Printable) {n : String} (hn : n ∈ d.names) :
    IsName n := by
  rw [hl.names] at hn
  rcases mem_foldl_meet hn with hn | ⟨-, hfind⟩
  · obtain ⟨p, hp, rfl⟩ := List.mem_map.1 hn
    exact h.terminal hp
  · obtain ⟨r, hr, rfl⟩ := List.mem_map.1 (List.mem_of_find?_eq_some hfind)
    obtain ⟨p, hp, c, hc, rfl⟩ := mem_outers.1 hr
    exact ((h.part hp).2 c hc).2.1

/-- **It can be printed in this spelling, too.** -/
theorem Respells.printable (h : d.Respells d') (hl : d.LaidOut) (hp : d.bare.Printable)
    (hinner : ∀ p ∈ d'.parts, ∀ c ∈ p.connections, IsName c.inner.name) : d'.bare.Printable := by
  have hpins : d'.bare.pins = d.bare.pins := by rw [pins_bare, pins_bare, h.terminals]
  refine ⟨h.gate.trans hp.gate, h.name.symm ▸ hp.name, hpins ▸ hp.pins, ?_, fun p hm => ?_⟩
  · have horder := hp.order
    rwa [Definition.terminals, pinsOf, pinsOf, ← hpins] at horder
  · rw [parts_bare] at hm
    obtain ⟨p', hp', rfl⟩ := Array.mem_map.1 hm
    obtain ⟨p₀, hp₀, hpp⟩ := forall₂_of_mem_right h.parts.flip (Array.mem_toList_iff.2 hp')
    obtain ⟨hchip, hcs⟩ := hp.part (Array.mem_toList_iff.1 hp₀)
    refine ⟨hpp.chip.symm ▸ hchip, fun c hc => ?_⟩
    obtain ⟨c', hc', rfl⟩ := List.mem_map.1 hc
    obtain ⟨c₀, hc₀, hcc⟩ := forall₂_of_mem_right hpp.connections.flip hc'
    obtain ⟨hi, ho⟩ := hcs c₀ hc₀
    exact ⟨⟨hinner p' hp' c' hc', hcc.innerRange.symm ▸ hi.2⟩,
      hl.isName hp (h.spelled p' hp' c' hc'), hcc.outerRange.symm ▸ ho.2⟩

end Definition

end ChipLogic
