import ChipLogic.Proofs.Session.Reread

/-!
# Chips that were read back are restored

In a session that is stocked with a canonical netlist, let a chip link whose text declares a chip of
the netlist (`Session.Restored`). Then all is there again.

**Pins** (`Session.Restored.pins`). Both chips are laid out, so they have the same names in the same
order. A pin of one name is declared on both sides or on neither, and a net has the width that it
had.

**Parts** (`Session.Restored.parts`). A part leads to a chip that is itself restored. Hence the
names of a connection stand at the same positions on both sides, and its wire is the wire from which
the connection was printed (`Session.Restored.wire_eq`).
-/

namespace ChipLogic

namespace Session

variable {n : Netlist} {s₀ s : Session} {i x : Nat} {c : Chip} {d₀ d : Definition}

/-- Linking adds no terminals. -/
theorem Drafted.terminals {d' : Definition} (h : s.Drafted d d') (hs : d'.Sane) :
    d'.terminals = d.terminals := by
  obtain ⟨nets, hnets⟩ := h.pins
  have hnew : ∀ q ∈ nets, ¬ q.isTerminal = true := by
    intro q hq
    have hmem : q ∈ d'.pins := by
      rw [← Array.mem_toList_iff, ← hnets]
      exact List.mem_append_right _ hq
    rcases h.nets q hmem with hold | ⟨hk, -⟩
    · -- no key is there twice
      have hnodup := hs.pins.nodup
      rw [← hnets, List.map_append, List.nodup_append] at hnodup
      have hold := List.mem_map_of_mem (f := Pin.key) (Array.mem_toList_iff.2 hold)
      exact absurd rfl (hnodup.2.2 _ hold _ (List.mem_map_of_mem hq))
    · simp [Pin.isTerminal, hk]
  rw [Definition.terminals, ← hnets, List.filter_append, List.filter_eq_nil_iff.2 hnew,
    List.append_nil, Definition.terminals]

/-! ## Restored chips -/

/-- A session in which chips of a stocked session were linked. -/
structure Relinked (n : Netlist) (s₀ s : Session) : Prop where
  canonical : n.Canonical
  stocked : s₀.Stocked n
  linking : Linking s₀ [] s
  drawn : s.Drawn
  titled : s.Titled

/-- The chip at `x` is finished, and its text, `d₀`, declares the chip at `i` of the netlist. -/
structure Restored (n : Netlist) (s₀ s : Session) (i : Nat) (c : Chip) (x : Nat)
    (d₀ d : Definition) : Prop where
  chip : n.chip? i = some c
  finished : s.Finished x
  definition : s.definition? x = some d
  meant : s₀.meant? d.name = some d₀
  declares : n.Declares c d₀

/-- The chip at `i` of the netlist is restored at `x`. -/
def RestoredAt (n : Netlist) (s₀ s : Session) (i x : Nat) : Prop :=
  ∃ c d₀ d, Restored n s₀ s i c x d₀ d

/-- The chips are linkable, so the inner sides of their connections exist. -/
theorem Stocked.offered (h : s₀.Stocked n) (hn : n.Canonical) (hc : n.chip? i = some c)
    (hd : n.Declares c d₀) (hs : d₀.Sane) : s₀.Offered d₀ := by
  intro p hp
  cases hg : d₀.gate with
  | some g =>
    rw [(hs.gate g hg).2] at hp
    simp at hp
  | none => exact (((linkable_iff hg).1 (h.linkable hn hc hd hs)).1 p hp).offered

namespace Restored

theorem stems (h : Restored n s₀ s i c x d₀ d) : Stems s₀ s x d₀ := ⟨d, h.definition, h.meant⟩

theorem sane (h : Restored n s₀ s i c x d₀ d) (hr : Relinked n s₀ s) : d.Sane :=
  hr.drawn.sound.sane_definition h.definition

theorem drafted (h : Restored n s₀ s i c x d₀ d) (hr : Relinked n s₀ s) : s₀.Drafted d₀ d := by
  obtain ⟨d', hd', -, hdraft⟩ := hr.linking.definition? hr.stocked.fresh h.stems
  rw [h.definition, Option.some.injEq] at hd'
  exact hd' ▸ hdraft

theorem name (h : Restored n s₀ s i c x d₀ d) (hr : Relinked n s₀ s) : d.name = c.name :=
  (h.drafted hr).name.trans h.declares.name

theorem gate (h : Restored n s₀ s i c x d₀ d) (hr : Relinked n s₀ s) : d.gate = c.kind.gate? :=
  (h.drafted hr).gate.trans h.declares.gate

/-! ## Pins -/

theorem names (h : Restored n s₀ s i c x d₀ d) (hr : Relinked n s₀ s) :
    d.names = c.pins.toList.map Pin.name := by
  have hlaid := (hr.drawn.laid_of_finished h.finished).layout d h.definition
  have houter : d.outerNames = (n.declared c).outerNames :=
    (h.drafted hr).toGrows.outerNames.trans (Definition.outerNames_of_bare h.declares.bare)
  have hterminals : d.terminals.map Pin.name = (n.declared c).terminals.map Pin.name := by
    rw [(h.drafted hr).terminals (h.sane hr)]
    exact Definition.map_name_terminals_of_bare h.declares.bare
  rw [hlaid.names, houter, hterminals, ← (hr.canonical.laidOut i c h.chip).names,
    Definition.names, Netlist.pins_declared]

/-- Pins of one name are the same. -/
theorem bare_pin_eq (h : Restored n s₀ s i c x d₀ d) (hr : Relinked n s₀ s) {p q : Pin}
    (hp : p ∈ d.pins) (hq : q ∈ c.pins) (hname : p.name = q.name) : p.bare = q.bare := by
  have hsound := (hr.canonical.sound.chips i c h.chip).pins
  have hs := hr.stocked.sane h.meant
  rcases (h.drafted hr).nets p hp with hold | ⟨hk, hwidth⟩
  · obtain ⟨q', hq', -, hbare⟩ := h.declares.exists_terminal hold
    have hkey : q'.key = q.key :=
      congrArg foldCase ((Pin.bare_eq_bare_iff.1 hbare).1.symm.trans hname)
    rw [hbare, hsound.eq_of_key hq' hq hkey]
  · have hnet : q.kind = .internal := by
      by_contra hterminal
      -- a terminal of this name would be declared, too
      obtain ⟨p', hp', hbare⟩ := h.declares.exists_pin hq hterminal
      obtain ⟨hname', -, hkind⟩ := Pin.bare_eq_bare_iff.1 hbare
      have hmem : p' ∈ d.pins :=
        Array.mem_toList_iff.1 ((h.drafted hr).pins.subset (Array.mem_toList_iff.2 hp'))
      have hsame : p' = p :=
        (h.sane hr).pins.eq_of_key hmem hp (congrArg foldCase (hname'.trans hname.symm))
      exact hterminal (hkind.symm.trans (hsame ▸ hk))
    have hbits : p.width = q.width := by
      have hkey : p.key = q.key := congrArg foldCase hname
      rw [hwidth (hr.stocked.offered hr.canonical h.chip h.declares hs), hkey]
      exact hr.stocked.netBits_eq hr.canonical h.chip h.declares hs hq hnet
    exact Pin.bare_eq_bare_iff.2 ⟨hname, hbits, hk.trans hnet.symm⟩

/-- **The pins are the same**, and the nets are at their positions. -/
theorem pins (h : Restored n s₀ s i c x d₀ d) (hr : Relinked n s₀ s) :
    d.pins.map Pin.bare = c.pins.map Pin.bare := by
  have hnames : List.Forall₂ (fun p q => Pin.name p = Pin.name q) d.pins.toList c.pins.toList :=
    map_eq_map_iff_forall₂.1 (h.names hr)
  apply Array.toList_inj.1
  rw [Array.toList_map, Array.toList_map]
  refine map_eq_map_iff_forall₂.2 (List.forall₂_iff_zip.2 ⟨hnames.length_eq, fun {p q} hm => ?_⟩)
  obtain ⟨hp, hq⟩ := List.of_mem_zip hm
  exact h.bare_pin_eq hr (Array.mem_toList_iff.1 hp) (Array.mem_toList_iff.1 hq)
    (List.forall₂_zip hnames hm)

/-- A key stands at the same position. -/
theorem position (h : Restored n s₀ s i c x d₀ d) (hr : Relinked n s₀ s) {key : String} {j k : Nat}
    {p q : Pin} (hp : d.pinNamed? key = some (j, p)) (hq : c.pins[k]? = some q) (hk : key = q.key) :
    j = k ∧ p.bare = q.bare := by
  obtain ⟨hj, hkey⟩ := Definition.of_pinNamed? hp
  have hat : (c.pins.map Pin.bare)[j]? = some p.bare := by
    rw [← h.pins hr, Array.getElem?_map, hj, Option.map_some]
  rw [Array.getElem?_map] at hat
  obtain ⟨q', hq', hbare⟩ := Option.map_eq_some_iff.1 hat
  have hkey' : q'.key = q.key :=
    (congrArg foldCase (Pin.bare_eq_bare_iff.1 hbare).1).trans (hkey.trans hk)
  obtain rfl := (hr.canonical.sound.chips i c h.chip).pins.index_unique hq' hq hkey'
  rw [hq, Option.some.injEq] at hq'
  exact ⟨rfl, hq' ▸ hbare.symm⟩

/-! ## Parts -/

/-- **A wire is made again from its connection.** -/
theorem wire_eq {j y : Nat} {inner : Chip} {inside₀ inside : Definition}
    (h : Restored n s₀ s i c x d₀ d) (hin : Restored n s₀ s j inner y inside₀ inside)
    (hr : Relinked n s₀ s) {conn : Connection} {w v : Wire} (hwired : s.Wired x y conn w)
    (hfits : w.Fits inside.pins d.pins) (hv : Redraws n inner c inside₀ d₀ conn v) : w = v := by
  obtain ⟨inside', d', p, q, hinside, hd, hp, hq, hinner, houter⟩ := hwired
  rw [hin.definition, Option.some.injEq] at hinside
  rw [h.definition, Option.some.injEq] at hd
  subst hinside hd
  obtain ⟨hi, hpin⟩ := hin.position hr hp hv.ends.innerPin hv.innerKey
  obtain ⟨ho, -⟩ := h.position hr hq hv.ends.outerPin hv.outerKey
  have hdirection : w.direction = .drive ↔ v.direction = .drive := by
    obtain ⟨p', q', hp', -, hjoins⟩ := hfits
    rw [(Definition.of_pinNamed? hp).1, Option.some.injEq] at hp'
    rw [hjoins.drive_iff, hv.ends.joins.drive_iff, ← hp', (Pin.bare_eq_bare_iff.1 hpin).2.2]
  have hsame : w.direction = v.direction := by
    cases hw : w.direction <;> cases hv : v.direction <;> simp_all
  have hir : w.innerRange = v.innerRange := hinner.trans hv.innerRange
  have hor : w.outerRange = v.outerRange := houter.trans hv.outerRange
  cases w
  cases v
  simp only at hsame hi ho hir hor
  rw [hsame, hi, hir, ho, hor]

end Restored

/-- A part with its name, its wires, and a chip that is restored. -/
def PartRestored (n : Netlist) (s₀ s : Session) (p : Part) (inst : Instance) : Prop :=
  ∃ link, p.link = some link ∧ p.chip = inst.name ∧ link.wires = inst.wires ∧
    RestoredAt n s₀ s inst.chip link.chip

/-- A part leads to the chip that its name meant. -/
theorem Relinked.meant_of_part (hr : Relinked n s₀ s) {k : Nat} {p : Part}
    (hp : s.part? x k = some p) {link : Link} (hl : p.link = some link) {inside₀ : Definition}
    (hm : s₀.meant? p.chip = some inside₀) {inside : Definition}
    (hinside : s.definition? link.chip = some inside) : s₀.meant? inside.name = some inside₀ := by
  have htarget : s.target? x k = some link.chip := by
    rw [target?, hp, Option.bind_some, Part.resolved, hl, Option.map_some]
  obtain ⟨p', hp', d, hd, hkey⟩ := hr.titled x k link.chip htarget
  rw [hp, Option.some.injEq] at hp'
  rw [hinside, Option.some.injEq] at hd
  subst hp' hd
  obtain ⟨e, he, rfl⟩ := definition?_eq_some_iff.1 hinside
  obtain ⟨d₁, ht⟩ := hr.linking.tracks e (Array.mem_of_getElem? he)
  rw [ht.meant, meant?_unique hkey ht.meant hm]

namespace Restored

theorem part (h : Restored n s₀ s i c x d₀ d) (hr : Relinked n s₀ s) {k : Nat} {inst : Instance}
    (hi : c.parts[k]? = some inst) :
    ∃ p, d.parts[k]? = some p ∧ PartRestored n s₀ s p inst := by
  have hs := hr.stocked.sane h.meant
  obtain ⟨p₀, hp₀, hmake⟩ := getElem?_of_forall₂
    (hr.stocked.remakes hr.canonical h.chip h.declares hs) (by rw [Array.getElem?_toList]; exact hi)
  rw [Array.getElem?_toList] at hp₀
  obtain ⟨p, -, hpart, hchip, hconnections, -⟩ :=
    hr.linking.part_meant hr.stocked.fresh h.stems hp₀
  obtain ⟨p', link, hpart', hlink, hwired⟩ :=
    (hr.drawn.laid_of_finished h.finished).parts k p hpart
  rw [hpart, Option.some.injEq] at hpart'
  subst hpart'
  obtain ⟨d', hd', hp⟩ := definition?_of_part? hpart
  rw [h.definition, Option.some.injEq] at hd'
  subst hd'
  -- its chip is restored
  obtain ⟨inner, inside₀, hinner, hmeant, hdeclares, hredraws⟩ := hmake.child
  obtain ⟨hfinished, inside, hinside, hfits⟩ :=
    h.finished.part h.definition (Array.mem_of_getElem? hp) hlink
  have hchild : Restored n s₀ s inst.chip inner link.chip inside₀ inside :=
    ⟨hinner, hfinished, hinside, hr.meant_of_part hpart hlink (hchip ▸ hmeant) hinside, hdeclares⟩
  -- and its wires are made again
  rw [hconnections] at hwired
  have hwires : link.wires = inst.wires := by
    rw [← List.forall₂_eq_eq_eq]
    have hwires := (List.forall₂_and_left _ _).2 ⟨hfits, hwired.flip⟩
    refine (forall₂_comp hwires hredraws).imp fun w v hcommon => ?_
    obtain ⟨conn, ⟨hfit, hwire⟩, hredraw⟩ := hcommon
    exact h.wire_eq hchild hr hwire hfit hredraw
  exact ⟨p, hp, link, hlink, hchip.trans hmake.chip, hwires, inner, inside₀, inside, hchild⟩

/-- **The parts are the same**, and their chips are restored. -/
theorem parts (h : Restored n s₀ s i c x d₀ d) (hr : Relinked n s₀ s) :
    List.Forall₂ (PartRestored n s₀ s) d.parts.toList c.parts.toList := by
  have hremakes := hr.stocked.remakes hr.canonical h.chip h.declares (hr.stocked.sane h.meant)
  have hsize : d.parts.size = c.parts.size :=
    (h.drafted hr).toGrows.size_parts.trans (by simpa using hremakes.length_eq)
  refine List.forall₂_of_length_eq_of_get (by simpa using hsize) fun k hk hk' => ?_
  have hi : c.parts[k]? = some (c.parts.toList.get ⟨k, hk'⟩) := by
    rw [← Array.getElem?_toList]
    exact List.getElem?_eq_getElem hk'
  obtain ⟨p, hp, hpart⟩ := h.part hr hi
  rw [← Array.getElem?_toList, List.getElem?_eq_getElem hk, Option.some.injEq] at hp
  rw [List.get_eq_getElem, hp]
  exact hpart

end Restored

end Session

end ChipLogic
