import ChipLogic.Proofs.Netlist.Depth
import ChipLogic.Proofs.Session.Stocked

/-!
# Chips that were read back link

In a session that is stocked with a canonical netlist, each connection of a declared chip stands for
a wire of the netlist (`Session.Redraws`), and this wire tells all about it: both pins are there,
they have the same number of bits, and a net gets the width that it had
(`Session.Stocked.netBits_eq`), since it was no wider than some reference to it needs. So the chips
are linkable (`Session.Stocked.linkable`).
-/

namespace ChipLogic

namespace Netlist.Declares

variable {n : Netlist} {c : Chip} {d : Definition}

theorem exists_pinNamed? (h : n.Declares c d) (hs : d.Sane) {p : Pin} (hp : p ∈ c.pins)
    (ht : p.kind ≠ .internal) : ∃ i q, d.pinNamed? p.key = some (i, q) ∧ q.bare = p.bare :=
  Definition.exists_pinNamed?_of_bare h.bare hs.pins (by rwa [pins_declared]) ht

/-- Nets are not declared. -/
theorem pinNamed?_of_net (h : n.Declares c d) (hc : Pins.Sound c.pins) {q : Pin} (hq : q ∈ c.pins)
    (hk : q.kind = .internal) : d.pinNamed? q.key = none := by
  refine Definition.pinNamed?_eq_none_iff.2 fun p hp he => ?_
  obtain ⟨p', hp', hterminal, hbare⟩ := h.exists_terminal hp
  have hkey : p'.key = q.key := (congrArg foldCase (Pin.bare_eq_bare_iff.1 hbare).1).symm.trans he
  exact hterminal (hc.eq_of_key hp' hq hkey ▸ hk)

end Netlist.Declares

namespace Session

variable {n : Netlist} {s₀ : Session} {inner outer : Chip} {inside d : Definition} {w : Wire}
  {c : Connection}

/-! ## Connections -/

/-- The connection in `d` of a part of chip `inside` is printed from the wire. -/
structure Redraws (n : Netlist) (inner outer : Chip) (inside d : Definition) (c : Connection)
    (w : Wire) : Prop where
  ends : w.Ends inner outer
  insideDeclares : n.Declares inner inside
  declares : n.Declares outer d
  insideSane : inside.Sane
  sane : d.Sane
  spelled : c.bare = w.connection inner outer

namespace Redraws

theorem innerKey (h : Redraws n inner outer inside d c w) :
    c.inner.key = (inner.pinAt w.inner).key :=
  congrArg (fun c => c.inner.key) h.spelled

theorem innerRange (h : Redraws n inner outer inside d c w) : c.inner.range = w.innerRange :=
  congrArg (fun c => c.inner.range) h.spelled

theorem outerKey (h : Redraws n inner outer inside d c w) :
    c.outer.key = (outer.pinAt w.outer).key :=
  congrArg (fun c => c.outer.key) h.spelled

theorem outerRange (h : Redraws n inner outer inside d c w) : c.outer.range = w.outerRange :=
  congrArg (fun c => c.outer.range) h.spelled

/-- The inner side names a terminal. -/
theorem offers (h : Redraws n inner outer inside d c w) :
    ∃ p, inside.Offers c.inner p ∧ p.bare = (inner.pinAt w.inner).bare := by
  have hmem := Array.mem_of_getElem? h.ends.innerPin
  obtain ⟨i, p, hp, he⟩ := h.insideDeclares.exists_pinNamed? h.insideSane hmem h.ends.joins.terminal
  obtain ⟨-, hwidth, hkind⟩ := Pin.bare_eq_bare_iff.1 he
  refine ⟨p, ⟨⟨i, h.innerKey ▸ hp⟩, hkind ▸ h.ends.joins.terminal, fun range hr => ?_⟩, he⟩
  rw [hwidth]
  exact BitRange.fits_iff.2 (h.ends.joins.innerFits range (h.innerRange ▸ hr))

/-- Both sides have as many bits as the ends of the wire. -/
theorem widthOn_inner (h : Redraws n inner outer inside d c w) {p : Pin}
    (hp : p.bare = (inner.pinAt w.inner).bare) :
    c.inner.widthOn p.width = endWidth w.outerRange (outer.pinAt w.outer) := by
  rw [(Pin.bare_eq_bare_iff.1 hp).2.1, widthOn_eq_endWidth, h.innerRange, h.ends.joins.sameWidth]

/-- The width that the connection asks of a net. -/
theorem bitsAsked (h : Redraws n inner outer inside d c w) {chip : String}
    (hm : s₀.meant? chip = some inside) (span : Span) :
    s₀.bitsAsked BitRange.extent ⟨chip, span, c.inner, c.outer.range⟩ =
      match w.outerRange with
      | some range => range.extent
      | none => (outer.pinAt w.outer).width := by
  unfold Session.bitsAsked
  rw [h.outerRange]
  cases hr : w.outerRange with
  | some range =>
    exact if_pos (BitRange.isOrdered_iff.2 (h.ends.joins.outer_ordered hr))
  | none =>
    obtain ⟨p, ⟨⟨i, hi⟩, -, -⟩, he⟩ := h.offers
    have hwidth := h.widthOn_inner he
    rw [hr] at hwidth
    simp only [hm, Option.bind_some, hi]
    exact hwidth

end Redraws

/-- A part of `d`, and the part of the netlist from which it is printed. -/
structure Remakes (n : Netlist) (s₀ : Session) (outer : Chip) (d : Definition) (p : Part)
    (i : Instance) : Prop where
  chip : p.chip = i.name
  child : ∃ inner inside, n.chip? i.chip = some inner ∧ s₀.meant? p.chip = some inside ∧
    n.Declares inner inside ∧ List.Forall₂ (Redraws n inner outer inside d) p.connections i.wires

namespace Stocked

variable {id : Nat}

theorem sane (h : s₀.Stocked n) {name : String} (hd : s₀.meant? name = some d) : d.Sane :=
  h.fresh.sound.sane_of_meant? hd

/-- The parts of a declared chip are printed from those of the netlist. -/
theorem remakes (h : s₀.Stocked n) (hn : n.Canonical) (hc : n.chip? id = some outer)
    (hd : n.Declares outer d) (hs : d.Sane) :
    List.Forall₂ (Remakes n s₀ outer d) d.parts.toList outer.parts.toList := by
  refine List.forall₂_iff_zip.2 ⟨hd.parts.length_eq, fun {p i} hm => ?_⟩
  obtain ⟨hchip, hconnections⟩ := List.forall₂_zip hd.parts hm
  have hi : i ∈ outer.parts := Array.mem_toList_iff.1 (List.of_mem_zip hm).2
  obtain ⟨inner, hinner, -⟩ := (hn.sound.chips id outer hc).parts i hi
  obtain ⟨inside, hmeant, hinside⟩ := h.means i.chip inner hinner i.name (hn.called hc hi hinner)
  refine ⟨hchip, inner, inside, hinner, hchip ▸ hmeant, hinside, ?_⟩
  rw [Netlist.chipAt_eq hinner] at hconnections
  have hall := map_eq_map_iff_forall₂.1 hconnections
  refine List.forall₂_iff_zip.2 ⟨hall.length_eq, fun {c w} hm => ?_⟩
  exact ⟨Chip.Sound.ends hn.sound hc hi hinner (List.of_mem_zip hm).2, hinside, hd,
    h.sane hmeant, hs, List.forall₂_zip hall hm⟩

/-- **A net gets the width that it had.** -/
theorem netBits_eq (h : s₀.Stocked n) (hn : n.Canonical) (hc : n.chip? id = some outer)
    (hd : n.Declares outer d) (hs : d.Sane) {q : Pin} (hq : q ∈ outer.pins) (hk : q.kind = .internal) :
    s₀.netBits BitRange.extent d q.key = q.width := by
  have hsound := (hn.sound.chips id outer hc).pins
  have hremakes := h.remakes hn hc hd hs
  refine Nat.le_antisymm (netBits_le fun m hm => ?_) ?_
  · -- no reference asks for more
    obtain ⟨p, hp, c, hcp, hkey, rfl⟩ := Definition.mem_mentions.1 hm
    obtain ⟨i, -, hmake⟩ := forall₂_of_mem_right hremakes (Array.mem_toList_iff.2 hp)
    obtain ⟨inner, inside, -, hmeant, -, hall⟩ := hmake.child
    obtain ⟨w, -, hredraw⟩ := forall₂_of_mem_right hall hcp
    have hsame : outer.pinAt w.outer = q :=
      hsound.eq_of_key (Array.mem_of_getElem? hredraw.ends.outerPin) hq (hredraw.outerKey ▸ hkey)
    rw [hredraw.bitsAsked hmeant, hsame]
    cases hr : w.outerRange with
    | none => exact Nat.le_refl _
    | some range => exact hsame ▸ hredraw.ends.joins.extent_le hr
  · -- and some reference asks for all of it
    obtain ⟨m, hm, htight⟩ := (hn.laidOut id outer hc).tight q (by rwa [Netlist.pins_declared]) hk
    obtain ⟨p, hp, c, hcp, hkey, rfl⟩ := Definition.mem_mentions.1 hm
    rw [Netlist.parts_declared] at hp
    obtain ⟨i, hi, rfl⟩ := Array.mem_map.1 hp
    obtain ⟨w, hw, rfl⟩ := List.mem_map.1 hcp
    obtain ⟨p, hp, hmake⟩ := forall₂_of_mem_right hremakes.flip (Array.mem_toList_iff.2 hi)
    obtain ⟨inner, inside, hinner, hmeant, -, hall⟩ := hmake.child
    obtain ⟨c, hcp, hredraw⟩ := forall₂_of_mem_right hall.flip hw
    have hsame : outer.pinAt w.outer = q :=
      hsound.eq_of_key (Array.mem_of_getElem? hredraw.ends.outerPin) hq hkey
    have hmem : (⟨p.chip, p.span, c.inner, c.outer.range⟩ : Mention) ∈ d.mentions q.key := by
      refine Definition.mem_mentions.2 ⟨p, Array.mem_toList_iff.1 hp, c, hcp, ?_, rfl⟩
      rw [hredraw.outerKey, hsame]
    refine Nat.le_trans (Nat.le_of_eq ?_) (bitsAsked_le_netBits hmem)
    rw [hredraw.bitsAsked hmeant, hsame]
    cases hr : w.outerRange with
    | none => rfl
    | some range => exact (htight range hr).symm

end Stocked

/-! ## Linkable chips -/

namespace Redraws

/-- The outer side stands for a declared pin or a net. -/
theorem takes (h : Redraws n inner outer inside d c w)
    (hnets : ∀ q ∈ outer.pins, q.kind = .internal → s₀.netBits BitRange.extent d q.key = q.width) :
    ∃ q, s₀.Takes BitRange.extent d c.outer q ∧ q.bare = (outer.pinAt w.outer).bare := by
  have hmem := Array.mem_of_getElem? h.ends.outerPin
  by_cases hk : (outer.pinAt w.outer).kind = .internal
  · have hundeclared := h.declares.pinNamed?_of_net h.ends.outerSound hmem hk
    refine ⟨outer.pinAt w.outer, .net (h.outerKey ▸ hundeclared) hk ?_
      (h.ends.outerSound.width_pos _ hmem) (h.ends.outerSound.width_le _ hmem)
      fun range hr => ?_, rfl⟩
    · rw [h.outerKey, hnets _ hmem hk]
    · exact BitRange.isOrdered_iff.2 (h.ends.joins.outer_ordered (h.outerRange ▸ hr))
  · obtain ⟨i, q, hq, he⟩ := h.declares.exists_pinNamed? h.sane hmem hk
    refine ⟨q, .declared (h.outerKey ▸ hq) fun range hr => ?_, he⟩
    rw [(Pin.bare_eq_bare_iff.1 he).2.1]
    have hfits := h.ends.joins.outerFits range (h.outerRange ▸ hr)
    exact BitRange.fits_iff.2 (hfits.resolve_right fun hwrap => hk hwrap.2)

theorem connectable (h : Redraws n inner outer inside d c w)
    (hnets : ∀ q ∈ outer.pins, q.kind = .internal → s₀.netBits BitRange.extent d q.key = q.width) :
    s₀.Connectable BitRange.extent d inside c := by
  obtain ⟨p, hoffers, hp⟩ := h.offers
  obtain ⟨q, htakes, hq⟩ := h.takes hnets
  refine ⟨p, q, hoffers, htakes, ?_, ?_⟩
  · rw [h.widthOn_inner hp, widthOn_eq_endWidth, h.outerRange]
    unfold endWidth
    rw [(Pin.bare_eq_bare_iff.1 hq).2.1]
  · rintro ⟨hpk, hqk⟩
    rw [(Pin.bare_eq_bare_iff.1 hp).2.2] at hpk
    rw [(Pin.bare_eq_bare_iff.1 hq).2.2] at hqk
    -- an output does not drive an input
    cases hdir : w.direction with
    | drive =>
      rw [h.ends.joins.drive_iff.1 hdir] at hpk
      cases hpk
    | sense => exact h.ends.joins.sense_outer hdir hqk

end Redraws

/-- References are in the order in which they were. -/
theorem wrapsFirst_of_declares (hn : n.Canonical) {id : Nat} (hc : n.chip? id = some outer)
    (hd : n.Declares outer d) : WrapsFirst d.names d.outers := by
  have hnames : d.names = (n.declared outer).terminals.map Pin.name := by
    rw [← Definition.map_name_terminals_of_bare hd.bare, hd.raw, Definition.names]
  rw [hnames]
  exact (hn.laidOut id outer hc).wrapsFirst.congr
    (Definition.map_outers_of_bare (fun _ => rfl) hd.bare)

/-- **The chips are linkable.** -/
theorem Stocked.linkable (h : s₀.Stocked n) (hn : n.Canonical) {id : Nat}
    (hc : n.chip? id = some outer) (hd : n.Declares outer d) (hs : d.Sane) : s₀.Linkable d := by
  have hwithin := hn.sound.within_size hc
  generalize n.size = levels at hwithin
  induction levels generalizing id outer d with
  | zero => exact hwithin.elim
  | succ levels ih =>
    cases hk : outer.kind with
    | gate g => exact .gate (by rw [hd.gate, hk]; rfl)
    | composite =>
      have hremakes := h.remakes hn hc hd hs
      have hnets : ∀ q ∈ outer.pins, q.kind = .internal → s₀.netBits BitRange.extent d q.key = q.width :=
        fun q hq => h.netBits_eq hn hc hd hs hq
      refine .composite (fun p hp => ?_) (wrapsFirst_of_declares hn hc hd)
        fun p hp child hchild => ?_
      · obtain ⟨i, -, hmake⟩ := forall₂_of_mem_right hremakes (Array.mem_toList_iff.2 hp)
        obtain ⟨inner, inside, -, hmeant, -, hall⟩ := hmake.child
        refine ⟨inside, hmeant, fun c hcp => ?_⟩
        obtain ⟨w, -, hredraw⟩ := forall₂_of_mem_right hall hcp
        exact hredraw.connectable hnets
      · obtain ⟨i, hi, hmake⟩ := forall₂_of_mem_right hremakes (Array.mem_toList_iff.2 hp)
        obtain ⟨inner, inside, hinner, hmeant, hinside, -⟩ := hmake.child
        rw [hmeant, Option.some.injEq] at hchild
        subst hchild
        exact ih hinner hinside (h.sane hmeant)
          (hwithin i.chip ⟨outer, hc, i, Array.mem_toList_iff.1 hi, rfl⟩)

end Session

end ChipLogic
