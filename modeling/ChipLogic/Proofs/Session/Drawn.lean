import ChipLogic.Proofs.Session.Layout
import ChipLogic.Proofs.Session.Printed

/-!
# Chips that linked are laid out

A chip that links gets the nets that its connections need, and no other pin
(`Session.gains_of_linkParts`). What that makes of a chip depends on what the chip was before, so a
**drawing** (`Session.Drawing`) says both: what chips look like as long as they are not linked, and
what they look like when they have linked. Every drawing holds of a session at any time
(`Session.DrawnAs`): only the chip in progress is changed. The induction follows the walk, as for
`Session.Links`.

* `Drawing.plain`: where nobody adds a pin from outside, a chip declares terminals only and is laid
  out in the end;
* `Drawing.any`: nothing is said of the chips, but the wires of a chip that linked join the pins
  that its connections name;
* `Drawing.since`: seen from a session `s`, a chip is as it is in `s`, and then it has gained its
  nets.
-/

namespace ChipLogic

namespace Session

variable {s s' : Session} {id parent child index : Nat} {linkChild : ChildLinker}

/-! ## Laid out chips -/

/-- Each connection of a part has become a wire between the pins that it names. -/
def PartDrawn (s : Session) (id index : Nat) : Prop :=
  ∃ p link, s.part? id index = some p ∧ p.link = some link ∧
    List.Forall₂ (s.Wired id link.chip) p.connections link.wires

theorem PartDrawn.mono {work : Option Nat} (h : s.PartDrawn id index) (ha : Advances work s s')
    (hs : s'.Sound) (hp : s'.part? id index = s.part? id index) : s'.PartDrawn id index := by
  obtain ⟨p, link, hpart, hlink, hall⟩ := h
  exact ⟨p, link, hp.trans hpart, hlink, hall.imp fun _ _ hw => hw.mono ha hs⟩

/-- What chips look like before and after they are linked. -/
structure Drawing where
  /-- Chips from this position on are registered on the way. -/
  floor : Nat
  draft : Nat → Definition → Prop
  final : Nat → Definition → Prop
  fresh : ∀ {id d}, floor ≤ id → d.Raw → draft id d
  finish : ∀ {id d d'}, draft id d → d.Gains d.outerNames d' → WrapsFirst d.names d.outers → final id d'

variable {g : Drawing}

/-- The chip looks as it should after linking, and its parts are drawn. -/
structure Laid (s : Session) (g : Drawing) (id : Nat) : Prop where
  layout : ∀ d, s.definition? id = some d → g.final id d
  parts : ∀ i p, s.part? id i = some p → s.PartDrawn id i

theorem Laid.mono {work : Option Nat} (h : s.Laid g id) (ha : Advances work s s') (hs : s'.Sound)
    (hc : s'.chips[id]? = s.chips[id]?) : s'.Laid g id := by
  have hd : s'.definition? id = s.definition? id := definition?_congr hc
  have hp : ∀ i, s'.part? id i = s.part? id i := fun i => by rw [part?, part?, hd]
  exact ⟨fun d hd' => h.layout d (hd ▸ hd'), fun i p hi =>
    (h.parts i p (hp i ▸ hi)).mono ha hs (hp i)⟩

theorem Laid.congr (h : s.Laid g id) (hd : ∀ a, s'.definition? a = s.definition? a) :
    s'.Laid g id := by
  have hp : ∀ a i, s'.part? a i = s.part? a i := fun a i => by rw [part?, part?, hd]
  refine ⟨fun d hd' => h.layout d (hd id ▸ hd'), fun i p hi => ?_⟩
  obtain ⟨p', link, hpart, hlink, hall⟩ := h.parts i p (hp id i ▸ hi)
  refine ⟨p', link, (hp id i).trans hpart, hlink, hall.imp fun c w hw => ?_⟩
  unfold Wired at hw ⊢
  rwa [hd, hd]

/-- Only chips in progress are between their draft and their final form. -/
structure DrawnAs (s : Session) (g : Drawing) : Prop where
  sound : s.Sound
  floor : g.floor ≤ s.chips.size
  draft : ∀ (id : Nat) (e : Entry), s.chips[id]? = some e → e.status = .unlinked →
    g.draft id e.definition
  laid : ∀ (id : Nat) (e : Entry), s.chips[id]? = some e → e.status = .linked true → s.Laid g id

namespace DrawnAs

/-- A step after which new or changed chips are not linked, or not yet. -/
theorem step {work : Option Nat} (h : s.DrawnAs g) (ha : Advances work s s')
    (hsize : s.chips.size ≤ s'.chips.size)
    (hnew : ∀ (id : Nat) (e : Entry), s'.chips[id]? = some e → s.chips[id]? = some e ∨
      e.status ≠ .linked true ∧ (e.status = .unlinked → g.draft id e.definition)) :
    s'.DrawnAs g where
  sound := ha.sound h.sound
  floor := Nat.le_trans h.floor hsize
  draft id e he hst := by
    rcases hnew id e he with hold | ⟨-, hdraft⟩
    · exact h.draft id e hold hst
    · exact hdraft hst
  laid id e he hst := by
    rcases hnew id e he with hold | ⟨hne, -⟩
    · exact (h.laid id e hold hst).mono ha (ha.sound h.sound) (he.trans hold.symm)
    · exact absurd hst hne

/-- Only the chips matter. -/
theorem of_chips (h : s.DrawnAs g) (hc : s'.chips = s.chips) : s'.DrawnAs g where
  sound := h.sound.of_chips hc
  floor := hc ▸ h.floor
  draft id e he := h.draft id e (hc ▸ he)
  laid id e he hst := (h.laid id e (hc ▸ he) hst).congr fun a => definition?_congr (congrArg (·[a]?) hc)

/-- A chip that is marked as linked has to be laid out. -/
theorem setStatus (h : s.DrawnAs g) {status : LinkStatus} (hs : (s.setStatus id status).Sound)
    (hu : status ≠ .unlinked) (hl : status = .linked true → s.Laid g id) :
    (s.setStatus id status).DrawnAs g := by
  have hold : ∀ (j : Nat) (e : Entry), (s.setStatus id status).chips[j]? = some e →
      s.chips[j]? = some e ∨ j = id ∧ e.status = status := by
    intro j e he
    rw [chips_setStatus, Array.getElem?_modify] at he
    split at he
    · next hj =>
      obtain ⟨e', -, rfl⟩ := Option.map_eq_some_iff.1 he
      exact .inr ⟨hj.symm, rfl⟩
    · exact .inl he
  have hsize : (s.setStatus id status).chips.size = s.chips.size := by simp
  refine ⟨hs, hsize ▸ h.floor, fun j e he hst => ?_, fun j e he hst => ?_⟩
  · rcases hold j e he with hold | ⟨-, hnew⟩
    · exact h.draft j e hold hst
    · exact absurd (hnew.symm.trans hst) hu
  · refine Laid.congr (s := s) ?_ (definition?_setStatus s id status)
    rcases hold j e he with hold | ⟨rfl, hnew⟩
    · exact h.laid j e hold hst
    · exact hl (hnew.symm.trans hst)

/-- A change of the chip in progress. -/
theorem modifyDefinition (h : s.DrawnAs g) (hs : s.status? id = some .inProgress)
    {f : Definition → Definition} {hkey : ∀ d, (f d).key = d.key} {work : Option Nat}
    (ha : Advances work s (s.modifyDefinition id f hkey)) :
    (s.modifyDefinition id f hkey).DrawnAs g := by
  obtain ⟨c, hc, hst⟩ := status?_eq_some_iff.1 hs
  refine h.step ha (by simp) fun j e he => ?_
  rw [chips_modifyDefinition, getElem?_modify_eq hc] at he
  split at he
  · cases he
    exact .inr ⟨by simp [hst], by simp [hst]⟩
  · exact .inl he

/-! ## Errands -/

theorem registers {ds : List Definition} (h : s.DrawnAs g) (hr : Registers ds s s')
    (ha : Advances none s s') (hd : ∀ d ∈ ds, d.Raw) : s'.DrawnAs g := by
  obtain ⟨new, hnew, hchips⟩ := hr.chips
  have hsize : s.chips.size ≤ s'.chips.size := by
    rw [← Array.length_toList, ← Array.length_toList, hchips, List.length_append]
    exact Nat.le_add_right _ _
  refine h.step ha hsize fun id e he => ?_
  rw [← Array.getElem?_toList, hchips, List.getElem?_append] at he
  split at he
  · exact .inl (by rw [← Array.getElem?_toList]; exact he)
  · next hge =>
    rw [List.getElem?_map] at he
    obtain ⟨d, hdn, rfl⟩ := Option.map_eq_some_iff.1 he
    refine .inr ⟨by simp, fun _ => g.fresh ?_ (hd d (hnew.subset (List.mem_of_getElem? hdn)))⟩
    exact Nat.le_trans h.floor (Nat.le_of_not_lt hge)

end DrawnAs

end Session

namespace Definition

/-- A chip of a text declares terminals only. -/
theorem raw_declare {d : Definition} (h : d.Raw) {ps : List Pin}
    (hp : ∀ p ∈ ps, p.isTerminal = true) : (d.declare ps).1.Raw := by
  refine declare_keeps h fun d p hmem _ hraw => raw_iff.2 fun q hq => ?_
  rcases Array.mem_push.1 (d.pins_push p ▸ hq) with hq | rfl
  · exact raw_iff.1 hraw q hq
  · exact hp q hmem

theorem raw_ofNode (node : Hdl.ChipNode) : (ofNode node).1.Raw := by
  refine raw_declare (raw_iff.2 fun p hp => by simp [pins] at hp) fun p hp => ?_
  rw [← node.terminals_pins] at hp
  exact (List.mem_filter.1 hp).2

end Definition

theorem Gate.raw_definition (g : Gate) : g.definition.Raw := by
  cases g <;> rfl

namespace Session

variable {s s' : Session} {id parent child index : Nat} {linkChild : ChildLinker} {g : Drawing}

theorem raw_of_mem_definitionsOf {text : String} {d : Definition} (hd : d ∈ s.definitionsOf text) :
    d.Raw := by
  obtain ⟨x, hx, rfl⟩ := List.mem_map.1 hd
  obtain ⟨node, -, rfl⟩ := List.mem_map.1 hx
  exact Definition.raw_ofNode node

namespace DrawnAs

theorem load (h : s.DrawnAs g) (path text : String) : (s.loadSource path text).2.DrawnAs g :=
  h.registers (registers_loadSource s path text).1 (advances_loadSource s path text none)
    fun _ => raw_of_mem_definitionsOf

theorem addPinTo (h : s.DrawnAs g) (hs : s.status? id = some .inProgress) (p : Pin) :
    (s.addPinTo id p).2.DrawnAs g := by
  have ha := (connects_addPinTo hs p).toAdvances
  rcases s.addPinTo_cases id p with ⟨-, hadd⟩ | ⟨d, refusal, -, -, hadd⟩ | ⟨d, -, -, hadd⟩
  · exact hadd ▸ h
  · exact hadd ▸ h.of_chips rfl
  · rw [hadd] at ha ⊢
    exact h.modifyDefinition hs ha

theorem errand (h : s.DrawnAs g) (he : Errand s s') : s'.DrawnAs g := by
  cases he with
  | load path known => exact h.load path _
  | gate gate =>
    exact h.registers (registers_register s _) (advances_register gate.declared_definition none)
      (List.forall_mem_singleton.2 gate.raw_definition)
  | remember missing asked => exact h.of_chips rfl
  | emitAll other => exact h.of_chips rfl
  | net hs _ => exact h.addPinTo hs _

theorem errands (h : s.DrawnAs g) (he : Errands s s') : s'.DrawnAs g := by
  induction he with
  | refl => exact h
  | tail _ he ih => exact ih.errand he

end DrawnAs

/-! ## Parts -/

theorem extends_setLink (s : Session) (parent index : Nat) (link : Link) :
    Extends parent [] s (s.setLink parent index link) :=
  fun d hd => ⟨_, definition?_modifyDefinition hd _ _, .of_pins (.setLink d index link) rfl rfl,
    wrapsFirst_nil _⟩

/-- The outer sides of the part at a position. -/
def outersAt (s : Session) (id index : Nat) : List Reference :=
  ((s.part? id index).map Part.outers).getD []

/-- What linking parts of the chip in progress comes to if it goes well. -/
structure DrawsParts (parent : Nat) (indices : List Nat) (s s' : Session) : Prop where
  extend : Extends parent (indices.flatMap (s.outersAt parent)) s s'
  parts : ∀ i ∈ indices, s'.PartDrawn parent i

/-- **A part that links is drawn**, and the chip around it gets the nets that the part needs. -/
theorem drawsParts_linkPart (hl : Links linkChild) (index : Nat)
    (hs : s.status? parent = some .inProgress) (h : s.Sound)
    (hok : (linkPart linkChild parent index s).1 = true) :
    DrawsParts parent [index] s (linkPart linkChild parent index s).2 := by
  have hrun := partRun_linkPart linkChild parent index s
  generalize linkPart linkChild parent index s = r at hrun hok ⊢
  cases hrun with
  | absent => cases hok
  | unresolved => cases hok
  | @steps part child ok good wires s₁ s₂ s₃ s₄ hsteps =>
    rw [← hsteps.verdict, Bool.and_eq_true] at hok
    have hs₂ := hsteps.inProgress hl hs
    have ha₂ := hsteps.advances hl
    obtain ⟨d, hd, hi⟩ := definition?_of_part? hsteps.found
    have hd₂ : s₂.definition? parent = some d :=
      (ha₂.definition?_inProgress hs (by simp)).trans hd
    -- its wires
    have hmention : ∀ c ∈ part.connections, ∃ m ∈ d.mentions c.outer.key,
        m.range = c.outer.range := fun c hc =>
      ⟨_, Definition.mem_mentions.2 ⟨part, Array.mem_of_getElem? hi, c, hc, rfl, rfl⟩, rfl⟩
    have hwires := layout_connectAll child hs₂ (ha₂.sound h) hd₂ hmention
    rw [hsteps.connected] at hwires
    obtain ⟨hextend, hdrawn⟩ := hwires hok.2
    -- the warnings and the link of the part
    have hs₃ := (hsteps.connects hl hs).status_inProgress hs₂
    have hset := hsteps.advances_setLink hl hs ⟨child, wires.filterMap id⟩
    have hsound₄ := (hsteps.connects_warned hl hs).sound h
    have hlast : Extends parent [] s₄ (s₄.setLink parent index ⟨child, wires.filterMap id⟩) :=
      extends_setLink s₄ parent index _
    have hpart := part?_setLink (hsteps.found_warned hl hs) ⟨child, wires.filterMap id⟩ index
    rw [if_pos rfl] at hpart
    refine ⟨?_, List.forall_mem_singleton.2 ⟨_, _, hpart, rfl, ?_⟩⟩
    · have hall := ((ha₂.extends hs).trans hextend).trans
        ((hsteps.advances_warned.extends hs₃).trans hlast)
      simpa [outersAt, hsteps.found, Part.outers] using hall
    · exact hdrawn.imp fun _ _ hw =>
        (hw.mono hsteps.advances_warned hsound₄).mono hset (hset.sound hsound₄)

theorem drawsParts_linkParts (hl : Links linkChild) {indices : List Nat} (hn : indices.Nodup)
    (hs : s.status? parent = some .inProgress) (h : s.Sound)
    (hok : (linkParts linkChild parent indices s).1 = true) :
    DrawsParts parent indices s (linkParts linkChild parent indices s).2 := by
  induction indices generalizing s with
  | nil => exact ⟨.of_definition? rfl, List.forall_mem_nil _⟩
  | cons index indices ih =>
    obtain ⟨hfresh, hn'⟩ := List.nodup_cons.1 hn
    unfold linkParts at hok ⊢
    rw [Bool.and_eq_true] at hok
    have hfirst := drawsParts_linkPart hl index hs h hok.1
    have hp := linksPart_linkPart hl index hs
    have hs' := hp.advances.status_inProgress hs
    have hsound' := hp.advances.sound h
    have hrest := ih hn' hs' hsound' hok.2
    obtain ⟨ha, ho, -⟩ := linkParts_spec hl hn' hs'
    refine ⟨?_, List.forall_mem_cons.2 ⟨?_, hrest.parts⟩⟩
    · -- linking the first part leaves the others as they were written
      have hnames : indices.flatMap ((linkPart linkChild parent index s).2.outersAt parent) =
          indices.flatMap (s.outersAt parent) := by
        refine List.flatMap_congr fun i hi => ?_
        rw [outersAt, outersAt, hp.others i fun he => hfresh (he ▸ hi)]
      have hall := hfirst.extend.trans hrest.extend
      rwa [hnames, ← List.flatMap_append] at hall
    · exact (hfirst.parts index (List.mem_singleton_self index)).mono ha (ha.sound hsound')
        (ho index hfresh)

/-- A linker of the chips of parts that keeps to the drawing. -/
def Draws (g : Drawing) (linkChild : ChildLinker) : Prop :=
  ∀ child name span s, s.DrawnAs g → (linkChild child name span s).2.DrawnAs g

namespace DrawnAs

theorem linkPart (h : s.DrawnAs g) (hl : Links linkChild) (hw : Draws g linkChild) (index : Nat)
    (hs : s.status? parent = some .inProgress) :
    (Session.linkPart linkChild parent index s).2.DrawnAs g := by
  have hrun := partRun_linkPart linkChild parent index s
  generalize Session.linkPart linkChild parent index s = r at hrun ⊢
  cases hrun with
  | absent => exact h
  | unresolved _ hr => exact h.errands (errands_of_resolve hr)
  | @steps part child ok good wires s₁ s₂ s₃ s₄ hsteps =>
    have hdrawn := hw child part.chip part.span s₁ (h.errands (errands_of_resolve hsteps.resolved))
    rw [hsteps.linked] at hdrawn
    exact (hdrawn.errands (hsteps.paces hl hs).errands).modifyDefinition
      ((hsteps.connects_warned hl hs).status_inProgress hs) (hsteps.advances_setLink hl hs _)

theorem linkParts (h : s.DrawnAs g) (hl : Links linkChild) (hw : Draws g linkChild)
    (indices : List Nat) (hs : s.status? parent = some .inProgress) :
    (Session.linkParts linkChild parent indices s).2.DrawnAs g := by
  induction indices generalizing s with
  | nil => exact h
  | cons index indices ih =>
    exact ih (h.linkPart hl hw index hs)
      ((linksPart_linkPart hl index hs).advances.status_inProgress hs)

end DrawnAs

/-! ## Chips -/

theorem flatMap_outersAt {d : Definition} (hd : s.definition? id = some d) :
    (List.range d.parts.size).flatMap (s.outersAt id) = d.outers := by
  have hat : ∀ i, s.outersAt id i = ((d.parts.toList.map Part.outers)[i]?).getD [] := by
    intro i
    rw [outersAt, part?, hd, Option.bind_some, List.getElem?_map, Array.getElem?_toList]
  have hlist : (List.range d.parts.size).map (s.outersAt id) =
      d.parts.toList.map Part.outers := by
    refine List.ext_getElem (by simp) fun i h₁ h₂ => ?_
    rw [List.getElem_map, List.getElem_range, hat, List.getElem?_eq_getElem h₂, Option.getD_some]
  rw [List.flatMap_def, hlist, ← List.flatMap_def, Definition.outers]

/-- **A chip whose parts have all linked has gained the nets that it needs.** -/
theorem gains_of_linkParts (hl : Links linkChild) (hs : s.status? id = some .inProgress)
    (h : s.Sound) {d : Definition} (hd : s.definition? id = some d)
    (hok : (linkParts linkChild id (List.range d.parts.size) s).1 = true) :
    let s' := (linkParts linkChild id (List.range d.parts.size) s).2
    (∃ d', s'.definition? id = some d' ∧ d.Gains d.outerNames d' ∧ WrapsFirst d.names d.outers) ∧
      ∀ i p, s'.part? id i = some p → s'.PartDrawn id i := by
  have hparts := drawsParts_linkParts hl List.nodup_range hs h hok
  have hext := hparts.extend
  rw [flatMap_outersAt hd] at hext
  obtain ⟨d', hd', hg, hw⟩ := hext d hd
  refine ⟨⟨d', hd', hg, hw⟩, fun i p hp => hparts.parts i (List.mem_range.2 ?_)⟩
  obtain ⟨d₁, hd₁, hi⟩ := definition?_of_part? hp
  obtain rfl : d' = d₁ := Option.some.inj (hd'.symm.trans hd₁)
  rw [← hg.toGrows.size_parts]
  exact (Array.getElem?_eq_some_iff.1 hi).1

/-- **A chip that links is laid out.** -/
theorem drawn_linkFresh (hl : Links linkChild) (hw : Draws g linkChild)
    (hs : s.status? id = some .unlinked) (h : s.DrawnAs g) :
    (linkFresh linkChild id s).2.DrawnAs g := by
  obtain ⟨e, he, hst⟩ := status?_eq_some_iff.1 hs
  have hd : s.definition? id = some e.definition := definition?_of_entry he
  have hdraft := h.draft id e he hst
  have hsound := (linkFresh_spec hl hs).1.sound h.sound
  have hrun := freshRun_linkFresh linkChild hs
  generalize linkFresh linkChild id s = r at hrun hsound ⊢
  cases hrun with
  | @gate d found hg =>
    obtain rfl : e.definition = d := Option.some.inj (hd.symm.trans found)
    obtain ⟨gate, hg⟩ := Option.isSome_iff_exists.1 hg
    have hparts := ((h.sound.sane_definition hd).gate gate hg).2
    refine h.setStatus hsound (by simp) fun _ => ⟨fun d hd' => ?_, fun i p hp => ?_⟩
    · -- a gate has no parts, so it needs no net
      obtain rfl : e.definition = d := Option.some.inj (hd.symm.trans hd')
      have houters : e.definition.outers = [] := by rw [Definition.outers, hparts]; rfl
      refine g.finish hdraft (.of_pins (.refl _) rfl ?_) ?_
      · rw [Definition.outerNames, houters]
        rfl
      · rw [houters]
        exact wrapsFirst_nil _
    · rw [part?, hd, Option.bind_some, hparts] at hp
      simp at hp
  | @parts d ok s₁ s₂ found _ run warned =>
    obtain rfl : e.definition = d := Option.some.inj (hd.symm.trans found)
    have hin₁ : (s.setStatus id .inProgress).status? id = some .inProgress :=
      status?_setStatus he _
    have hd₁ := (definition?_setStatus s id .inProgress id).trans hd
    have hsound₁ := (advances_start hs).sound h.sound
    have hdrawn : (s.setStatus id .inProgress).DrawnAs g :=
      h.setStatus hsound₁ (by simp) fun hc => by cases hc
    have hdrawn₁ := hdrawn.linkParts hl hw (List.range e.definition.parts.size) hin₁
    have hgains := gains_of_linkParts hl hin₁ hsound₁ hd₁
    rw [run] at hdrawn₁ hgains
    have hchips : s₂.chips = s₁.chips := by
      rw [warned]
      split <;> rfl
    refine (hdrawn₁.of_chips hchips).setStatus hsound (by simp) fun hok => ?_
    obtain ⟨⟨d', hd', hgain, hfirst⟩, hparts⟩ := hgains (by simpa using hok)
    have hlaid : s₁.Laid g id := by
      refine ⟨fun d hd => ?_, hparts⟩
      obtain rfl : d' = d := Option.some.inj (hd'.symm.trans hd)
      exact g.finish hdraft hgain hfirst
    exact hlaid.congr fun a => definition?_congr (congrArg (·[a]?) hchips)

theorem draws_linkWithin (g : Drawing) (depth : Nat) : Draws g (linkWithin depth) := by
  induction depth with
  | zero => exact fun child name span s h => h.of_chips rfl
  | succ depth ih =>
    intro child name span s h
    unfold linkWithin
    split
    · exact h
    · next hs => exact drawn_linkFresh (links_linkWithin depth) ih hs h
    · exact h.of_chips rfl

theorem DrawnAs.link (h : s.DrawnAs g) (id : Nat) : (s.link id).2.DrawnAs g := by
  unfold Session.link
  split
  · exact h
  · next hs => exact drawn_linkFresh (links_linkWithin _) (draws_linkWithin g _) hs h
  · exact h

/-! ## Linked chips -/

theorem DrawnAs.laid_of_finished (h : s.DrawnAs g) (hf : s.Finished id) : s.Laid g id := by
  cases hf with
  | intro entry status => exact h.laid id _ entry status

/-- The wires of a part join what its connections named. -/
theorem DrawnAs.exists_wired (h : s.DrawnAs g) (hf : s.Finished id) {d : Definition}
    (hd : s.definition? id = some d) {p : Part} (hp : p ∈ d.parts) :
    ∃ link, p.link = some link ∧ List.Forall₂ (s.Wired id link.chip) p.connections link.wires := by
  obtain ⟨k, hk⟩ := Array.mem_iff_getElem?.1 hp
  have hpart : s.part? id k = some p := by rw [part?, hd, Option.bind_some, hk]
  obtain ⟨p', link, hpart', hwired⟩ := (h.laid_of_finished hf).parts k p hpart
  rw [hpart, Option.some.injEq] at hpart'
  exact ⟨link, hpart' ▸ hwired⟩

theorem DrawnAs.wired (h : s.DrawnAs g) (hf : s.Finished id) {d : Definition}
    (hd : s.definition? id = some d) {p : Part} (hp : p ∈ d.parts) {link : Link}
    (hl : p.link = some link) : List.Forall₂ (s.Wired id link.chip) p.connections link.wires := by
  obtain ⟨link', hl', hwired⟩ := h.exists_wired hf hd hp
  rw [hl, Option.some.injEq] at hl'
  exact hl' ▸ hwired

/-- The chip of a part of a finished chip is finished, and the wires fit. -/
theorem Finished.part {d : Definition} (h : s.Finished id) (hd : s.definition? id = some d)
    {p : Part} (hp : p ∈ d.parts) {link : Link} (hl : p.link = some link) :
    s.Finished link.chip ∧ ∃ inside, s.definition? link.chip = some inside ∧
      ∀ w ∈ link.wires, w.Fits inside.pins d.pins := by
  cases h with
  | intro entry _ links children =>
    rw [definition?_of_entry entry, Option.some.injEq] at hd
    subst hd
    obtain ⟨link', inside, hl', hinside, hfits⟩ := links p hp
    rw [hl, Option.some.injEq] at hl'
    subst hl'
    exact ⟨children p hp link hl, inside, hinside, hfits⟩

/-! ## Drawings -/

namespace Drawing

/-- Chips declare terminals only, and are laid out in the end. -/
def plain : Drawing where
  floor := 0
  draft _ d := d.Raw
  final _ d := d.LaidOut
  fresh _ h := h
  finish hraw h hw := h.laidOut hw hraw

/-- Nothing is said of the chips. -/
def any : Drawing where
  floor := 0
  draft _ _ := True
  final _ _ := True
  fresh _ _ := trivial
  finish _ _ _ := trivial

/-- The chips of a session before and after they gain the nets that they need. -/
def since (s : Session) : Drawing where
  floor := s.chips.size
  draft id d := ∀ d₀, s.definition? id = some d₀ → d₀ = d
  final id d := ∀ d₀, s.definition? id = some d₀ → d₀.Gains d₀.outerNames d
  fresh hid _ d₀ hd := by simp [Session.definition?_eq, Array.getElem?_eq_none hid] at hd
  finish hdraft h _ d₀ hd := by
    obtain rfl := hdraft d₀ hd
    exact h

end Drawing

theorem DrawnAs.start (hg : g.floor = 0) (disk : Disk) (library : Option String) :
    Session.DrawnAs { disk, library } g where
  sound := .start disk library
  floor := Nat.le_of_eq hg
  draft _ _ he := by simp at he
  laid _ _ he := by simp at he

/-- A pin that is added to a chip that is not linked leaves a draft, if any change does. -/
theorem DrawnAs.addPin (h : s.DrawnAs g) (hany : ∀ d d', g.draft id d → g.draft id d') (p : Pin) :
    (s.addPin id p).2.DrawnAs g := by
  have ha := advances_addPin s id p
  rcases s.addPin_cases id p with hadd | ⟨hs, hadd⟩ | hadd
  · exact hadd ▸ h
  · rw [hadd] at ha ⊢
    obtain ⟨e, he, hst⟩ := status?_eq_some_iff.1 hs
    rcases s.addPinTo_cases id p with ⟨-, hadd⟩ | ⟨d, refusal, -, -, hadd⟩ | ⟨d, -, -, hadd⟩
    · exact hadd ▸ h
    · exact hadd ▸ h.of_chips rfl
    · rw [hadd] at ha ⊢
      refine h.step ha (by simp) fun j e' he' => ?_
      simp only [chips_modifyDefinition, getElem?_modify_eq he] at he'
      split at he'
      · next hj =>
        subst hj
        cases he'
        exact .inr ⟨by simp [hst], fun _ => hany _ _ (h.draft id e he hst)⟩
      · exact .inl he'
  · exact hadd ▸ h.of_chips rfl

/-- What all calls keep, if pins are added only to chips of which nothing is said. -/
theorem lasting_drawnAs {pins : Nat → Prop}
    (hany : ∀ id, pins id → ∀ d d', g.draft id d → g.draft id d') :
    Lasting pins fun s => s.DrawnAs g where
  remount _ _ h := h.of_chips rfl
  load _ name text h := h.load name text
  resolve s name span h := h.errands (errands_resolve s name span)
  addPin _ id p hid h := h.addPin (hany id hid) p
  emit _ _ h := h.of_chips rfl
  takeAll _ h := h.of_chips rfl
  link _ id h := h.link id

/-- Chips are laid out as long as nobody adds a pin. -/
abbrev Drawn (s : Session) : Prop := s.DrawnAs .plain

theorem lasting_drawn : Lasting (fun _ => False) Drawn :=
  lasting_drawnAs fun _ hfalse => hfalse.elim

end Session

end ChipLogic
