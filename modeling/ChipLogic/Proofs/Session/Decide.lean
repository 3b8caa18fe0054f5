import ChipLogic.Proofs.Session.Drawn
import ChipLogic.Proofs.Session.Fitting
import ChipLogic.Proofs.Session.Freeze
import Mathlib.Data.List.Perm.Subperm

/-!
# Linking decides validity

Linking is a walk through the parts of chips. It remembers results, marks the chips it is in the
middle of, and makes nets as it meets them. Nevertheless its result says only whether the chip is
linkable (`Session.Linkable`), which knows of no walk.

**A part** (`Session.Linking.linkPart`). Its chip is found, its verdict is known by induction, and
its connections become wires exactly where they fit. Whether a reference that wraps around comes in
time depends on the parts before, and is told from the names that are there if they went well.

**A chip** (`Session.Linking.linkFresh`). If an inner side is missing somewhere, the part with it
does not link and the chip is not linkable. Otherwise all nets have the widths that they should
have, and each part says what it should.

**Circles** (`Session.decides_linkWithin`). The chips in progress are a path that leads to the chip
at hand, so a chip in progress uses itself and is not linkable. They are distinct chips of `s₀`, so
the depth never runs out first.

**Theorem (`Session.Reachable.link_iff_valid`).** Where no reference wraps around, a chip links if
and only if it is valid, whichever chips were linked before. `Session.Reachable.link_iff_linkable`
says the like of all chips.
-/

namespace ChipLogic

namespace Session

variable {s₀ s : Session} {path : List Nat} {d inside : Definition} {parent : Nat}

/-! ## The way to a chip -/

/-- Each chip on a path uses `d`, directly or through others. -/
def Leads (s₀ : Session) (path : List Nat) (d : Definition) : Prop :=
  ∀ a ∈ path, ∃ da, s₀.definition? a = some da ∧ Relation.TransGen s₀.Uses da d

/-- A linker that decides whether a chip at the end of a path is linkable. -/
def Decides (s₀ : Session) (path : List Nat) (linkChild : ChildLinker) : Prop :=
  ∀ child inside name span s, Linking s₀ path s → Stems s₀ s child inside →
    Leads s₀ path inside →
    Linking s₀ path (linkChild child name span s).2 ∧
      ((linkChild child name span s).1 = true ↔ s₀.Linkable inside)

theorem Leads.cons (h : Leads s₀ path d) (hd : s₀.definition? parent = some d)
    (hu : s₀.Uses d inside) : Leads s₀ (parent :: path) inside := by
  intro a ha
  rcases List.mem_cons.1 ha with rfl | ha
  · exact ⟨d, hd, .single hu⟩
  · obtain ⟨da, hda, ht⟩ := h a ha
    exact ⟨da, hda, .tail ht hu⟩

/-- A path is not longer than there are chips at first. -/
theorem Leads.length_le (h : Leads s₀ path d) (hn : path.Nodup) : path.length ≤ s₀.chips.size := by
  have hsub : path ⊆ List.range s₀.chips.size := by
    intro a ha
    obtain ⟨da, hda, -⟩ := h a ha
    obtain ⟨e, he, -⟩ := definition?_eq_some_iff.1 hda
    obtain ⟨hlt, -⟩ := Array.getElem?_eq_some_iff.1 he
    exact List.mem_range.2 hlt
  have hle := (List.subperm_of_subset hn hsub).length_le
  rwa [List.length_range] at hle

theorem Stems.unique (h : Stems s₀ s parent d) (h' : Stems s₀ s parent inside) : d = inside := by
  obtain ⟨now, hnow, hm⟩ := h
  obtain ⟨now', hnow', hm'⟩ := h'
  rw [hnow, Option.some.injEq] at hnow'
  rw [hnow', hm', Option.some.injEq] at hm
  exact hm.symm

/-! ## Parts -/

theorem PartLinkable.offered {p : Part} (h : s₀.PartLinkable d p) : s₀.PartOffered p := by
  obtain ⟨⟨inside, hm, hcs⟩, -⟩ := h
  refine ⟨inside, hm, fun c hc => ?_⟩
  obtain ⟨p, q, ho, -⟩ := hcs c hc
  exact ⟨p, ho⟩

/-- What is known of all parts of a chip decides about the chip. -/
theorem Judges.iff_linkable {indices : List Nat} {ok : Bool} (hg : d.gate = none)
    (h : Judges s₀ path
      (∀ index ∈ indices, ∀ part, d.parts[index]? = some part → s₀.PartOffered part) (s₀.Offered d)
      ((∀ index ∈ indices, ∀ part, d.parts[index]? = some part → s₀.PartLinkable d part) ∧
        WrapsFirst d.names d.outers) ok s)
    (hi : ∀ index < d.parts.size, index ∈ indices) : ok = true ↔ s₀.Linkable d := by
  have hall {P : Part → Prop} (hP : ∀ index ∈ indices, ∀ part, d.parts[index]? = some part → P part)
      (p : Part) (hp : p ∈ d.parts) : P p := by
    obtain ⟨index, hindex⟩ := Array.mem_iff_getElem?.1 hp
    obtain ⟨hlt, -⟩ := Array.getElem?_eq_some_iff.1 hindex
    exact hP index (hi index hlt) p hindex
  rw [linkable_iff hg]
  by_cases ho : s₀.Offered d
  · rw [h.iff ho]
    exact and_congr_left fun _ =>
      ⟨fun hP => hall hP, fun hP _ _ p hp => hP p (Array.mem_of_getElem? hp)⟩
  · refine iff_of_false (fun hok => ho (hall (h.sure hok))) fun hv => ho fun p hp => ?_
    exact (hv.1 p hp).offered

namespace Linking

/-- The part at a position is as it was written. -/
theorem part? (h₀ : s₀.Fresh) (h : Linking s₀ path s) (hd : Stems s₀ s parent d) {index : Nat}
    {part : Part} (hpart : d.parts[index]? = some part) :
    ∃ now, s.part? parent index = some now ∧ now.written = part.written := by
  obtain ⟨d', hd', -, hdraft⟩ := h.definition? h₀ hd
  have hw : (d'.parts.map Part.written)[index]? = some part.written := by
    rw [hdraft.parts, Array.getElem?_map, hpart, Option.map_some]
  rw [Array.getElem?_map] at hw
  obtain ⟨now, hnow, hw⟩ := Option.map_eq_some_iff.1 hw
  exact ⟨now, by rw [Session.part?, hd', Option.bind_some, hnow], hw⟩

/-- The part at a position has a name that means a chip. -/
theorem part_meant (h₀ : s₀.Fresh) (h : Linking s₀ path s) (hd : Stems s₀ s parent d) {index : Nat}
    {part : Part} (hpart : d.parts[index]? = some part) :
    ∃ now inside, s.part? parent index = some now ∧ now.chip = part.chip ∧
      now.connections = part.connections ∧ s₀.meant? part.chip = some inside := by
  obtain ⟨e, -, ht⟩ := h.entry hd
  obtain ⟨inside, hm⟩ := h₀.named_of_meant? ht.meant (Array.mem_of_getElem? hpart)
  obtain ⟨now, hnow, hw⟩ := h.part? h₀ hd hpart
  refine ⟨now, inside, hnow, ?_, ?_, hm⟩
  · exact Part.chip_of_written hw
  · simpa only [Part.written] using congrArg Part.connections hw

/-- The outer sides of a part are as they were written. -/
theorem outersAt (h₀ : s₀.Fresh) (h : Linking s₀ path s) (hd : Stems s₀ s parent d) (index : Nat) :
    s.outersAt parent index = ((d.parts[index]?).map Part.outers).getD [] := by
  obtain ⟨d', hd', -, hdraft⟩ := h.definition? h₀ hd
  have houters : ∀ d : Definition, (d.parts[index]?).map Part.outers =
      ((d.parts.map Part.written)[index]?).map Part.outers := by
    intro d
    rw [Array.getElem?_map, Option.map_map]
    rfl
  rw [Session.outersAt, Session.part?, hd', Option.bind_some, houters d', houters d, hdraft.parts]

theorem setLink (h₀ : s₀.Fresh) (h : Linking s₀ path s) (hp : parent ∈ path)
    (hd : Stems s₀ s parent d) {index : Nat} {part : Part} (hpart : d.parts[index]? = some part)
    (link : Link) : Linking s₀ path (s.setLink parent index link) := by
  obtain ⟨now, hnow, -⟩ := h.part? h₀ hd hpart
  refine h.modifyDefinition h₀ hp hd (advances_setLink ((h.inProgress parent).2 hp) hnow link)
    fun d' _ hdraft => ?_
  exact ⟨hdraft.toGrows.trans (.setLink d' index link), hdraft.nets⟩

/-- The chip of a part and its connections decide about the part. -/
theorem linkWires (h₀ : s₀.Fresh) (h : Linking s₀ path s) (hp : parent ∈ path)
    (hd : Stems s₀ s parent d) {child : Nat} (hc : Stems s₀ s child inside)
    {linkChild : ChildLinker} (hl : Links linkChild) (hdec : Decides s₀ path linkChild)
    (hlead : Leads s₀ path inside)
    {part : Part} (hpart : part ∈ d.parts) (hm : s₀.meant? part.chip = some inside)
    {now : Definition} (hnow : s.definition? parent = some now) (name : String) (span : Span) :
    let linked := linkChild child name span s
    let connected := linked.2.connectAll parent child part.connections
    Judges s₀ path (s₀.PartOffered part) (s₀.Offered d)
      (s₀.PartLinkable d part ∧ WrapsFirst now.names part.outers)
      (linked.1 && connected.1.all Option.isSome) connected.2 ∧ Stems s₀ connected.2 parent d := by
  intro linked connected
  obtain ⟨h₁, hlinkable⟩ := hdec child inside name span s h hc hlead
  have ha : Advances none s linked.2 := hl.advances child name span s
  have hnow₁ : linked.2.definition? parent = some now :=
    (ha.definition?_inProgress ((h.inProgress parent).2 hp) (by simp)).trans hnow
  have hwires := h₁.connectAll h₀ hp (hd.mono ha) (hc.mono ha) hpart hm hnow₁ fun c hc => hc
  have hcs := connects_connectAll child ((h₁.inProgress parent).2 hp) part.connections
  have hchild : Judges s₀ path True (s₀.Offered d) (s₀.Linkable inside) linked.1 linked.2 :=
    ⟨h₁, fun _ => trivial, fun _ => hlinkable⟩
  refine ⟨(hchild.and hwires fun _ => Iff.rfl).congr (fun hsure => ⟨inside, hm, hsure.2⟩) ?_,
    (hd.mono ha).mono hcs.toAdvances⟩
  rw [← and_assoc]
  refine and_congr_left fun _ => ⟨?_, ?_⟩
  · rintro ⟨hv, hall⟩
    refine ⟨⟨inside, hm, hall⟩, fun child' hm' => ?_⟩
    rw [hm, Option.some.injEq] at hm'
    rw [← hm']
    exact hv
  · rintro ⟨⟨inside', hm', hall⟩, hv⟩
    rw [hm, Option.some.injEq] at hm'
    subst hm'
    exact ⟨hv inside hm, hall⟩

/-- **Linking a part** decides whether it is linkable, provided that all inner sides exist. -/
theorem linkPart (h₀ : s₀.Fresh) (h : Linking s₀ path s) (hp : parent ∈ path)
    (hd : Stems s₀ s parent d) (hlead : ∀ inside, s₀.Uses d inside → Leads s₀ path inside)
    (hg : d.gate = none) {linkChild : ChildLinker} (hl : Links linkChild)
    (hdec : Decides s₀ path linkChild) {index : Nat} {part : Part}
    (hpart : d.parts[index]? = some part) {now : Definition}
    (hnow : s.definition? parent = some now) :
    Judges s₀ path (s₀.PartOffered part) (s₀.Offered d)
      (s₀.PartLinkable d part ∧ WrapsFirst now.names part.outers)
      (Session.linkPart linkChild parent index s).1
      (Session.linkPart linkChild parent index s).2 := by
  have hmem : part ∈ d.parts := Array.mem_of_getElem? hpart
  obtain ⟨found, inside, hfound, hchip, hconn, hm⟩ := h.part_meant h₀ hd hpart
  -- the chip that the name means
  obtain ⟨h₁, child, hchild, hstem⟩ := h.resolve h₀ hm found.span
  rw [← hchip] at h₁ hchild hstem
  have hrun := partRun_linkPart linkChild parent index s
  generalize Session.linkPart linkChild parent index s = r at hrun ⊢
  cases hrun with
  | absent missing =>
    rw [hfound] at missing
    cases missing
  | @unresolved found' _ hfound' resolved =>
    obtain rfl : found = found' := Option.some.inj (hfound.symm.trans hfound')
    rw [resolved] at hchild
    cases hchild
  | @steps found' child' ok good wires s₁ s₂ s₃ s₄ steps =>
    obtain rfl : found = found' := Option.some.inj (hfound.symm.trans steps.found)
    rw [steps.resolved] at h₁ hchild hstem
    obtain rfl : child' = child := Option.some.inj hchild
    have hr := advances_of_resolve steps.resolved
    have hnow₁ : s₁.definition? parent = some now :=
      (hr.definition?_inProgress ((h.inProgress parent).2 hp) (by simp)).trans hnow
    obtain ⟨hjudge, hd₂⟩ := h₁.linkWires h₀ hp (hd.mono hr) hstem hl hdec
      (hlead inside ⟨hg, part, hmem, hm⟩) hmem hm hnow₁ found.chip found.span
    rw [steps.linked, ← hconn, steps.connected] at hjudge hd₂
    dsimp only at hjudge hd₂
    rw [steps.verdict] at hjudge
    have hwarned : Linking s₀ path s₄ := by
      rw [steps.warned]
      split
      · exact hjudge.linking.emitAll h₀ _
      · exact hjudge.linking
    exact ⟨hwarned.setLink h₀ hp (hd₂.mono steps.advances_warned) hpart _, hjudge.sure, hjudge.iff⟩

theorem linkParts (h₀ : s₀.Fresh) (h : Linking s₀ path s) (hp : parent ∈ path)
    (hd : Stems s₀ s parent d) (hlead : ∀ inside, s₀.Uses d inside → Leads s₀ path inside)
    (hg : d.gate = none) {linkChild : ChildLinker} (hl : Links linkChild)
    (hdec : Decides s₀ path linkChild) {now : Definition} (hnow : s.definition? parent = some now)
    {indices : List Nat} (hi : ∀ index ∈ indices, index < d.parts.size) :
    Judges s₀ path (∀ index ∈ indices, ∀ part, d.parts[index]? = some part → s₀.PartOffered part)
      (s₀.Offered d)
      ((∀ index ∈ indices, ∀ part, d.parts[index]? = some part → s₀.PartLinkable d part) ∧
        WrapsFirst now.names (indices.flatMap (s.outersAt parent)))
      (Session.linkParts linkChild parent indices s).1
      (Session.linkParts linkChild parent indices s).2 := by
  induction indices generalizing s now with
  | nil => exact .fine h (List.forall_mem_nil _) ⟨List.forall_mem_nil _, wrapsFirst_nil _⟩
  | cons index indices ih =>
    have hs := (h.inProgress parent).2 hp
    obtain ⟨part, hpart⟩ : ∃ part, d.parts[index]? = some part :=
      ⟨_, Array.getElem?_eq_getElem (hi index List.mem_cons_self)⟩
    have hfirst := h.linkPart h₀ hp hd hlead hg hl hdec hpart hnow
    have ha := (linksPart_linkPart hl index hs).advances
    obtain ⟨now', hnow', -⟩ := ha.definition? hnow
    have hrest := ih hfirst.linking (hd.mono ha) hnow' fun i hm => hi i (List.mem_cons_of_mem _ hm)
    -- the names that are there after the first part, and the outer sides of the others
    have houters : (Session.linkPart linkChild parent index s).2.outersAt parent =
        s.outersAt parent :=
      funext fun i => by rw [hfirst.linking.outersAt h₀ (hd.mono ha), h.outersAt h₀ hd]
    have hown : s.outersAt parent index = part.outers := by
      rw [h.outersAt h₀ hd, hpart]
      rfl
    have hnames : (Session.linkPart linkChild parent index s).1 = true →
        now'.names = (part.outers.map Reference.name).foldl meet now.names := by
      intro hok
      obtain ⟨now₂, hnow₂, hgains, -⟩ :=
        (drawsParts_linkPart hl index hs (h.sound h₀) hok).extend now hnow
      obtain rfl : now' = now₂ := Option.some.inj (hnow'.symm.trans hnow₂)
      rw [hgains.names, List.flatMap_singleton, hown]
    rw [houters] at hrest
    refine (hfirst.and hrest fun hok => by rw [hnames hok]).congr ?_ ?_
    · rintro ⟨hthis, hothers⟩
      refine List.forall_mem_cons.2 ⟨fun part hpart' => ?_, hothers⟩
      rw [hpart, Option.some.injEq] at hpart'
      exact hpart' ▸ hthis
    · rw [List.forall_mem_cons, List.flatMap_cons, hown]
      refine and_and_and_comm.trans (and_congr (and_congr_left fun _ => ?_) wrapsFirst_append.symm)
      refine ⟨fun hthis part hpart' => ?_, fun hthis => hthis _ hpart⟩
      rw [hpart, Option.some.injEq] at hpart'
      exact hpart' ▸ hthis

/-! ## Chips -/

/-- Only a gate can be new. -/
theorem definition?_start (h₀ : s₀.Fresh) (h : Linking s₀ path s) (hd : Stems s₀ s parent d)
    (hg : d.gate = none) : s₀.definition? parent = some d := by
  obtain ⟨now, hnow, hm⟩ := hd
  unfold meant? at hm
  split at hm
  · next old hold =>
    -- the chip of that name is still where it was
    obtain ⟨d', hd', hk⟩ := definition?_of_find? hold
    rw [hm, Option.some.injEq] at hd'
    subst hd'
    obtain ⟨now', hnow', hgrows⟩ := h.advances.definition? hm
    have hsame : now'.key = now.key := hgrows.key.trans hk
    have hfind := (h.sound h₀).find?_eq hnow'
    rw [hsame, (h.sound h₀).find?_eq hnow, Option.some.injEq] at hfind
    rw [hfind]
    exact hm
  · obtain ⟨g, -, rfl⟩ := Option.map_eq_some_iff.1 hm
    cases hg

theorem linkGate (h₀ : s₀.Fresh) (h : Linking s₀ path s) (hs : s.status? parent = some .unlinked)
    (hd : Stems s₀ s parent d) (hg : d.gate.isSome) :
    Linking s₀ path (s.setStatus parent (.linked true)) := by
  obtain ⟨e, he, ht⟩ := h.entry hd
  have hnow : s.definition? parent = some e.definition := definition?_of_entry he
  have hg' : e.definition.gate.isSome := by rw [ht.drafted.gate]; exact hg
  refine h.modify (chips_setStatus ..) he
    (.of_fresh h₀ (h.advances.trans (advances_linkGate hs hnow hg')))
    (fun d₁ ht₁ => ⟨ht₁.meant, ht₁.drafted, fun hun => (by cases hun), fun ok hok => ?_⟩)
    fun j => ?_
  · cases hok
    refine iff_of_true rfl (.gate ?_)
    rw [← ht₁.drafted.gate]
    exact hg'
  · rw [← h.inProgress j]
    split
    · next hj => subst hj; simp [hs]
    · rfl

theorem start (h₀ : s₀.Fresh) (h : Linking s₀ path s) (hs : s.status? parent = some .unlinked)
    (hd : Stems s₀ s parent d) : Linking s₀ (parent :: path) (s.setStatus parent .inProgress) := by
  obtain ⟨e, he, ht⟩ := h.entry hd
  refine h.modify (chips_setStatus ..) he (.of_fresh h₀ (h.advances.trans (advances_start hs)))
    (fun d₁ ht₁ => ⟨ht₁.meant, ht₁.drafted, fun hun => (by cases hun), fun ok hok => by cases hok⟩)
    fun j => ?_
  split
  · next hj => simp [hj]
  · next hj => rw [h.inProgress j, List.mem_cons, or_iff_right (Ne.symm hj)]

theorem finish (h : Linking s₀ (parent :: path) s) (hn : parent ∉ path) {ok : Bool}
    (ha : Advances none s₀ (s.setStatus parent (.linked ok))) (hd : Stems s₀ s parent d)
    (hok : ok = true ↔ s₀.Linkable d) : Linking s₀ path (s.setStatus parent (.linked ok)) := by
  obtain ⟨e, he, ht⟩ := h.entry hd
  refine h.modify (chips_setStatus ..) he ha
    (fun d₁ ht₁ => ⟨ht₁.meant, ht₁.drafted, fun hun => (by cases hun), fun ok' hok' => ?_⟩)
    fun j => ?_
  · cases hok'
    rw [hok, Option.some.inj (ht.meant.symm.trans ht₁.meant)]
  · split
    · next hj => subst hj; simp [hn]
    · next hj => rw [h.inProgress j, List.mem_cons, or_iff_right (Ne.symm hj)]

/-- A chip that is not linked is its draft. -/
theorem definition?_unlinked (h : Linking s₀ path s) (hs : s.status? parent = some .unlinked)
    (hd : Stems s₀ s parent d) : s.definition? parent = some d := by
  obtain ⟨e, he, ht⟩ := h.entry hd
  rw [status?_of_entry he, Option.some.injEq] at hs
  rw [definition?_of_entry he, ht.draft hs]

/-- **Linking a chip decides whether it is linkable.** -/
theorem linkFresh (h₀ : s₀.Fresh) (h : Linking s₀ path s) (hs : s.status? parent = some .unlinked)
    (hd : Stems s₀ s parent d) (hlead : Leads s₀ path d) {linkChild : ChildLinker}
    (hl : Links linkChild) (hdec : Decides s₀ (parent :: path) linkChild) :
    Linking s₀ path (Session.linkFresh linkChild parent s).2 ∧
      ((Session.linkFresh linkChild parent s).1 = true ↔ s₀.Linkable d) := by
  have hnow := h.definition?_unlinked hs hd
  have ha := h.advances.trans (linkFresh_spec hl hs).1
  have hrun := freshRun_linkFresh linkChild hs
  generalize Session.linkFresh linkChild parent s = r at hrun ha ⊢
  cases hrun with
  | @gate d' found hg =>
    obtain rfl : d = d' := Option.some.inj (hnow.symm.trans found)
    exact ⟨h.linkGate h₀ hs hd hg, iff_of_true rfl (.gate hg)⟩
  | @parts d' ok s₁ s₂ found hg run warned =>
    obtain rfl : d = d' := Option.some.inj (hnow.symm.trans found)
    have hn : parent ∉ path := by
      rw [← h.inProgress parent, hs]
      simp
    -- its parts
    have h₁ := h.start h₀ hs hd
    have hd₁ := hd.mono (advances_start hs)
    have hnow₁ := (definition?_setStatus s parent .inProgress parent).trans hnow
    have hlead₁ : ∀ inside, s₀.Uses d inside → Leads s₀ (parent :: path) inside :=
      fun inside => hlead.cons (h.definition?_start h₀ hd hg)
    have hp : parent ∈ parent :: path := List.mem_cons_self
    have hin := (h₁.inProgress parent).2 hp
    have hjudge := h₁.linkParts h₀ hp hd₁ hlead₁ hg hl hdec hnow₁ fun index hm =>
      List.mem_range.1 hm
    rw [flatMap_outersAt hnow₁] at hjudge
    have hstep := (linkParts_spec hl (@List.nodup_range d.parts.size) hin).1
    rw [run] at hjudge hstep
    have hok := hjudge.iff_linkable hg fun index hlt => List.mem_range.2 hlt
    have hwarned : Linking s₀ (parent :: path) s₂ := by
      rw [warned]
      split
      · exact hjudge.linking.emitAll h₀ _
      · exact hjudge.linking
    exact ⟨hwarned.finish hn ha ((hd₁.mono hstep).mono (advances_warned warned)) hok, hok⟩

/-! ## Circles -/

/-- A chip in progress uses itself. -/
theorem not_linkable_of_inProgress (h₀ : s₀.Fresh) (h : Linking s₀ path s)
    (hs : s.status? parent = some .inProgress) (hd : Stems s₀ s parent d)
    (hlead : Leads s₀ path d) : ¬ s₀.Linkable d := by
  obtain ⟨da, hda, huses⟩ := hlead parent ((h.inProgress parent).1 hs)
  have hsame : da = d := ((h₀.stems hda).mono h.advances).unique hd
  rw [hsame] at huses
  exact fun hv => hv.not_uses_self huses

end Linking

/-- **The linkers of children decide**, as long as they look deep enough. -/
theorem decides_linkWithin (h₀ : s₀.Fresh) (depth : Nat) {path : List Nat} (hn : path.Nodup)
    (hdepth : s₀.chips.size < depth + path.length) : Decides s₀ path (linkWithin depth) := by
  induction depth generalizing path with
  | zero =>
    intro child inside name span s h hd hlead
    have hle := hlead.length_le hn
    omega
  | succ depth ih =>
    intro child inside name span s h hd hlead
    obtain ⟨e, he, ht⟩ := h.entry hd
    have hst : s.status? child = some e.status := status?_of_entry he
    unfold linkWithin
    rw [hst]
    cases hs : e.status with
    | linked ok => exact ⟨h, ht.verdict ok hs⟩
    | unlinked =>
      rw [hs] at hst
      have hnew : child ∉ path := by
        rw [← h.inProgress child, hst]
        simp
      have hdeep : s₀.chips.size < depth + (child :: path).length := by
        rw [List.length_cons]
        omega
      exact h.linkFresh h₀ hst hd hlead (links_linkWithin depth)
        (ih (List.nodup_cons.2 ⟨hnew, hn⟩) hdeep)
    | inProgress =>
      rw [hs] at hst
      exact ⟨h.report h₀ _ _,
        iff_of_false Bool.false_ne_true (h.not_linkable_of_inProgress h₀ hst hd hlead)⟩

/-! ## Linking from outside -/

theorem Linking.size_le (h : Linking s₀ path s) : s₀.chips.size ≤ s.chips.size := by
  by_contra hlt
  have hget : s₀.chips[s.chips.size]? = some s₀.chips[s.chips.size] :=
    Array.getElem?_eq_getElem (by omega)
  obtain ⟨e', he', -⟩ := h.advances.chips _ _ hget
  simp at he'

theorem Linking.link (h₀ : s₀.Fresh) (h : Linking s₀ [] s) (hd : Stems s₀ s parent d) :
    Linking s₀ [] (s.link parent).2 ∧ ((s.link parent).1 = true ↔ s₀.Linkable d) := by
  obtain ⟨e, he, ht⟩ := h.entry hd
  have hst : s.status? parent = some e.status := status?_of_entry he
  unfold Session.link
  rw [hst]
  cases hs : e.status with
  | linked ok => exact ⟨h, ht.verdict ok hs⟩
  | unlinked =>
    rw [hs] at hst
    have hdeep : s₀.chips.size < s.chipBound + [parent].length := by
      have hle := h.size_le
      unfold chipBound
      rw [List.length_singleton]
      omega
    exact h.linkFresh h₀ hst hd (fun a ha => by cases ha) (links_linkWithin _)
      (decides_linkWithin h₀ _ (by simp) hdeep)
  | inProgress =>
    rw [hs] at hst
    cases (h.inProgress parent).1 hst

/-- Linking any chips, known or not, keeps to the drafts. -/
theorem Linking.linkEach (h₀ : s₀.Fresh) (h : Linking s₀ [] s) (ids : List Nat) :
    Linking s₀ [] (ids.foldl (fun s i => (s.link i).2) s) := by
  induction ids generalizing s with
  | nil => exact h
  | cons i ids ih =>
    refine ih ?_
    show Linking s₀ [] (s.link i).2
    cases hi : s.chips[i]? with
    | some e =>
      obtain ⟨d, ht⟩ := h.tracks e (Array.mem_of_getElem? hi)
      have hd : Stems s₀ s i d := ⟨e.definition, definition?_of_entry hi, ht.meant⟩
      exact (h.link h₀ hd).1
    | none =>
      have hs : s.status? i = none := by rw [status?_eq, hi]; rfl
      unfold Session.link
      rw [hs]
      exact h

theorem Reachable.fresh (h : s.Reachable) (hlib : s.library = none) (herr : s.log.errorCount = 0)
    (hun : ∀ e ∈ s.chips, e.status = .unlinked)
    (hnames : ∀ e ∈ s.chips, ∀ p ∈ e.definition.parts,
      (s.lookup? p.chip).isSome ∨ (Gate.ofName? p.chip).isSome) : s.Fresh := by
  have hclean : s.failed = [] ∧ s.missing = [] := by
    rcases h.candid with he | hclean
    · have hpos := (Log.hasErrors_iff s.log).1 he
      omega
    · exact hclean
  exact ⟨h.sound, hlib, hclean.1, hclean.2, hun, fun e he p hp =>
    meant?_isSome_iff.2 (hnames e he p hp)⟩

/-- **A chip links exactly if it is linkable**, whichever chips were linked before. At first nothing
is linked, no error is reported, and every part has a name that means something. -/
theorem Reachable.link_iff_linkable (h : s.Reachable) (hlib : s.library = none)
    (herr : s.log.errorCount = 0) (hun : ∀ e ∈ s.chips, e.status = .unlinked)
    (hnames : ∀ e ∈ s.chips, ∀ p ∈ e.definition.parts,
      (s.lookup? p.chip).isSome ∨ (Gate.ofName? p.chip).isSome)
    {id : Nat} (hd : s.definition? id = some d) (before : List Nat) :
    ((before.foldl (fun s i => (s.link i).2) s).link id).1 = true ↔ s.Linkable d := by
  have h₀ := h.fresh hlib herr hun hnames
  have hlinking := h₀.linking.linkEach h₀ before
  exact (hlinking.link h₀ ((h₀.stems hd).mono hlinking.advances)).2

/-- **A chip links exactly if it is valid**, whichever chips were linked before. At first nothing is
linked, no error is reported, and every part has a name that means something. No range on the outer
side of a connection ends at the last position. -/
theorem Reachable.link_iff_valid (h : s.Reachable) (hlib : s.library = none)
    (herr : s.log.errorCount = 0) (hun : ∀ e ∈ s.chips, e.status = .unlinked)
    (hnames : ∀ e ∈ s.chips, ∀ p ∈ e.definition.parts,
      (s.lookup? p.chip).isSome ∨ (Gate.ofName? p.chip).isSome)
    (hranges : ∀ e ∈ s.chips, ∀ p ∈ e.definition.parts, ∀ c ∈ p.connections,
      ∀ r, c.outer.range = some r → r.last ≠ max32)
    {id : Nat} (hd : s.definition? id = some d) (before : List Nat) :
    ((before.foldl (fun s i => (s.link i).2) s).link id).1 = true ↔ s.Valid d := by
  have hentry : ∀ e ∈ s.chips, ∀ r ∈ e.definition.outers, ¬ r.WrapsAround := by
    rintro e he r hr ⟨range, hrange, hwrap⟩
    obtain ⟨p, hp, c, hc, rfl⟩ := Definition.mem_outers.1 hr
    exact hranges e he p hp c hc range hrange hwrap.2
  have hmeant : ∀ name d, s.meant? name = some d → ∀ r ∈ d.outers, ¬ r.WrapsAround := by
    intro name d hm r hr
    rcases meant?_cases hm with ⟨e, he, rfl⟩ | ⟨g, rfl⟩
    · exact hentry e he r hr
    · cases g <;> cases hr
  obtain ⟨e, he, rfl⟩ := definition?_eq_some_iff.1 hd
  rw [h.link_iff_linkable hlib herr hun hnames hd before,
    linkable_iff_valid hmeant (hentry e (Array.mem_of_getElem? he))]

theorem crossed_checks : crossed.library = none ∧ crossed.log.errorCount = 0 ∧
    (∀ e ∈ crossed.chips, e.status = .unlinked) ∧
    (∀ e ∈ crossed.chips, ∀ p ∈ e.definition.parts,
      (crossed.lookup? p.chip).isSome ∨ (Gate.ofName? p.chip).isSome) ∧
    (∀ e ∈ crossed.chips, ∀ p ∈ e.definition.parts, ∀ c ∈ p.connections,
      ∀ r ∈ c.outer.range, r.last ≠ max32) ∧
    (crossed.definition? 0).isSome ∧ ((crossed.link 1).2.link 0).1 = true := by
  decide +kernel

theorem Reachable.link_iff_valid_crossed :
    ∃ d, crossed.definition? 0 = some d ∧ ((crossed.link 1).2.link 0).1 = true ∧
      crossed.Valid d := by
  obtain ⟨hlib, herr, hun, hnames, hranges, hsome, hok⟩ := crossed_checks
  obtain ⟨d, hd⟩ := Option.isSome_iff_exists.1 hsome
  have hiff := reachable_crossed.link_iff_valid hlib herr hun hnames hranges hd [1]
  exact ⟨d, hd, hok, hiff.1 hok⟩

end Session

end ChipLogic
