import ChipLogic.Proofs.Session.Circular
import ChipLogic.Proofs.Session.Drawn
import ChipLogic.Proofs.Session.Order
import ChipLogic.Proofs.Session.Respelled
import ChipLogic.Proofs.Session.Sourced

/-!
# Frozen netlists are canonical

A netlist that is frozen where all chips come from texts is canonical
(`Session.canonical_of_freeze`), provided that its parts call gates by their exact names. What it
prints for a chip is the chip of the text in another spelling (`Session.Copies.respells`), because
the wires join what the connections named.
-/

namespace ChipLogic

open Hdl (IsName)

namespace Session

variable {s : Session} {order : List Nat} {n : Netlist} {id : Nat} {c : Chip}

theorem name_of_copyChip {d : Definition} (h : copyChip order d = .ok c) : c.name = d.name := by
  unfold copyChip at h
  cases hp : d.partSlots.toList.mapM (copySlot order) with
  | error e => rw [hp] at h; cases h
  | ok parts => rw [hp] at h; cases h; rfl

theorem name_of_copyPart {p : Part} {i : Instance} (h : copyPart order p = .ok i) :
    i.name = p.chip := by
  unfold copyPart at h
  split at h
  · cases h
  · cases h
    rfl

/-- `c` is the copy of the chip `d` at `x`. -/
structure CopiedFrom (s : Session) (order : List Nat) (c : Chip) (x : Nat) (d : Definition) : Prop where
  definition : s.definition? x = some d
  finished : s.Finished x
  name : c.name = d.name
  gate : c.kind.gate? = d.gate
  pins : c.pins = d.pins
  parts : List.Forall₂ (fun p i => copyPart order p = .ok i) d.parts.toList c.parts.toList

theorem CopiedFrom.sourced {x : Nat} {d : Definition} (h : s.CopiedFrom order c x d)
    (hsrc : s.Sourced) : d.bare.Sourced :=
  hsrc x d.bare (by rw [bare?, h.definition, Option.map_some])

namespace Copies

theorem copied (h : s.Copies order n) (hc : n.chip? id = some c) :
    ∃ x d, order[id]? = some x ∧ s.CopiedFrom order c x d := by
  obtain ⟨x, e, hx, hf, he, hcopy⟩ := h.entry hc
  obtain ⟨hpins, hgate, hparts⟩ := copyChip_eq_ok hcopy
  exact ⟨x, e.definition, hx, definition?_of_entry he, hf, name_of_copyChip hcopy, hgate, hpins, hparts⟩

end Copies

namespace Copies

/-- **What is printed is the chip of the text in another spelling.** -/
theorem respells (h : s.Copies order n) (hw : n.Sound) {g : Drawing} (hd : s.DrawnAs g)
    (hc : n.chip? id = some c) {x : Nat} {d : Definition} (hcopy : s.CopiedFrom order c x d) :
    d.Respells (n.declared c) where
  name := hcopy.name
  gate := hcopy.gate
  pins := (Netlist.pins_declared n c).trans hcopy.pins
  parts := by
    rw [Netlist.parts_declared, Array.toList_map, List.forall₂_map_right_iff]
    refine List.forall₂_iff_zip.2 ⟨hcopy.parts.length_eq, fun {p i} hm => ?_⟩
    have hp : p ∈ d.parts := Array.mem_toList_iff.1 (List.of_mem_zip hm).1
    have hpart := List.forall₂_zip hcopy.parts hm
    obtain ⟨link, hlink, horder, hwires⟩ := copyPart_eq_ok hpart
    obtain ⟨child, hchild⟩ := h.chip?_of_mem_order horder
    obtain ⟨y, inside, hy, hinside⟩ := h.copied hchild
    rw [horder, Option.some.injEq] at hy
    subst hy
    refine ⟨name_of_copyPart hpart, ?_⟩
    rw [Netlist.declaredPart, List.forall₂_map_right_iff, hwires, Netlist.chipAt_eq hchild]
    refine (hd.wired hcopy.finished hcopy.definition hp hlink).imp fun conn w hwired => ?_
    obtain ⟨inner, outer, p, q, hi, ho, hip, hoq, hinner, houter⟩ := hwired
    rw [hinside.definition, Option.some.injEq] at hi
    rw [hcopy.definition, Option.some.injEq] at ho
    subst hi ho
    obtain ⟨hip, hik⟩ := Definition.of_pinNamed? hip
    obtain ⟨hoq, hok⟩ := Definition.of_pinNamed? hoq
    have hip : child.pinAt w.inner = p := Chip.pinAt_eq (by rw [hinside.pins, hip])
    have hoq : c.pinAt w.outer = q := Chip.pinAt_eq (by rw [hcopy.pins, hoq])
    refine ⟨?_, hinner, ?_, houter⟩
    · rw [Wire.connection, hip]
      exact hik
    · rw [Wire.connection, hoq]
      exact hok
  spelled p hp conn hconn := by
    rw [Netlist.parts_declared] at hp
    obtain ⟨i, hi, rfl⟩ := Array.mem_map.1 hp
    obtain ⟨w, hwire, rfl⟩ := List.mem_map.1 hconn
    obtain ⟨child, hchild, -⟩ := (hw.chips id c hc).parts i hi
    have hends := Chip.Sound.ends hw hc hi hchild hwire
    have hmem := Array.mem_of_getElem? hends.outerPin
    rw [hcopy.pins] at hmem
    exact List.mem_map_of_mem (Array.mem_toList_iff.2 hmem)

/-- The inner sides are names of terminals, which have names. -/
theorem isName_inner (h : s.Copies order n) (hw : n.Sound) (hsrc : s.Sourced)
    (hc : n.chip? id = some c) :
    ∀ p ∈ (n.declared c).parts, ∀ conn ∈ p.connections, IsName conn.inner.name := by
  intro p hp conn hconn
  rw [Netlist.parts_declared] at hp
  obtain ⟨i, hi, rfl⟩ := Array.mem_map.1 hp
  obtain ⟨w, hwire, rfl⟩ := List.mem_map.1 hconn
  obtain ⟨child, hchild, -⟩ := (hw.chips id c hc).parts i hi
  have hends := Chip.Sound.ends hw hc hi hchild hwire
  obtain ⟨y, inside, -, hinside⟩ := h.copied hchild
  have hmem : child.pinAt w.inner ∈ inside.terminals := by
    refine List.mem_filter.2 ⟨?_, by simpa [Pin.isTerminal] using hends.joins.terminal⟩
    rw [Array.mem_toList_iff, ← hinside.pins]
    exact Array.mem_of_getElem? hends.innerPin
  rw [Netlist.chipAt_eq hchild]
  exact (hinside.sourced hsrc).isName hmem

/-- The list of chips met goes with the positions in the netlist. -/
theorem biUnique (hn : order.Nodup) : Relator.BiUnique fun (i x : Nat) => order[i]? = some x := by
  refine ⟨fun i j x hi hj => ?_, fun i x y hx hy => Option.some.inj (hx.symm.trans hy)⟩
  obtain ⟨hlt, -⟩ := List.getElem?_eq_some_iff.1 hi
  exact (List.getElem?_inj hlt hn).1 (hi.trans hj.symm)

theorem follows (h : s.Copies order n) : Follows n s fun i x => order[i]? = some x := by
  intro i x hx
  obtain ⟨c, hc⟩ := h.chip?_of_mem_order hx
  obtain ⟨y, d, hy, hcopy⟩ := h.copied hc
  rw [hx, Option.some.injEq] at hy
  subst hy
  refine ⟨d, hcopy.definition, ?_⟩
  rw [Netlist.chipAt_eq hc]
  refine hcopy.parts.flip.imp fun inst p hpart => ?_
  obtain ⟨link, hlink, horder, -⟩ := copyPart_eq_ok hpart
  exact ⟨link.chip, by rw [Part.resolved, hlink, Option.map_some], horder⟩

theorem size_eq (h : s.Copies order n) : n.size = order.length := by
  simpa [Netlist.size] using h.chips.length_eq.symm

/-- **The chips are in the order in which they are met.** -/
theorem ordered (h : s.Copies order n) (hn : order.Nodup) {top : Nat}
    (hreach : s.reach s.chips.size [top] 0 = .ok order) (htop : order[0]? = some top) : n.Ordered := by
  obtain ⟨order', hreach', hall⟩ := reach_follows (biUnique hn) h.follows s.chips.size
    (.cons htop .nil : List.Forall₂ _ [0] [top]) 0
  rw [hreach, Except.ok.injEq] at hreach'
  subst hreach'
  refine Netlist.ordered_of_visit ?_ (h.size_eq ▸ length_le_of_finished hn h.finished)
  refine List.ext_getElem (by rw [hall.length_eq, List.length_range, h.size_eq]) fun k hk hk' => ?_
  have hat := hall.get hk (hall.length_eq ▸ hk)
  have hat' : order[k]? = order[(n.visit s.chips.size [0] 0)[k]]? := by
    rw [List.getElem?_eq_getElem (hall.length_eq ▸ hk)]
    exact hat.symm
  rw [List.getElem_range]
  exact ((List.getElem?_inj (hall.length_eq ▸ hk) hn).1 hat').symm

/-- A part has the name of its chip. -/
theorem named (h : s.Copies order n) (ht : s.Titled) (hc : n.chip? id = some c) {i : Instance}
    (hi : i ∈ c.parts) {inner : Chip} (hd : n.chip? i.chip = some inner) :
    foldCase i.name = foldCase inner.name := by
  obtain ⟨x, d, -, hcopy⟩ := h.copied hc
  obtain ⟨k, hk⟩ := Array.mem_iff_getElem?.1 hi
  obtain ⟨p, hp, hpart⟩ := getElem?_of_forall₂ hcopy.parts (by rw [Array.getElem?_toList]; exact hk)
  obtain ⟨link, hlink, horder, -⟩ := copyPart_eq_ok hpart
  obtain ⟨y, inside, hy, hinside⟩ := h.copied hd
  rw [horder, Option.some.injEq] at hy
  subst hy
  have hat : s.part? x k = some p := by
    rw [part?, hcopy.definition, Option.bind_some, ← Array.getElem?_toList, hp]
  have htarget : s.target? x k = some link.chip := by
    rw [target?, hat, Option.bind_some, Part.resolved, hlink, Option.map_some]
  obtain ⟨p', hp', d', hd', hkey⟩ := ht x k link.chip htarget
  rw [hat, Option.some.injEq] at hp'
  rw [hinside.definition, Option.some.injEq] at hd'
  subst hp' hd'
  rw [name_of_copyPart hpart, hinside.name]
  exact hkey.symm

/-- What is printed for a gate is the gate. -/
theorem bare_gate (h : s.Copies order n) (hw : n.Sound) (hd : s.Drawn) (hsrc : s.Sourced)
    (hc : n.chip? id = some c) {g : Gate} (hg : c.kind = .gate g) :
    (n.declared c).bare = g.definition.bare := by
  obtain ⟨x, d, -, hcopy⟩ := h.copied hc
  have hgate : d.gate = some g := by rw [← hcopy.gate, hg]; rfl
  have hresp := h.respells hw hd hc hcopy
  have hparts := ((hd.sound.sane_definition hcopy.definition).gate g hgate).2
  have hparts' : (n.declared c).parts = #[] := by
    have hnil := hresp.parts
    rw [hparts] at hnil
    simpa using List.forall₂_nil_left_iff.1 hnil
  have hbare : (n.declared c).bare = d.bare :=
    Definition.bare_congr hresp.name (by rw [hresp.terminals]) (by rw [hparts, hparts']) hresp.gate
  rw [hbare]
  rcases hcopy.sourced hsrc with hp | ⟨g', hg'⟩
  · have hnone : d.gate = none := hp.gate
    rw [hgate] at hnone
    cases hnone
  · have hsame : d.gate = some g' := congrArg Definition.gate hg'
    rw [hgate, Option.some.injEq] at hsame
    rw [hg', hsame]

/-- What is printed for any other chip can be printed again. -/
theorem printable (h : s.Copies order n) (hw : n.Sound) (hd : s.Drawn) (hsrc : s.Sourced)
    (hc : n.chip? id = some c) (hk : c.kind = .composite) : (n.declared c).bare.Printable := by
  obtain ⟨x, d, -, hcopy⟩ := h.copied hc
  have hgate : d.gate = none := by rw [← hcopy.gate, hk]; rfl
  have hlaid := (hd.laid_of_finished hcopy.finished).layout d hcopy.definition
  refine (h.respells hw hd hc hcopy).printable hlaid ?_ (h.isName_inner hw hsrc hc)
  rcases hcopy.sourced hsrc with hp | ⟨g, hg⟩
  · exact hp
  · have hsome : d.gate = some g := congrArg Definition.gate hg
    rw [hgate] at hsome
    cases hsome

/-- No two chips have one key. -/
theorem keys (h : s.Copies order n) (hn : order.Nodup) (hs : s.Sound) {i j : Nat} {c d : Chip}
    (hi : n.chip? i = some c) (hj : n.chip? j = some d) (hk : foldCase c.name = foldCase d.name) :
    i = j := by
  obtain ⟨x, dx, hx, hcx⟩ := h.copied hi
  obtain ⟨y, dy, hy, hcy⟩ := h.copied hj
  have hfind := hs.find?_eq hcx.definition
  have hkey : dx.key = dy.key := by rw [Definition.key, Definition.key, ← hcx.name, ← hcy.name, hk]
  rw [hkey, hs.find?_eq hcy.definition, Option.some.injEq] at hfind
  exact (biUnique hn).1 hx (hfind ▸ hy)

/-- **Copies of laid out chips of texts are canonical.** -/
theorem canonical (h : s.Copies order n) (hw : n.Sound) (hn : order.Nodup) (hd : s.Drawn)
    (hsrc : s.Sourced) (ht : s.Titled) (ho : n.Ordered)
    (hexact : ∀ id c, n.chip? id = some c → ∀ p ∈ c.parts, ∀ d g, n.chip? p.chip = some d →
      d.kind = .gate g → p.name = g.name) : n.Canonical where
  sound := hw
  keys _ _ _ _ hi hj hk := h.keys hn hd.sound hi hj hk
  named _ _ hc _ hp _ hd := h.named ht hc hp hd
  exact := hexact
  gate _ _ _ hc hg := h.bare_gate hw hd hsrc hc hg
  printable _ _ hc hk := h.printable hw hd hsrc hc hk
  laidOut id c hc := by
    obtain ⟨x, d, -, hcopy⟩ := h.copied hc
    exact (h.respells hw hd hc hcopy).laidOut (hd.sound.sane_definition hcopy.definition).pins
      ((hd.laid_of_finished hcopy.finished).layout d hcopy.definition)
  ordered := ho

end Copies

/-- **Frozen netlists are canonical** where all chips come from texts and gates go by their exact
names. -/
theorem canonical_of_freeze {disk : Disk} {library : Option String} {script : List Action}
    (hscript : ∀ id p, .addPin id p ∉ script) {top : Nat}
    (hf : ((Session.after { disk, library } script).freeze top).1 = .ok (some n))
    (hexact : ∀ id c, n.chip? id = some c → ∀ p ∈ c.parts, ∀ d g, n.chip? p.chip = some d →
      d.kind = .gate g → p.name = g.name) : n.Canonical := by
  have hr := reachable_after disk library script
  have hd : (Session.after { disk, library } script).Drawn :=
    lasting_drawn.after (fun id p hp => hscript id p hp) (.start rfl disk library)
  have hsrc : (Session.after { disk, library } script).Sourced :=
    lasting_sourced.after (fun id p hp => hscript id p hp) fun id b hb => by
      simp [bare?, Session.definition?_eq] at hb
  have ht := hr.titled
  generalize Session.after { disk, library } script = s at hf hr hd hsrc ht
  have hw := hr.sound.netlist_sound hf
  obtain ⟨hlink, hcopy⟩ := freeze_eq_some hf
  have hfin := finished_of_link hr.sound hlink
  obtain ⟨order, hreach, ⟨rest, rfl⟩, hcopies⟩ := exists_reach_of_copyFrom hcopy hfin
  have hn := nodup_of_reach hreach (List.nodup_singleton top)
  exact hcopies.canonical hw hn (hd.link top) (hsrc.moves (moves_link s top))
    (ht.moves (moves_link s top)) (hcopies.ordered hn hreach rfl) hexact

end Session

end ChipLogic
