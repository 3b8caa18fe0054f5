import ChipLogic.Proofs.Session.Canonical
import ChipLogic.Proofs.Session.Decide

/-!
# Sessions that read a netlist back

A definition declares a chip of a netlist (`Netlist.Declares`) if it is what the printed text of the
chip says: the terminals, and the parts as they are printed. A session is stocked with a netlist
(`Session.Stocked`) if every name that a part of the netlist may use for a chip means a definition
that declares this chip.

A new session that loads the texts of all composite chips of a canonical netlist is stocked with it,
in whichever order they are loaded (`Session.stocked_after`).
-/

namespace ChipLogic

/-! ## Declarations of chips -/

/-- The bare table is as sound. -/
theorem Pins.Sound.bare {d : Definition} (h : Pins.Sound d.pins) : Pins.Sound d.bare.pins := by
  have hold : ∀ p ∈ d.bare.pins, ∃ q ∈ d.pins, p = q.bare := by
    intro p hp
    rw [Definition.pins_bare, List.mem_toArray] at hp
    obtain ⟨q, hq, rfl⟩ := List.mem_map.1 hp
    exact ⟨q, Array.mem_toList_iff.1 (List.mem_filter.1 hq).1, rfl⟩
  refine ⟨fun p hp => ?_, fun p hp => ?_, ?_⟩
  · obtain ⟨q, hq, rfl⟩ := hold p hp
    exact h.width_pos q hq
  · obtain ⟨q, hq, rfl⟩ := hold p hp
    exact h.width_le q hq
  · have hkeys : d.bare.pins.toList.map Pin.key = d.terminals.map Pin.key := by
      simp [Pin.key, Pin.bare, Function.comp_def]
    rw [hkeys]
    exact (List.filter_sublist.map _).nodup h.nodup

/-- The definition is what the printed text of the chip says. -/
structure Netlist.Declares (n : Netlist) (c : Chip) (d : Definition) : Prop where
  bare : d.bare = (n.declared c).bare
  raw : d.Raw

/-- A part may call the chip by this name: in any spelling, but a gate by its exact name. -/
def Chip.Called (c : Chip) (name : String) : Prop :=
  foldCase name = foldCase c.name ∧ ∀ g, c.kind = .gate g → name = g.name

namespace Netlist.Declares

variable {n : Netlist} {c : Chip} {d : Definition}

theorem name (h : n.Declares c d) : d.name = c.name := congrArg Definition.name h.bare

theorem gate (h : n.Declares c d) : d.gate = c.kind.gate? := congrArg Definition.gate h.bare

/-- The pins are the terminals of the chip. -/
theorem pins (h : n.Declares c d) :
    d.pins.toList.map Pin.bare = (c.pins.toList.filter Pin.isTerminal).map Pin.bare := by
  have hpins := Definition.map_bare_terminals_of_bare h.bare
  rwa [h.raw, Definition.terminals, pins_declared] at hpins

/-- A terminal of the chip is declared. -/
theorem exists_pin (h : n.Declares c d) {p : Pin} (hp : p ∈ c.pins) (ht : p.kind ≠ .internal) :
    ∃ q ∈ d.pins, q.bare = p.bare :=
  Definition.exists_pin_of_bare h.bare ((pins_declared n c).symm ▸ hp) ht

/-- What is declared is a terminal of the chip. -/
theorem exists_terminal (h : n.Declares c d) {q : Pin} (hq : q ∈ d.pins) :
    ∃ p ∈ c.pins, p.kind ≠ .internal ∧ q.bare = p.bare := by
  have hmem : q.bare ∈ d.pins.toList.map Pin.bare := List.mem_map_of_mem (Array.mem_toList_iff.2 hq)
  rw [h.pins] at hmem
  obtain ⟨p, hp, he⟩ := List.mem_map.1 hmem
  obtain ⟨hp, ht⟩ := List.mem_filter.1 hp
  exact ⟨p, Array.mem_toList_iff.1 hp, by simpa [Pin.isTerminal] using ht, he.symm⟩

/-- The parts are those of the chip, with connections as they are printed. -/
theorem parts (h : n.Declares c d) : List.Forall₂ (fun p i => p.chip = Instance.name i ∧
    p.connections.map Connection.bare = i.wires.map fun w => w.connection (n.chipAt i.chip) c)
      d.parts.toList c.parts.toList := by
  have hparts := congrArg (fun b => b.parts.toList) h.bare
  simp only [Definition.parts_bare, parts_declared, Array.toList_map, List.map_map] at hparts
  refine (map_eq_map_iff_forall₂.1 hparts).imp fun p i he => ⟨congrArg Part.chip he, ?_⟩
  have hcs := congrArg Part.connections he
  simpa [Part.bare, Netlist.declaredPart, Function.comp_def, Connection.bare, Wire.connection,
    Reference.bare] using hcs

end Netlist.Declares

/-! ## Loading -/

namespace Netlist

variable {n : Netlist} {c : Chip} {id : Nat}

/-- The positions of the chips that are no gates. -/
def composites (n : Netlist) : List Nat :=
  (List.range n.size).filter fun id => (n.chipAt id).kind == .composite

theorem mem_composites : id ∈ n.composites ↔ ∃ c, n.chip? id = some c ∧ c.kind = .composite := by
  simp only [composites, List.mem_filter, List.mem_range, beq_iff_eq]
  constructor
  · rintro ⟨hlt, hk⟩
    have hc : n.chip? id = some n.chips[id] := Array.getElem?_eq_getElem hlt
    exact ⟨_, hc, chipAt_eq hc ▸ hk⟩
  · rintro ⟨c, hc, hk⟩
    exact ⟨(Array.getElem?_eq_some_iff.1 hc).1, (chipAt_eq hc).symm ▸ hk⟩

theorem nodup_composites (n : Netlist) : n.composites.Nodup := List.nodup_range.filter _

/-- The calls that load the printed chips at some positions, each under a name. -/
def loads (n : Netlist) (files : List (String × Nat)) : List Session.Action :=
  files.map fun f => .addSource f.1 ((n.render? f.2).getD "")

theorem not_addPin_mem_loads (n : Netlist) {files : List (String × Nat)} {id : Nat} {p : Pin} :
    .addPin id p ∉ n.loads files := by
  simp [loads]

end Netlist

namespace Session

variable {n : Netlist} {s : Session} {ids : List Nat}

/-- The chips of the session are some of the netlist, as they are printed, and nothing else has
happened. -/
structure Loaded (n : Netlist) (ids : List Nat) (s : Session) : Prop where
  library : s.library = none
  history : s.log.history = []
  failed : s.failed = []
  missing : s.missing = []
  chips : List.Forall₂ (fun id (e : Entry) => e.status = .unlinked ∧
    e.definition.bare = (n.declared (n.chipAt id)).bare) ids s.chips.toList

namespace Loaded

theorem exists_of_definition? (h : Loaded n ids s) {x : Nat} {d : Definition}
    (hd : s.definition? x = some d) :
    ∃ id, ids[x]? = some id ∧ d.bare = (n.declared (n.chipAt id)).bare := by
  obtain ⟨e, he, rfl⟩ := definition?_eq_some_iff.1 hd
  obtain ⟨id, hid, -, hbare⟩ := getElem?_of_forall₂ h.chips (by rw [Array.getElem?_toList]; exact he)
  exact ⟨id, hid, hbare⟩

/-- The text of another chip registers this chip. -/
theorem addSource (h : Loaded n ids s) (hn : n.Canonical) (hids : ∀ j ∈ ids, j ∈ n.composites)
    {id : Nat} (hid : id ∈ n.composites) (hnew : id ∉ ids) (path : String) :
    Loaded n (ids ++ [id]) (s.addSource path ((n.render? id).getD "")).2 := by
  obtain ⟨c, hc, hk⟩ := Netlist.mem_composites.1 hid
  have hsound : Pins.Sound (n.declared c).pins :=
    (Netlist.pins_declared n c).symm ▸ (hn.sound.chips id c hc).pins
  have hfind : s.find? (n.declared c).bare.key = none := by
    refine find?_eq_none_iff.2 fun x d hd he => ?_
    obtain ⟨j, hj, hbare⟩ := h.exists_of_definition? hd
    have hmem := List.mem_of_getElem? hj
    obtain ⟨c', hc', -⟩ := Netlist.mem_composites.1 (hids j hmem)
    rw [Netlist.chipAt_eq hc'] at hbare
    have hname : d.name = c'.name := congrArg Definition.name hbare
    have hsame : j = id := hn.keys j id c' c hc' hc (by rw [← hname]; exact he)
    exact hnew (hsame ▸ hmem)
  obtain ⟨d, hbare, hdecl, hadd⟩ := addSource_render (hn.printable id c hc hk) hsound.bare hfind path
  rw [hn.sound.render?_eq hc, Option.getD_some, ← (n.declared c).render_bare, hadd]
  refine ⟨h.library, h.history, by rw [enroll, h.failed]; rfl, h.missing, ?_⟩
  rw [chips_enroll, Array.toList_push]
  refine List.rel_append h.chips (.cons ⟨rfl, ?_⟩ .nil)
  rw [Netlist.chipAt_eq hc, hbare, Definition.bare_bare]

/-- The texts may be loaded one after the other. -/
theorem after (h : Loaded n ids s) (hn : n.Canonical) (hids : ∀ j ∈ ids, j ∈ n.composites)
    {files : List (String × Nat)} (hfiles : ∀ f ∈ files, f.2 ∈ n.composites)
    (hnodup : (ids ++ files.map Prod.snd).Nodup) : Loaded n (ids ++ files.map Prod.snd)
      (s.after (n.loads files)) := by
  induction files generalizing ids s with
  | nil => simpa [Session.after, Netlist.loads] using h
  | cons f files ih =>
    obtain ⟨hf, hfiles⟩ := List.forall_mem_cons.1 hfiles
    have hnew : f.2 ∉ ids := by
      rw [List.nodup_append] at hnodup
      exact fun hm => hnodup.2.2 f.2 hm f.2 List.mem_cons_self rfl
    have hids' : ∀ j ∈ ids ++ [f.2], j ∈ n.composites := by
      rintro j hj
      rcases List.mem_append.1 hj with hj | hj
      · exact hids j hj
      · exact List.mem_singleton.1 hj ▸ hf
    have hrest := ih (h.addSource hn hids hf hnew f.1) hids' hfiles (by simpa using hnodup)
    simpa [Session.after, Netlist.loads, Action.run] using hrest

end Loaded

end Session

/-! ## Names -/

theorem Gate.ofName?_name (g : Gate) : Gate.ofName? g.name = some g := by
  cases g <;> rfl

/-- A part calls its chip by a name that means it. -/
theorem Netlist.Canonical.called {n : Netlist} (hn : n.Canonical) {id : Nat} {c d : Chip}
    (hc : n.chip? id = some c) {p : Instance} (hp : p ∈ c.parts) (hd : n.chip? p.chip = some d) :
    d.Called p.name :=
  ⟨hn.named id c hc p hp d hd, fun g hg => hn.exact id c hc p hp d g hd hg⟩

namespace Session

variable {n : Netlist} {s : Session} {ids : List Nat}

/-- Every name that a part may use for a chip of the netlist means a declaration of this chip. -/
def Means (n : Netlist) (s : Session) : Prop :=
  ∀ id c, n.chip? id = some c → ∀ name, c.Called name → ∃ d, s.meant? name = some d ∧ n.Declares c d

/-- Nothing is linked yet, and all chips of the netlist are known. -/
structure Stocked (n : Netlist) (s : Session) : Prop where
  fresh : s.Fresh
  means : s.Means n

/-- A name of a chip leads to the chip that was loaded for it, and else to the gate. -/
theorem Loaded.means (h : Loaded n ids s) (hn : n.Canonical) (hd : s.Drawn)
    (hids : ∀ id, id ∈ ids ↔ id ∈ n.composites) : s.Means n := by
  intro id c hc name hcalled
  cases hk : c.kind with
  | composite =>
    have hmem : id ∈ ids := (hids id).2 (Netlist.mem_composites.2 ⟨c, hc, hk⟩)
    obtain ⟨x, hx⟩ := List.mem_iff_getElem?.1 hmem
    obtain ⟨e, he, hst, hbare⟩ := getElem?_of_forall₂ h.chips.flip hx
    rw [Array.getElem?_toList] at he
    rw [Netlist.chipAt_eq hc] at hbare
    have hdecl : n.Declares c e.definition := ⟨hbare, hd.draft x e he hst⟩
    have hlookup : s.lookup? name = some x := by
      rw [lookup?, hcalled.1, ← hdecl.name]
      exact hd.sound.find?_eq (definition?_of_entry he)
    exact ⟨e.definition, by rw [meant?, hlookup]; exact definition?_of_entry he, hdecl⟩
  | gate g =>
    have hname := hcalled.2 g hk
    have hlookup : s.lookup? name = none := by
      refine find?_eq_none_iff.2 fun x d hdef he => ?_
      obtain ⟨j, hj, hbare⟩ := h.exists_of_definition? hdef
      obtain ⟨c', hc', hk'⟩ := Netlist.mem_composites.1 ((hids j).1 (List.mem_of_getElem? hj))
      rw [Netlist.chipAt_eq hc'] at hbare
      have hd' : d.name = c'.name := congrArg Definition.name hbare
      have hsame : j = id := by
        refine hn.keys j id c' c hc' hc ?_
        rw [← hd', ← hcalled.1]
        exact he
      subst hsame
      rw [hc, Option.some.injEq] at hc'
      rw [← hc', hk] at hk'
      cases hk'
    refine ⟨g.definition, ?_, (hn.gate id c g hc hk).symm, g.raw_definition⟩
    rw [meant?, hlookup, hname, Gate.ofName?_name, Option.map_some]

/-- **All texts together stock a session.** -/
theorem Loaded.stocked (h : Loaded n ids s) (hn : n.Canonical) (hd : s.Drawn)
    (hids : ∀ id, id ∈ ids ↔ id ∈ n.composites) : s.Stocked n := by
  have hmeans := h.means hn hd hids
  refine ⟨⟨hd.sound, h.library, h.failed, h.missing, fun e he => ?_, fun e he p hp => ?_⟩, hmeans⟩
  · obtain ⟨x, hx⟩ := Array.mem_iff_getElem?.1 he
    obtain ⟨id, -, hst, -⟩ := getElem?_of_forall₂ h.chips (by rw [Array.getElem?_toList]; exact hx)
    exact hst
  · obtain ⟨x, hx⟩ := Array.mem_iff_getElem?.1 he
    obtain ⟨id, hid, hst, hbare⟩ :=
      getElem?_of_forall₂ h.chips (by rw [Array.getElem?_toList]; exact hx)
    obtain ⟨c, hc, -⟩ := Netlist.mem_composites.1 ((hids id).1 (List.mem_of_getElem? hid))
    rw [Netlist.chipAt_eq hc] at hbare
    have hdecl : n.Declares c e.definition := ⟨hbare, hd.draft x e hx hst⟩
    obtain ⟨i, hi, hchip, -⟩ := forall₂_of_mem_right hdecl.parts (Array.mem_toList_iff.2 hp)
    have hi := Array.mem_toList_iff.1 hi
    obtain ⟨inner, hinner, -⟩ := (hn.sound.chips id c hc).parts i hi
    obtain ⟨d, hmeant, -⟩ := hmeans i.chip inner hinner i.name (hn.called hc hi hinner)
    rw [hchip, hmeant]
    rfl

/-- **A new session that loads the texts of all chips is stocked with them**, whatever their order.
-/
theorem stocked_after (hn : n.Canonical) (disk : Disk) {files : List (String × Nat)}
    (hfiles : (files.map Prod.snd).Perm n.composites) :
    (Session.after { disk } (n.loads files)).Stocked n ∧
      (Session.after { disk } (n.loads files)).Drawn ∧
      (Session.after { disk } (n.loads files)).log.history = [] := by
  have hstart : Loaded n [] { disk } := ⟨rfl, rfl, rfl, rfl, .nil⟩
  have hmem : ∀ f ∈ files, f.2 ∈ n.composites := fun f hf =>
    hfiles.subset (List.mem_map_of_mem hf)
  have hloaded := hstart.after hn (List.forall_mem_nil _) hmem
    (hfiles.nodup_iff.2 n.nodup_composites)
  have hdrawn : Session.Drawn (Session.after { disk } (n.loads files)) :=
    lasting_drawn.after (fun id p hp => n.not_addPin_mem_loads hp) (.start rfl disk none)
  exact ⟨hloaded.stocked hn hdrawn fun id => hfiles.mem_iff, hdrawn, hloaded.history⟩

end Session

end ChipLogic
