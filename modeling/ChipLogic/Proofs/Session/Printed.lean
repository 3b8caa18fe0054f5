import ChipLogic.Proofs.Chip.Rebuild
import ChipLogic.Proofs.Session.Walk

/-!
# Loading printed chips

A session that loads the text of a printable chip registers just this chip
(`Session.addSource_render`).

Chips that come from texts are printable (`Session.exists_of_mem_addSource`), and whatever happens
to them, linked or not, they stay the same bare chips as long as nobody adds a pin
(`Session.lasting_bare`). So their text can always be read back (`Session.render_roundtrip`).
-/

namespace ChipLogic

namespace Definition

variable {d d' : Definition}

theorem bare_push {p : Pin} (d : Definition) (hk : p.kind = .internal) :
    (d.push p).bare = d.bare := by
  have hnet : Pin.isTerminal p = false := by simp [Pin.isTerminal, hk]
  refine bare_congr rfl ?_ rfl rfl
  simp [terminals, List.filter_append, hnet]

theorem bare_setLink (d : Definition) (index : Nat) (link : Link) :
    (d.setLink index link).bare = d.bare := by
  refine bare_congr rfl rfl ?_ rfl
  apply Array.toList_inj.1
  rw [parts_setLink, Array.toList_map, Array.toList_map]
  exact Session.toList_map_modify d.parts index fun _ => rfl

end Definition

namespace Session

variable {s s' : Session} {id : Nat}

/-! ## Bare chips -/

/-- The bare chip at a position. -/
def bare? (s : Session) (id : Nat) : Option Definition :=
  (s.definition? id).map Definition.bare

theorem bare?_modifyDefinition {d : Definition} {f : Definition → Definition}
    {hkey : ∀ d, (f d).key = d.key} (hd : s.definition? id = some d) (hf : (f d).bare = d.bare)
    (a : Nat) : (s.modifyDefinition id f hkey).bare? a = s.bare? a := by
  rw [bare?, bare?, definition?_modifyDefinition_eq]
  split
  · next ha => rw [← ha, hd, Option.map_some, Option.map_some, Option.map_some, hf]
  · rfl

theorem bare?_addPinTo {p : Pin} (hk : p.kind = .internal) (a : Nat) :
    (s.addPinTo id p).2.bare? a = s.bare? a := by
  rcases s.addPinTo_cases id p with ⟨-, hadd⟩ | ⟨d, refusal, -, -, hadd⟩ | ⟨d, hd, -, hadd⟩
  · rw [hadd]
  · exact hadd ▸ rfl
  · exact hadd ▸ bare?_modifyDefinition hd (d.bare_push hk) a

theorem Registers.definition? {ds : List Definition} (h : Registers ds s s') {d : Definition}
    (hd : s.definition? id = some d) : s'.definition? id = some d := by
  obtain ⟨new, -, hchips⟩ := h.chips
  obtain ⟨e, he, rfl⟩ := definition?_eq_some_iff.1 hd
  obtain ⟨hlt, -⟩ := Array.getElem?_eq_some_iff.1 he
  rw [Session.definition?_eq, ← Array.getElem?_toList, hchips,
    List.getElem?_append_left (by simpa using hlt), Array.getElem?_toList, he, Option.map_some]

theorem Registers.bare? {ds : List Definition} (h : Registers ds s s') {b : Definition}
    (hb : s.bare? id = some b) : s'.bare? id = some b := by
  obtain ⟨d, hd, rfl⟩ := Option.map_eq_some_iff.1 hb
  rw [Session.bare?, h.definition? hd, Option.map_some]

/-- Linking chips leaves them as they were declared. -/
theorem Move.bare? (h : Move s s') {b : Definition} (hb : s.bare? id = some b) :
    s'.bare? id = some b := by
  cases h with
  | errand h =>
    cases h with
    | load path known => exact (registers_loadSource s path _).1.bare? hb
    | gate g => exact (registers_register s _).bare? hb
    | remember missing asked => exact hb
    | emitAll other => exact hb
    | net _ kind => rwa [bare?_addPinTo kind]
  | circle name span => exact hb
  | setStatus a status => rwa [Session.bare?, definition?_setStatus]
  | setLink part named =>
    obtain ⟨d, hd, -⟩ := definition?_of_part? part
    rwa [Session.setLink, bare?_modifyDefinition hd (d.bare_setLink _ _)]

theorem Moves.bare? (h : Moves s s') {b : Definition} (hb : s.bare? id = some b) :
    s'.bare? id = some b := by
  induction h with
  | refl => exact hb
  | tail _ hm ih => exact hm.bare? ih

/-- **A chip stays what it was declared as** unless pins are added to it. -/
theorem lasting_bare (id : Nat) (b : Definition) : Lasting (· ≠ id) (·.bare? id = some b) where
  remount _ _ h := h
  load s name text h := (registers_loadSource s name text).1.bare? h
  resolve s name span h := (errands_resolve s name span).moves.bare? h
  addPin s a p ha h := by
    rcases s.addPin_cases a p with hadd | ⟨-, hadd⟩ | hadd
    · exact hadd ▸ h
    · rw [hadd]
      rcases s.addPinTo_cases a p with ⟨-, hadd⟩ | ⟨d, refusal, -, -, hadd⟩ | ⟨d, -, -, hadd⟩
      · exact hadd ▸ h
      · exact hadd ▸ h
      · rw [hadd, bare?, definition?_modifyDefinition_eq, if_neg ha]
        exact h
    · exact hadd ▸ h
  emit _ _ h := h
  takeAll _ h := h
  link s a h := (moves_link s a).bare? h

/-! ## Chips of texts -/

theorem mem_registerAll {ds : List Definition} (h : id ∈ (s.registerAll ds).1) :
    ∃ d ∈ ds, (s.registerAll ds).2.definition? id = some d := by
  induction ds generalizing s with
  | nil => cases h
  | cons d ds ih =>
    have h : id ∈ (s.register d).1.toList ++ ((s.register d).2.registerAll ds).1 := h
    rcases List.mem_append.1 h with hd | hds
    · refine ⟨d, List.mem_cons_self, (registers_registerAll (s.register d).2 ds).definition? ?_⟩
      rw [Option.mem_toList] at hd
      cases hf : s.find? d.key with
      | some other => simp [register, hf] at hd
      | none =>
        obtain rfl : s.chips.size = id := by simpa [register, hf] using hd
        simp [register, hf, Session.definition?_eq]
    · obtain ⟨d', hd', hdef⟩ := ih hds
      exact ⟨d', List.mem_cons_of_mem _ hd', hdef⟩

/-- A faultless text registers its chips. -/
theorem loadSource_of_faultless {path text : String}
    (hp : (Hdl.parse (some s.sources.size) text).faults = [])
    (hb : (Definition.ofDocument (Hdl.parse (some s.sources.size) text).document).faults = []) :
    s.loadSource path text =
      (some ((Session.registerAll { s with sources := s.sources.add path text }
          (s.definitionsOf text)).1),
        (Session.registerAll { s with sources := s.sources.add path text } (s.definitionsOf text)).2) := by
  simp [loadSource, hp, hb, definitionsOf]

/-- A text with a fault registers nothing. -/
theorem fst_addSource_of_fault {name text : String}
    (h : (Hdl.parse (some s.sources.size) text).faults = [] →
      (Definition.ofDocument (Hdl.parse (some s.sources.size) text).document).faults ≠ []) :
    (s.addSource name text).1 = [] := by
  by_cases hp : (Hdl.parse (some s.sources.size) text).faults = []
  · simp [addSource, loadSource, hp, h hp]
  · simp [addSource, loadSource, hp]

/-- A chip that a text registers is built from a node of the text, which is faultless. -/
theorem exists_of_mem_addSource {name text : String} (h : id ∈ (s.addSource name text).1) :
    ∃ node ∈ (Hdl.parse (some s.sources.size) text).document.chips,
      (Definition.ofNode node).2 = [] ∧
        (s.addSource name text).2.definition? id = some (Definition.ofNode node).1 := by
  by_cases hfault : (Hdl.parse (some s.sources.size) text).faults = [] ∧
      (Definition.ofDocument (Hdl.parse (some s.sources.size) text).document).faults = []
  · obtain ⟨hp, hb⟩ := hfault
    rw [addSource, loadSource_of_faultless hp hb] at h ⊢
    obtain ⟨d, hd, hdef⟩ := mem_registerAll h
    obtain ⟨x, hx, rfl⟩ := List.mem_map.1 hd
    obtain ⟨node, hnode, rfl⟩ := List.mem_map.1 hx
    exact ⟨node, hnode, List.flatMap_eq_nil_iff.1 hb _ hx, hdef⟩
  · rw [fst_addSource_of_fault fun hp hb => hfault ⟨hp, hb⟩] at h
    cases h

/-- **Chips of texts are printable.** -/
theorem printable_of_mem_addSource {name text : String} (h : id ∈ (s.addSource name text).1) :
    ∃ d, (s.addSource name text).2.definition? id = some d ∧ d.Printable ∧ d.Declared := by
  obtain ⟨node, hnode, hf, hd⟩ := exists_of_mem_addSource h
  exact ⟨_, hd, Definition.printable_ofNode (Hdl.isName_parse _ text node hnode) hf,
    Definition.declared_ofNode node⟩

/-! ## Loading printed chips -/

/-- **The text of a printable chip registers this chip and nothing else.** -/
theorem addSource_render {d : Definition} (hd : d.Printable) (hs : Pins.Sound d.pins)
    (hnew : s.find? d.key = none) (name : String) : ∃ d' : Definition, d'.bare = d.bare ∧ d'.Declared ∧
      s.addSource name d.render = ([s.chips.size],
        enroll { s with sources := s.sources.add name d.render } d') := by
  have hwidth : ∀ p ∈ d.pins, p.width < UInt32.size := fun p hp =>
    Nat.lt_of_le_of_lt (hs.width_le p hp) (by decide)
  obtain ⟨hfaults, node, hchips, hsame⟩ := Definition.parse_render hd hwidth (some s.sources.size)
  obtain ⟨hnode, hbare⟩ := Definition.ofNode_of_bare_eq hsame hd hs
  have hkey : (Definition.ofNode node).1.key = d.key := by
    rw [Definition.key, (Definition.ofNode_spec node).1]
    exact congrArg (fun node => foldCase node.name) hsame
  refine ⟨(Definition.ofNode node).1, hbare, Definition.declared_ofNode node, ?_⟩
  have hbuilt : Definition.ofDocument (Hdl.parse (some s.sources.size) d.render).document =
      ⟨[(Definition.ofNode node).1], []⟩ := by
    simp [Definition.ofDocument, hchips, hnode]
  have hregister : Session.register { s with sources := s.sources.add name d.render }
      (Definition.ofNode node).1 = (some s.chips.size,
        enroll { s with sources := s.sources.add name d.render } (Definition.ofNode node).1) := by
    have hfind : Session.find? { s with sources := s.sources.add name d.render } d.key = none := hnew
    simp [register, hkey, hfind, chips]
  rw [addSource, loadSource_of_faultless hfaults (by rw [hbuilt]), definitionsOf, hbuilt]
  simp [registerAll, hregister]

/-! ## The round trip -/

/-- **Printing and reading a chip give the chip.** A chip that a text registered is printed,
whatever was done with it since, except that nobody added a pin to it. A new session that loads the
printed text registers one chip and reports nothing, and this chip is the same one up to places,
links and internal nets. So it is printed the same. -/
theorem render_roundtrip {name text : String} (hid : id ∈ (s.addSource name text).1)
    {script : List Action} (hscript : ∀ p, .addPin id p ∉ script) {d : Definition}
    (hd : ((s.addSource name text).2.after script).definition? id = some d) (disk : Disk)
    (library : Option String) (copy : String) :
    ∃ d' s', Session.addSource { disk, library } copy d.render = ([0], s') ∧
      s'.log.history = [] ∧ s'.chips.size = 1 ∧ s'.definition? 0 = some d' ∧ d'.bare = d.bare ∧
      d'.render = d.render := by
  obtain ⟨d₀, hd₀, hprint, hdeclared⟩ := printable_of_mem_addSource hid
  have hbare : d.bare = d₀.bare := by
    have hstay : ((s.addSource name text).2.after script).bare? id = some d₀.bare :=
      (lasting_bare id d₀.bare).after (fun a p ha he => hscript p (he ▸ ha))
        (by rw [bare?, hd₀, Option.map_some])
    simpa [bare?, hd] using hstay
  have hrender : d.render = d₀.render := by
    rw [← d.render_bare, hbare, d₀.render_bare]
  have hnew : Session.find? { disk, library } d₀.key = none := rfl
  obtain ⟨d', hbare', -, hadd⟩ := addSource_render hprint hdeclared.sane.pins hnew copy
  refine ⟨d', _, by rw [hrender]; exact hadd, rfl, rfl, rfl, hbare'.trans hbare.symm, ?_⟩
  rw [← d'.render_bare, hbare', d₀.render_bare, hrender]

/-- A chip with wide pins, nets and all kinds of ranges, in a free spelling. -/
def looseText : String :=
  "// loose\nCHIP Loose \x7b IN a[02],b; OUT y[2],z; PARTS:Nand(a=a[0],B=b,out=N);\n" ++
    "nand(a=N , b=a[01..1],out=y[1]); nand(a=n,b=n,out=y[0]);Nand (a=b,b=b,out=z); \x7d"

/-- The chip is linked, and its net is a fifth pin. -/
def looseLinked : Session :=
  (Session.addSource { disk := .empty } "loose.hdl" looseText).2.after [.link 0]

theorem render_roundtrip_loose :
    looseLinked.log.history = [] ∧ ∃ d, looseLinked.definition? 0 = some d ∧ d.pins.size = 5 ∧
      d.render = "CHIP Loose \x7b\n    IN a[2], b;\n    OUT y[2], z;\n    PARTS:\n" ++
        "    Nand(a=a[0], B=b, out=N);\n    nand(a=N, b=a[1], out=y[1]);\n" ++
        "    nand(a=n, b=n, out=y[0]);\n    Nand(a=b, b=b, out=z);\n\x7d\n" ∧
      ∃ d' s', Session.addSource { disk := .empty } "copy.hdl" d.render = ([0], s') ∧
        s'.log.history = [] ∧ s'.chips.size = 1 ∧ s'.definition? 0 = some d' ∧
        d'.bare = d.bare ∧ d'.render = d.render := by
  have hruns : 0 ∈ (Session.addSource { disk := .empty } "loose.hdl" looseText).1 ∧
      looseLinked.log.history = [] ∧
      (looseLinked.definition? 0).map (fun d => (d.pins.size, d.render)) =
        some (5, "CHIP Loose \x7b\n    IN a[2], b;\n    OUT y[2], z;\n    PARTS:\n" ++
          "    Nand(a=a[0], B=b, out=N);\n    nand(a=N, b=a[1], out=y[1]);\n" ++
          "    nand(a=n, b=n, out=y[0]);\n    Nand(a=b, b=b, out=z);\n\x7d\n") := by
    decide +kernel
  obtain ⟨hid, hhistory, hchip⟩ := hruns
  obtain ⟨d, hd, he⟩ := Option.map_eq_some_iff.1 hchip
  obtain ⟨hsize, htext⟩ := Prod.mk.inj he
  exact ⟨hhistory, d, hd, hsize, htext,
    render_roundtrip hid (by simp) hd .empty none "copy.hdl"⟩

end Session

end ChipLogic
