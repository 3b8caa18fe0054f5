import ChipLogic.Proofs.Hdl.Places
import ChipLogic.Proofs.Session.LinkSteps
import ChipLogic.Proofs.Session.Script
import Mathlib.Algebra.Order.BigOperators.Group.List
import Mathlib.Algebra.Order.Group.Nat
import Mathlib.Data.List.Flatten
import Mathlib.Data.List.Nodup
import Mathlib.Data.List.Perm.Subperm

/-!
# What loading adds

Registering definitions puts those with new keys after the chips that are there already, in their
order, and reports the others (`Session.Registers`). Loading a text registers the definitions of its
chips, or nothing (`Session.registers_loadSource`).

Two tables follow from that.

**Keys** (`Session.Roofed`). Every chip that is ever loaded stands in a text of the disk or is a
gate, so all keys lie under one roof, and with it the number of chips (`Session.Roofed.size_le`).
The roof is no larger than `Session.chipBound` (`Session.roofed_roof`).

**Places** (`Session.Placed`). No two parts of a session start at one place: in one text they start
at different tokens, and each text that is loaded gets a file number of its own.
-/

namespace ChipLogic

/-! ## Definitions of a text -/

namespace Definition

theorem declare_spec (d : Definition) (ps : List Pin) :
    (d.declare ps).1.name = d.name ∧ (d.declare ps).1.parts = d.parts := by
  refine declare_keeps (P := fun d' => d'.name = d.name ∧ d'.parts = d.parts) ⟨rfl, rfl⟩ ?_
  exact fun _ _ _ _ h => h

theorem ofNode_spec (c : Hdl.ChipNode) : (ofNode c).1.name = c.name ∧
    (ofNode c).1.parts = (c.parts.map Hdl.PartNode.part).toArray := by
  obtain ⟨hname, hparts⟩ := declare_spec ({ name := c.name, span := c.nameSpan
                                            partSlots := numbered (c.parts.map (·.part)).toArray } :
    Definition) c.pins
  exact ⟨hname, hparts.trans (parts_mk ..)⟩

/-- The places of the parts. -/
def places (d : Definition) : List (Option Nat × Nat) :=
  d.parts.toList.map (·.span.place)

theorem places_eq_written (d : Definition) :
    d.places = (d.parts.map Part.written).toList.map (·.span.place) := by
  rw [Array.toList_map, List.map_map]
  rfl

theorem Grows.places {d d' : Definition} (h : d.Grows d') : d'.places = d.places := by
  rw [places_eq_written, places_eq_written, h.parts]

theorem places_ofDocument (doc : Hdl.Document) :
    (ofDocument doc).definitions.flatMap places = doc.parts.map (·.span.place) := by
  have hnode : ∀ c : Hdl.ChipNode, (ofNode c).1.places = c.parts.map (·.span.place) := by
    intro c
    simp [places, (ofNode_spec c).2, Hdl.PartNode.part]
  simp [ofDocument, Hdl.Document.parts, hnode, List.flatMap_map, List.map_flatMap]

theorem isCircle_ofDocument (doc : Hdl.Document) :
    ∀ e ∈ (ofDocument doc).faults, e.isCircle = false := by
  intro e he
  obtain ⟨chip, pin, refusal, span, rfl⟩ := exists_refusal_of_mem_ofDocument he
  exact Problem.isCircle_report (by simp) span

end Definition

theorem Hdl.AllFaults.isCircle {ds : List Diagnostic} (h : Hdl.AllFaults ds) :
    ∀ d ∈ ds, d.isCircle = false := by
  intro d hd
  obtain ⟨f, span, rfl⟩ := h d hd
  cases f <;> rfl

namespace Session

variable {s s' s'' : Session} {ds : List Definition}

/-- The diagnostics of circles, in order. -/
def circles (s : Session) : List Diagnostic :=
  s.log.history.filter Diagnostic.isCircle

theorem circles_emitAll (s : Session) (ds : List Diagnostic) :
    (s.emitAll ds).circles = s.circles ++ ds.filter Diagnostic.isCircle :=
  List.filter_append ..

theorem circles_emitAll_of_not {ds : List Diagnostic} (h : ∀ d ∈ ds, d.isCircle = false)
    (s : Session) : (s.emitAll ds).circles = s.circles := by
  have hnil : ds.filter Diagnostic.isCircle = [] :=
    List.filter_eq_nil_iff.2 fun d hd => by simp [h d hd]
  rw [circles_emitAll, hnil, List.append_nil]

/-! ## Registering -/

/-- Some of the definitions are registered, in order, and no circle is reported. -/
structure Registers (ds : List Definition) (s s' : Session) : Prop where
  disk : s'.disk = s.disk
  sources : s.sources.size ≤ s'.sources.size
  circles : s'.circles = s.circles
  chips : ∃ new : List Definition, new.Sublist ds ∧
    s'.chips.toList = s.chips.toList ++ new.map fun d => { definition := d }

theorem registers_nil (hd : s'.disk = s.disk) (hf : s.sources.size ≤ s'.sources.size)
    (hc : s'.circles = s.circles) (h : s'.chips = s.chips) : Registers [] s s' :=
  ⟨hd, hf, hc, [], List.Sublist.refl _, by simp [h]⟩

theorem Registers.append {ds' : List Definition} (h : Registers ds s s')
    (h' : Registers ds' s' s'') : Registers (ds ++ ds') s s'' where
  disk := h'.disk.trans h.disk
  sources := Nat.le_trans h.sources h'.sources
  circles := h'.circles.trans h.circles
  chips := by
    obtain ⟨new, hnew, hchips⟩ := h.chips
    obtain ⟨new', hnew', hchips'⟩ := h'.chips
    exact ⟨new ++ new', hnew.append hnew', by simp [hchips', hchips]⟩

theorem Registers.mono {ds' : List Definition} (h : Registers ds s s') (hs : ds.Sublist ds') :
    Registers ds' s s' :=
  ⟨h.disk, h.sources, h.circles, h.chips.imp fun _ hnew => ⟨hnew.1.trans hs, hnew.2⟩⟩

theorem registers_register (s : Session) (d : Definition) : Registers [d] s (s.register d).2 := by
  unfold register
  split
  · refine .mono (registers_nil rfl (Nat.le_refl _) ?_ rfl) (List.nil_sublist _)
    exact circles_emitAll_of_not (List.forall_mem_singleton.2
      (Problem.isCircle_report (by simp) _)) s
  · exact ⟨rfl, Nat.le_refl _, rfl, [d], List.Sublist.refl _, by simp⟩

theorem registers_registerAll (s : Session) (ds : List Definition) :
    Registers ds s (s.registerAll ds).2 := by
  induction ds generalizing s with
  | nil => exact registers_nil rfl (Nat.le_refl _) rfl rfl
  | cons d ds ih => exact (registers_register s d).append (ih _)

/-! ## Loading -/

/-- The definitions of the chips of a text that is loaded next. -/
def definitionsOf (s : Session) (text : String) : List Definition :=
  (Definition.ofDocument (Hdl.parse (some s.sources.size) text).document).definitions

theorem registers_loadSource (s : Session) (path text : String) :
    Registers (s.definitionsOf text) s (s.loadSource path text).2 ∧
      s.sources.size < (s.loadSource path text).2.sources.size := by
  have hsize : (s.sources.add path text).size = s.sources.size + 1 := Array.size_push ..
  have hadd : Registers [] s { s with sources := s.sources.add path text } :=
    registers_nil rfl (by rw [hsize]; exact Nat.le_succ _) rfl rfl
  unfold loadSource definitionsOf
  dsimp only
  generalize hp : Hdl.parse (some s.sources.size) text = parsed
  generalize hb : (if parsed.faults.isEmpty then Definition.ofDocument parsed.document
    else ⟨[], []⟩) = built
  have hds : built.definitions.Sublist (Definition.ofDocument parsed.document).definitions := by
    rw [← hb]
    split
    · exact List.Sublist.refl _
    · exact List.nil_sublist _
  split
  · have hall := registers_registerAll { s with sources := s.sources.add path text }
      built.definitions
    exact ⟨(hadd.append hall).mono hds, Nat.lt_of_lt_of_le (by rw [hsize]; omega) hall.sources⟩
  · have hfaults : ∀ d ∈ parsed.faults ++ built.faults, d.isCircle = false := by
      refine List.forall_mem_append.2 ⟨?_, ?_⟩
      · rw [← hp]
        exact (Hdl.allFaults_parse _ _).isCircle
      · rw [← hb]
        split
        · exact Definition.isCircle_ofDocument _
        · exact List.forall_mem_nil _
    have hemit : Registers [] { s with sources := s.sources.add path text }
        { emitAll { s with sources := s.sources.add path text } (parsed.faults ++ built.faults) with
          failed := s.failed ++ parsed.document.chips.map fun c => foldCase c.name } :=
      registers_nil rfl (Nat.le_refl _) (circles_emitAll_of_not hfaults _) rfl
    exact ⟨(hadd.append hemit).mono (List.nil_sublist _), by
      show s.sources.size < (s.sources.add path text).size
      omega⟩

/-- The key of a chip is a word of its text. -/
theorem key_of_mem_definitionsOf {text : String} {d : Definition}
    (hd : d ∈ s.definitionsOf text) :
    ∃ p ∈ Hdl.Piece.split text.toList, d.key = foldCase (String.ofList p.text) := by
  obtain ⟨x, hx, rfl⟩ := List.mem_map.1 hd
  obtain ⟨c, hc, rfl⟩ := List.mem_map.1 hx
  obtain ⟨word, hm, he⟩ := (Hdl.plain_parse _ text c hc).name
  exact ⟨_, hm, by rw [Definition.key, (Definition.ofNode_spec c).1, he]; rfl⟩

/-- Definitions of a text have no links. -/
theorem declared_of_mem_definitionsOf {text : String} {d : Definition}
    (hd : d ∈ s.definitionsOf text) : d.Declared :=
  Definition.declared_ofDocument _ d hd

/-! ## What a move keeps -/

/-- The places of all parts. -/
def places (s : Session) : List (Option Nat × Nat) :=
  s.chips.toList.flatMap fun e => e.definition.places

/-- The chips keep their keys and the places of their parts. -/
structure Retains (s s' : Session) : Prop where
  disk : s'.disk = s.disk
  sources : s'.sources = s.sources
  keys : s'.chips.toList.map (·.definition.key) = s.chips.toList.map (·.definition.key)
  places : s'.places = s.places

theorem retains_of_chips (hd : s'.disk = s.disk) (hs : s'.sources = s.sources)
    (h : s'.chips = s.chips) : Retains s s' :=
  ⟨hd, hs, by rw [h], by rw [Session.places, h]; rfl⟩

theorem toList_map_modify {α β : Type} (xs : Array α) (i : Nat) {f : α → α} {g : α → β}
    (h : ∀ x, g (f x) = g x) : (xs.modify i f).toList.map g = xs.toList.map g := by
  apply List.ext_getElem?
  intro j
  simp only [List.getElem?_map, Array.getElem?_toList, Array.getElem?_modify]
  split
  · cases xs[j]? with
    | none => rfl
    | some x => exact congrArg some (h x)
  · rfl

theorem retains_modify {id : Nat} {f : Entry → Entry} {r : Registry}
    (hc : r.entries = s.chips.modify id f) (hk : ∀ e, (f e).definition.key = e.definition.key)
    (hp : ∀ e, (f e).definition.places = e.definition.places) :
    Retains s { s with registry := r } := by
  refine ⟨rfl, rfl, ?_, ?_⟩
  · rw [chips, hc]
    exact toList_map_modify s.chips id hk
  · simp only [Session.places, List.flatMap_def]
    rw [chips, hc, toList_map_modify s.chips id hp]

theorem retains_addPinTo (s : Session) (id : Nat) (p : Pin) :
    Retains s (s.addPinTo id p).2 := by
  rcases s.addPinTo_cases id p with ⟨-, hadd⟩ | ⟨d, refusal, -, -, hadd⟩ | ⟨d, -, -, hadd⟩
  · exact hadd ▸ retains_of_chips rfl rfl rfl
  · exact hadd ▸ retains_of_chips rfl rfl rfl
  · exact hadd ▸ retains_modify (s.chips_modifyDefinition id _ fun d => d.key_push p)
      (fun e => e.definition.key_push p) fun _ => rfl

/-- A move registers definitions of a text of the disk or of a gate, or it keeps keys and places. -/
theorem Move.cases_tables (h : Move s s') :
    (∃ path text, text ∈ s.disk.texts ∧ s' = (s.loadSource path text).2) ∨
      (∃ g : Gate, Registers [g.definition] s s') ∨ Retains s s' := by
  cases h with
  | errand h =>
    cases h with
    | load path known => exact .inl ⟨path, _, known, rfl⟩
    | gate g => exact .inr (.inl ⟨g, registers_register s _⟩)
    | remember missing asked => exact .inr (.inr (retains_of_chips rfl rfl rfl))
    | emitAll other => exact .inr (.inr (retains_of_chips rfl rfl rfl))
    | net _ _ => exact .inr (.inr (retains_addPinTo _ _ _))
  | circle name span => exact .inr (.inr (retains_of_chips rfl rfl rfl))
  | setStatus id status =>
    exact .inr (.inr (retains_modify (chips_setStatus ..) (fun _ => rfl) fun _ => rfl))
  | @setLink id index _ part link named =>
    exact .inr (.inr (retains_modify
      (s.chips_modifyDefinition id _ fun d => d.key_setLink index link) (fun _ => rfl) fun e =>
        (Definition.Grows.setLink e.definition index link).places))

/-! ## Keys -/

/-- All keys that can come up are among `K`. -/
structure Roofed (K : List String) (s : Session) : Prop where
  keys : ∀ key ∈ s.chips.toList.map (·.definition.key), key ∈ K
  gates : ∀ g : Gate, g.definition.key ∈ K
  texts : ∀ text ∈ s.disk.texts, ∀ p ∈ Hdl.Piece.split text.toList,
    foldCase (String.ofList p.text) ∈ K

variable {K : List String}

theorem Roofed.registers (h : s.Roofed K) (hr : Registers ds s s') (hd : ∀ d ∈ ds, d.key ∈ K) :
    s'.Roofed K := by
  obtain ⟨new, hnew, hchips⟩ := hr.chips
  refine ⟨fun key hkey => ?_, h.gates, hr.disk ▸ h.texts⟩
  rw [hchips, List.map_append, List.mem_append, List.map_map] at hkey
  rcases hkey with hkey | hkey
  · exact h.keys key hkey
  · obtain ⟨d, hdn, rfl⟩ := List.mem_map.1 hkey
    exact hd d (hnew.subset hdn)

theorem Roofed.move (h : s.Roofed K) (hm : Move s s') : s'.Roofed K := by
  rcases hm.cases_tables with ⟨path, text, htext, rfl⟩ | ⟨g, hr⟩ | hr
  · refine h.registers (registers_loadSource s path text).1 fun d hd => ?_
    obtain ⟨p, hp, hk⟩ := key_of_mem_definitionsOf hd
    rw [hk]
    exact h.texts text htext p hp
  · exact h.registers hr (List.forall_mem_singleton.2 (h.gates g))
  · exact ⟨hr.keys ▸ h.keys, h.gates, hr.disk ▸ h.texts⟩

theorem Roofed.moves (h : s.Roofed K) (hm : Moves s s') : s'.Roofed K := by
  induction hm with
  | refl => exact h
  | tail _ hm ih => exact ih.move hm

/-- **There are no more chips than keys.** -/
theorem Roofed.size_le (h : s.Roofed K) (hs : s.Sound) : s.chips.size ≤ K.length := by
  have hle := (List.subperm_of_subset hs.keys h.keys).length_le
  simpa using hle

/-- The keys that can come up in a session. -/
def roof (s : Session) : List String :=
  s.chips.toList.map (·.definition.key) ++ Gate.all.map (·.definition.key) ++
    s.disk.texts.flatMap fun text =>
      (Hdl.Piece.split text.toList).map fun p => foldCase (String.ofList p.text)

theorem roofed_roof (s : Session) : s.Roofed s.roof where
  keys key hk := List.mem_append_left _ (List.mem_append_left _ hk)
  gates g := by
    have hg : g ∈ Gate.all := by cases g <;> decide
    exact List.mem_append_left _ (List.mem_append_right _ (List.mem_map_of_mem hg))
  texts text ht p hp :=
    List.mem_append_right _ (List.mem_flatMap.2 ⟨text, ht, List.mem_map_of_mem hp⟩)

theorem length_roof_le (s : Session) : s.roof.length ≤ s.chipBound := by
  have hsplit : ∀ text : String,
      ((Hdl.Piece.split text.toList).map fun p => foldCase (String.ofList p.text)).length ≤
        text.length := by
    intro text
    rw [List.length_map, ← String.length_toList]
    exact Hdl.Piece.length_split_le _
  have hsum : (s.disk.texts.flatMap fun text =>
      (Hdl.Piece.split text.toList).map fun p => foldCase (String.ofList p.text)).length ≤
        s.disk.weight := by
    rw [List.length_flatMap, Disk.weight]
    exact List.sum_le_sum fun text _ => hsplit text
  simp only [roof, List.length_append, List.length_map, Array.length_toList, chipBound]
  omega

/-! ## Places -/

/-- No two parts start at one place, and all start in files that the session has. -/
structure Placed (s : Session) : Prop where
  nodup : s.places.Nodup
  file : ∀ place ∈ s.places, ∃ n < s.sources.size, place.1 = some n

theorem Placed.retains (h : s.Placed) (hr : Retains s s') : s'.Placed :=
  ⟨hr.places ▸ h.nodup, by rw [hr.places, hr.sources]; exact h.file⟩

/-- Definitions whose parts stand in files that are new. -/
theorem Placed.registers (h : s.Placed) (hr : Registers ds s s')
    (hn : (ds.flatMap Definition.places).Nodup)
    (hf : ∀ place ∈ ds.flatMap Definition.places, ∃ n, place.1 = some n ∧
      s.sources.size ≤ n ∧ n < s'.sources.size) : s'.Placed := by
  obtain ⟨new, hnew, hchips⟩ := hr.chips
  have hsub : (new.flatMap Definition.places).Sublist (ds.flatMap Definition.places) :=
    hnew.flatMap _
  have hplaces : s'.places = s.places ++ new.flatMap Definition.places := by
    rw [places, hchips, List.flatMap_append, List.flatMap_map]
    rfl
  refine ⟨?_, fun place hp => ?_⟩
  · rw [hplaces]
    refine List.nodup_append.2 ⟨h.nodup, hsub.nodup hn, fun place hp place' hp' he => ?_⟩
    obtain ⟨n, hlt, hfile⟩ := h.file place hp
    obtain ⟨n', hfile', hle, -⟩ := hf place' (hsub.subset hp')
    rw [he, hfile', Option.some.injEq] at hfile
    omega
  · rw [hplaces, List.mem_append] at hp
    rcases hp with hp | hp
    · obtain ⟨n, hlt, hfile⟩ := h.file place hp
      exact ⟨n, Nat.lt_of_lt_of_le hlt hr.sources, hfile⟩
    · obtain ⟨n, hfile, -, hlt⟩ := hf place (hsub.subset hp)
      exact ⟨n, hlt, hfile⟩

theorem Placed.loadSource (h : s.Placed) (path text : String) :
    (s.loadSource path text).2.Placed := by
  obtain ⟨hr, hlt⟩ := registers_loadSource s path text
  obtain ⟨hn, hf⟩ := Hdl.nodup_places_parse s.sources.size text
  refine h.registers hr ?_ fun place hp => ?_
  · rw [definitionsOf, Definition.places_ofDocument]
    exact hn
  · rw [definitionsOf, Definition.places_ofDocument] at hp
    obtain ⟨p, hm, rfl⟩ := List.mem_map.1 hp
    exact ⟨s.sources.size, hf p hm, Nat.le_refl _, hlt⟩

theorem Placed.move (h : s.Placed) (hm : Move s s') : s'.Placed := by
  rcases hm.cases_tables with ⟨path, text, -, rfl⟩ | ⟨g, hr⟩ | hr
  · exact h.loadSource path text
  · exact h.registers hr List.nodup_nil (List.forall_mem_nil _)
  · exact h.retains hr

theorem Placed.moves (h : s.Placed) (hm : Moves s s') : s'.Placed := by
  induction hm with
  | refl => exact h
  | tail _ hm ih => exact ih.move hm

theorem lasting_placed : Lasting (fun _ => True) Placed where
  remount _ _ h := ⟨h.nodup, h.file⟩
  load _ name text h := h.loadSource name text
  resolve s name span h := h.moves (errands_resolve s name span).moves
  addPin s id p _ h := by
    rcases s.addPin_cases id p with hadd | ⟨-, hadd⟩ | hadd
    · exact hadd ▸ h
    · exact hadd ▸ h.retains (retains_addPinTo s id p)
    · exact hadd ▸ h.retains (retains_of_chips rfl rfl rfl)
  emit _ _ h := h.retains (retains_of_chips rfl rfl rfl)
  takeAll _ h := h.retains (retains_of_chips rfl rfl rfl)
  link s id h := h.moves (moves_link s id)

theorem placed_after (disk : Disk) (library : Option String) (script : List Action) :
    (Session.after { disk, library } script).Placed :=
  lasting_placed.after (fun _ _ _ => trivial) ⟨List.nodup_nil, List.forall_mem_nil _⟩

theorem getElem?_places {a i : Nat} {p : Part} (hp : s.part? a i = some p) :
    ∃ e, s.chips.toList[a]? = some e ∧ e.definition.places[i]? = some p.span.place := by
  obtain ⟨d, hd, hi⟩ := definition?_of_part? hp
  obtain ⟨e, he, rfl⟩ := definition?_eq_some_iff.1 hd
  exact ⟨e, by simpa using he, by simp [Definition.places, hi]⟩

/-- **A place tells the part.** -/
theorem Placed.part_unique (h : s.Placed) {a a' i i' : Nat} {p p' : Part}
    (hp : s.part? a i = some p) (hp' : s.part? a' i' = some p')
    (hs : p.span.place = p'.span.place) : a = a' ∧ i = i' := by
  obtain ⟨e, he, hi⟩ := getElem?_places hp
  obtain ⟨e', he', hi'⟩ := getElem?_places hp'
  obtain ⟨hlt, rfl⟩ := List.getElem?_eq_some_iff.1 he
  obtain ⟨hlt', rfl⟩ := List.getElem?_eq_some_iff.1 he'
  obtain ⟨hinner, houter⟩ := List.nodup_flatMap.1 h.nodup
  rw [← hs] at hi'
  -- two chips have no place in common
  have hchip : ∀ {b c : Nat} (hb : b < s.chips.toList.length) (hc : c < s.chips.toList.length),
      p.span.place ∈ s.chips.toList[b].definition.places →
      p.span.place ∈ s.chips.toList[c].definition.places → ¬ b < c :=
    fun hb hc hmem hmem' hbc => List.pairwise_iff_getElem.1 houter _ _ hb hc hbc hmem hmem'
  have hmem := List.mem_of_getElem? hi
  have hmem' := List.mem_of_getElem? hi'
  obtain rfl : a = a' := by
    have := hchip hlt hlt' hmem hmem'
    have := hchip hlt' hlt hmem' hmem
    omega
  obtain ⟨hilt, -⟩ := List.getElem?_eq_some_iff.1 hi
  exact ⟨rfl, (List.getElem?_inj hilt (hinner _ (List.getElem_mem hlt))).1 (by rw [hi, hi'])⟩

end Session

end ChipLogic
