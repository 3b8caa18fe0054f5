import ChipLogic.Proofs.Session.Printed
import Mathlib.Data.List.Infix

/-!
# Loading is all or nothing

A text with a fault, be it of a character, of the grammar or of a declared pin, leaves the chips,
what linking them came to and what names stand for as they were, and its faults are reported
(`Session.Refuses`).

From a text without faults, the chips are registered in the order in which they are declared, at the
next positions (`Session.Admits`). A chip is **new** if neither the session nor the text before it
has its key. The others stay out, with one report for each that points to the chip which has the
name.

**Theorem (`Session.load_all_or_nothing`).** There is nothing else that loading a text can come to,
whether the text is given or read from a file; and a file that cannot be read changes no chip
either.
-/

namespace ChipLogic

namespace Session

variable {s s' : Session} {ds : List Definition}

/-- What is wrong with a text that is loaded next. Pins are looked at only in texts that can be
read. -/
def faultsOf (s : Session) (text : String) : List Diagnostic :=
  let parsed := Hdl.parse (some s.sources.size) text
  if parsed.faults = [] then (Definition.ofDocument parsed.document).faults else parsed.faults

theorem allErrors_faultsOf (s : Session) (text : String) : Hdl.AllErrors (s.faultsOf text) := by
  unfold faultsOf
  dsimp only
  split
  · exact Definition.allErrors_ofDocument _
  · exact Hdl.allErrors_parse _ _

/-- Neither the session nor the definitions before have the key. -/
def isNew (s : Session) (earlier : List Definition) (d : Definition) : Bool :=
  (s.find? d.key).isNone && earlier.all (·.key != d.key)

/-- The definitions, each with those before it. -/
def inContext (ds : List Definition) : List (List Definition × Definition) :=
  ds.inits.zip ds

/-- The new chips among definitions, in order. -/
def newcomers (s : Session) (ds : List Definition) : List Definition :=
  ((inContext ds).filter fun x => s.isNew x.1 x.2).map (·.2)

/-- The definitions whose name is taken, in order. -/
def latecomers (s : Session) (ds : List Definition) : List Definition :=
  ((inContext ds).filter fun x => !s.isNew x.1 x.2).map (·.2)

/-- The place of the chip with a key. -/
def placeOf (s : Session) (key : String) : Span :=
  (((s.find? key).bind s.definition?).map (·.span)).getD .nowhere

/-- A text with these faults is refused. -/
structure Refuses (s : Session) (faults : List Diagnostic) (r : List Nat × Session) : Prop where
  ids : r.1 = []
  chips : r.2.chips = s.chips
  index : ∀ key, r.2.find? key = s.find? key
  log : r.2.log.history = s.log.history ++ faults

/-- The new chips among definitions are registered. -/
structure Admits (s : Session) (ds : List Definition) (r : List Nat × Session) : Prop where
  ids : r.1 = List.range' s.chips.size (s.newcomers ds).length
  chips : r.2.chips.toList = s.chips.toList ++ (s.newcomers ds).map fun d => { definition := d }
  /-- Names found before are found where they were, and new ones at the new positions. -/
  index : ∀ key, r.2.find? key =
    (s.find? key).or (((s.newcomers ds).findIdx? (·.key == key)).map (s.chips.size + ·))
  log : r.2.log.history = s.log.history ++ (s.latecomers ds).map fun d =>
    (Problem.duplicateChip d.name (r.2.placeOf d.key)).report d.span

/-! ## Registering one definition -/

variable {d : Definition}

theorem find?_register (s : Session) (d : Definition) (key : String) :
    (s.register d).2.find? key =
      (s.find? key).or (if d.key == key then some s.chips.size else none) := by
  unfold register
  split
  · next id hid =>
    by_cases hk : d.key = key
    · subst hk
      rw [hid]
      exact hid
    · rw [if_neg (by simpa using hk), Option.or_none]
      rfl
  · next hnew =>
    rw [find?_enroll]
    by_cases hk : d.key = key
    · subst hk
      simp [hnew]
    · simp [hk]

/-- After a definition is registered, its key is taken. -/
theorem isNew_register (s : Session) (d : Definition) (earlier : List Definition)
    (x : Definition) : (s.register d).2.isNew earlier x = s.isNew (d :: earlier) x := by
  by_cases hk : d.key = x.key
  · simp [isNew, find?_register, hk]
  · have hne : (d.key != x.key) = true := by simpa using hk
    simp [isNew, find?_register, hk, hne]

theorem inContext_cons (d : Definition) (ds : List Definition) :
    inContext (d :: ds) = ([], d) :: (inContext ds).map fun x => (d :: x.1, x.2) := by
  rw [inContext, List.inits_cons, List.zip_cons_cons, List.zip_map_left]
  rfl

theorem newcomers_cons (s : Session) (d : Definition) (ds : List Definition) :
    s.newcomers (d :: ds) =
      (if s.find? d.key = none then [d] else []) ++ (s.register d).2.newcomers ds := by
  have hrest : (((inContext ds).map fun x => (d :: x.1, x.2)).filter fun x =>
      s.isNew x.1 x.2).map (·.2) = (s.register d).2.newcomers ds := by
    simp [newcomers, List.filter_map, Function.comp_def, isNew_register]
  rw [newcomers, inContext_cons, ← hrest]
  cases hfind : s.find? d.key <;> simp [isNew, hfind]

theorem latecomers_cons (s : Session) (d : Definition) (ds : List Definition) :
    s.latecomers (d :: ds) =
      (if s.find? d.key = none then [] else [d]) ++ (s.register d).2.latecomers ds := by
  have hrest : (((inContext ds).map fun x => (d :: x.1, x.2)).filter fun x =>
      !s.isNew x.1 x.2).map (·.2) = (s.register d).2.latecomers ds := by
    simp [latecomers, List.filter_map, Function.comp_def, isNew_register]
  rw [latecomers, inContext_cons, ← hrest]
  cases hfind : s.find? d.key <;> simp [isNew, hfind]

theorem register_of_taken {id : Nat} (h : s.find? d.key = some id) :
    s.register d = (none, s.report (.duplicateChip d.name (s.placeOf d.key)) d.span) := by
  simp [register, placeOf, h]

/-- A chip stays where it is when others are registered. -/
theorem Admits.placeOf {r : List Nat × Session} (h : s.Admits ds r) {key : String} {id : Nat}
    (hid : s.find? key = some id) : r.2.placeOf key = s.placeOf key := by
  have hfind : r.2.find? key = some id := by rw [h.index, hid]; rfl
  obtain ⟨d, hd, -⟩ := definition?_of_find? hid
  have hlt : id < s.chips.toList.length := by
    obtain ⟨e, he, -⟩ := definition?_eq_some_iff.1 hd
    simpa using (Array.getElem?_eq_some_iff.1 he).1
  have hdef : r.2.definition? id = s.definition? id := by
    refine definition?_congr ?_
    rw [← Array.getElem?_toList, h.chips, List.getElem?_append_left hlt, Array.getElem?_toList]
  simp [Session.placeOf, hfind, hid, hdef]

/-! ## Registering a text -/

theorem Admits.cons_taken {id : Nat} (hid : s.find? d.key = some id)
    (h : (s.register d).2.Admits ds ((s.register d).2.registerAll ds)) :
    s.Admits (d :: ds) (s.registerAll (d :: ds)) := by
  have hregister := register_of_taken hid
  have hall : s.registerAll (d :: ds) = (s.register d).2.registerAll ds := by
    simp [registerAll, hregister]
  have hnew : s.newcomers (d :: ds) = (s.register d).2.newcomers ds := by
    simp [newcomers_cons, hid]
  have hlate : s.latecomers (d :: ds) = d :: (s.register d).2.latecomers ds := by
    simp [latecomers_cons, hid]
  have hfound : (s.register d).2.find? d.key = some id := by rw [hregister]; exact hid
  have hplace := h.placeOf hfound
  rw [hregister] at h hnew hlate hall hplace
  rw [hall]
  refine ⟨?_, ?_, ?_, ?_⟩
  · rw [hnew]
    exact h.ids
  · rw [hnew]
    exact h.chips
  · rw [hnew]
    exact h.index
  · rw [hlate, List.map_cons, hplace, h.log]
    exact List.append_assoc _ _ _

theorem Admits.cons_new (hid : s.find? d.key = none)
    (h : (s.register d).2.Admits ds ((s.register d).2.registerAll ds)) :
    s.Admits (d :: ds) (s.registerAll (d :: ds)) := by
  have hregister : s.register d = (some s.chips.size, s.enroll d) := by
    simp [register, hid]
  have hall : s.registerAll (d :: ds) =
      (s.chips.size :: ((s.register d).2.registerAll ds).1, ((s.register d).2.registerAll ds).2) := by
    simp [registerAll, hregister]
  have hnew : s.newcomers (d :: ds) = d :: (s.register d).2.newcomers ds := by
    simp [newcomers_cons, hid]
  have hlate : s.latecomers (d :: ds) = (s.register d).2.latecomers ds := by
    simp [latecomers_cons, hid]
  have hsize : (s.register d).2.chips.size = s.chips.size + 1 := by simp [hregister]
  rw [hall]
  refine ⟨?_, ?_, fun key => ?_, ?_⟩
  · rw [h.ids, hnew, hsize, List.length_cons, List.range'_succ]
  · have hchips : (s.register d).2.chips.toList = s.chips.toList ++ [{ definition := d }] := by
      simp [hregister]
    rw [h.chips, hnew, hchips, List.append_assoc]
    rfl
  · rw [h.index, find?_register, hnew, List.findIdx?_cons, hsize, Option.or_assoc]
    by_cases hk : d.key == key
    · simp [hk]
    · simp [hk, Function.comp_def, Nat.add_assoc, Nat.add_comm 1]
  · rw [h.log, hlate, hregister]
    rfl

theorem admits_registerAll (s : Session) (ds : List Definition) :
    s.Admits ds (s.registerAll ds) := by
  induction ds generalizing s with
  | nil =>
    have hnew : s.newcomers [] = [] := rfl
    have hlate : s.latecomers [] = [] := rfl
    exact ⟨by rw [hnew]; rfl, by simp [registerAll, hnew], by simp [registerAll, hnew],
      by simp [registerAll, hlate]⟩
  | cons d ds ih =>
    cases hid : s.find? d.key with
    | some id => exact .cons_taken hid (ih _)
    | none => exact .cons_new hid (ih _)

/-! ## Loading -/

variable {text : String}

theorem faultsOf_eq_nil_iff : s.faultsOf text = [] ↔
    (Hdl.parse (some s.sources.size) text).faults = [] ∧
      (Definition.ofDocument (Hdl.parse (some s.sources.size) text).document).faults = [] := by
  unfold faultsOf
  dsimp only
  split
  · next hp => simp [hp]
  · next hp => simp [hp]

/-- Of a text with faults only the names of its chips are remembered. -/
theorem addSource_of_faults (h : s.faultsOf text ≠ []) (name : String) :
    s.addSource name text = ([], { emitAll { s with
      sources := s.sources.add name text } (s.faultsOf text) with
      failed := s.failed ++
        (Hdl.parse (some s.sources.size) text).document.chips.map fun c => foldCase c.name }) := by
  unfold addSource loadSource
  by_cases hp : (Hdl.parse (some s.sources.size) text).faults = []
  · have hf : s.faultsOf text =
        (Definition.ofDocument (Hdl.parse (some s.sources.size) text).document).faults := if_pos hp
    rw [hf] at h ⊢
    simp [hp, h]
  · have hf : s.faultsOf text = (Hdl.parse (some s.sources.size) text).faults := if_neg hp
    rw [hf]
    simp [hp]

theorem refuses_addSource (h : s.faultsOf text ≠ []) (name : String) :
    s.Refuses (s.faultsOf text) (s.addSource name text) := by
  rw [addSource_of_faults h]
  exact ⟨rfl, rfl, fun _ => rfl, rfl⟩

theorem admits_addSource (h : s.faultsOf text = []) (name : String) :
    s.Admits (s.definitionsOf text) (s.addSource name text) := by
  obtain ⟨hp, hb⟩ := faultsOf_eq_nil_iff.1 h
  rw [addSource, loadSource_of_faultless hp hb]
  obtain ⟨hids, hchips, hindex, hlog⟩ :=
    admits_registerAll { s with sources := s.sources.add name text } (s.definitionsOf text)
  exact ⟨hids, hchips, hindex, hlog⟩

/-- What loading a text comes to. -/
def Settles (s : Session) (text : String) (r : List Nat × Session) : Prop :=
  (s.faultsOf text ≠ [] → s.Refuses (s.faultsOf text) r) ∧
    (s.faultsOf text = [] → s.Admits (s.definitionsOf text) r)

/-- **Loading is all or nothing.** A text with faults, all of which are errors, changes no chip and
registers none. Any other text registers its new chips, and reports each of the others once. A file
is loaded as the text that stands in it. -/
theorem load_all_or_nothing (s : Session) :
    (∀ name text, Hdl.AllErrors (s.faultsOf text) ∧ s.Settles text (s.addSource name text)) ∧
      (∀ path text, s.disk.read path = .ok text → s.Settles text (s.loadFile path)) ∧
      ∀ path reason, s.disk.read path = .error reason →
        s.Refuses [(Problem.unreadable path reason).report .nowhere] (s.loadFile path) := by
  have hadd : ∀ name text, s.Settles text (s.addSource name text) := fun name text =>
    ⟨fun h => refuses_addSource h name, fun h => admits_addSource h name⟩
  refine ⟨fun name text => ⟨s.allErrors_faultsOf text, hadd name text⟩, fun path text hread => ?_,
    fun path reason hread => ?_⟩
  · rw [loadFile, hread]
    exact hadd path text
  · rw [loadFile, hread]
    exact ⟨rfl, rfl, fun _ => rfl, rfl⟩

/-- The second chip declares a pin twice. -/
def tornText : String := "CHIP A\x7b\x7d CHIP B\x7bIN x, X;\x7d"

/-- Two new chips, a name that is taken, and the first chip again in another spelling. -/
def heapText : String :=
  "CHIP A\x7b\x7d CHIP hALF\x7bIN q;\x7d CHIP B\x7bIN x;\x7d CHIP a\x7bOUT y;\x7d"

/-- One chip is there, and a file with four. -/
def heaped : Session :=
  Session.after { disk := .ofSnapshots [⟨"heap.hdl", true, .ok heapText⟩] }
    [.addSource "half.hdl" "CHIP Half\x7bIN x;OUT y;\x7d"]

theorem load_all_or_nothing_heaped :
    (heaped.addSource "torn.hdl" tornText).1 = [] ∧
      (heaped.addSource "torn.hdl" tornText).2.chips = heaped.chips ∧
      (heaped.loadFile "heap.hdl").1 = [1, 2] ∧
      (heaped.loadFile "heap.hdl").2.find? "half" = some 0 ∧
      (heaped.loadFile "heap.hdl").2.find? "b" = some 2 ∧
      (heaped.loadFile "heap.hdl").2.log.history.length = heaped.log.history.length + 2 := by
  obtain ⟨hadd, hload, -⟩ := load_all_or_nothing heaped
  have hruns : heaped.disk.read "heap.hdl" = .ok heapText ∧
      (heaped.faultsOf tornText).length = 1 ∧ heaped.faultsOf heapText = [] ∧
      heaped.chips.size = 1 ∧ heaped.find? "half" = some 0 ∧ heaped.find? "b" = none ∧
      (heaped.newcomers (heaped.definitionsOf heapText)).map (·.key) = ["a", "b"] ∧
      (heaped.latecomers (heaped.definitionsOf heapText)).map (·.key) = ["half", "a"] := by
    decide +kernel
  obtain ⟨hread, htorn, hheap, hsize, hhalf, hb, hnew, hlate⟩ := hruns
  obtain ⟨hids, hchips, -, -⟩ := (hadd "torn.hdl" tornText).2.1 (by
    intro he
    rw [he] at htorn
    cases htorn)
  obtain ⟨hids', -, hindex, hlog⟩ := (hload "heap.hdl" heapText hread).2 hheap
  have hlength := congrArg List.length hnew
  rw [List.length_map] at hlength
  refine ⟨hids, hchips, ?_, ?_, ?_, ?_⟩
  · rw [hids', hsize, hlength]
    rfl
  · rw [hindex, hhalf]
    rfl
  · have hplace : (heaped.newcomers (heaped.definitionsOf heapText)).findIdx? (·.key == "b") =
        some 1 := by
      have := congrArg (List.findIdx? (· == "b")) hnew
      rw [List.findIdx?_map] at this
      exact this
    rw [hindex, hb, hplace, hsize]
    rfl
  · have hlength' := congrArg List.length hlate
    rw [List.length_map] at hlength'
    rw [hlog, List.length_append, List.length_map, hlength']
    rfl

end Session

end ChipLogic
