import ChipLogic.Proofs.Hdl.Faults
import ChipLogic.Proofs.Netlist.WellFormed
import ChipLogic.Session.Freeze

/-!
# A session only grows

Whatever a session does, its chips stay where they are. `Session.Advances work s s'` says how far
`s'` may differ from `s`:

* a chip keeps its name, its gate, its pins and its parts as written; pins may come after them;
* a chip that is linked does not change at all, and one that is in progress does not change either
  unless it is the one being worked on (`work`);
* the log is longer, and names fail only if an error is in it;
* a sound session stays sound.

**Sound sessions** (`Session.Sound`). All definitions are sane, no key is registered twice, and
each chip that linked well is *finished* (`Session.Finished`): its parts lead to finished chips, and
their wires fit. `Finished` is inductive, so a finished chip does not contain itself.

Here are the steps that only find chips: registering, loading and resolving. They work on no chip,
and what they add is as declared (`Session.advances_resolve`).
-/

namespace ChipLogic

/-! ## Growing definitions -/

/-- A part as it was written. -/
def Part.written (p : Part) : Part := { p with link := none }

theorem Part.chip_of_written {p p' : Part} (h : p'.written = p.written) : p'.chip = p.chip := by
  simpa only [Part.written] using congrArg Part.chip h

/-- Linking adds pins at the end and links to parts, and nothing else. -/
structure Definition.Grows (d d' : Definition) : Prop where
  name : d'.name = d.name
  span : d'.span = d.span
  gate : d'.gate = d.gate
  pins : d.pins.toList <+: d'.pins.toList
  parts : d'.parts.map Part.written = d.parts.map Part.written

namespace Definition.Grows

theorem refl (d : Definition) : d.Grows d := ⟨rfl, rfl, rfl, List.prefix_refl _, rfl⟩

theorem trans {d₁ d₂ d₃ : Definition} (h : d₁.Grows d₂) (h' : d₂.Grows d₃) : d₁.Grows d₃ :=
  ⟨h'.name.trans h.name, h'.span.trans h.span, h'.gate.trans h.gate, h.pins.trans h'.pins,
    h'.parts.trans h.parts⟩

theorem key {d d' : Definition} (h : d.Grows d') : d'.key = d.key := by
  rw [Definition.key, Definition.key, h.name]

theorem size_parts {d d' : Definition} (h : d.Grows d') : d'.parts.size = d.parts.size := by
  have := congrArg Array.size h.parts
  simpa using this

theorem push (d : Definition) (p : Pin) : d.Grows (d.push p) :=
  ⟨rfl, rfl, rfl, by simp, rfl⟩

theorem setLink (d : Definition) (index : Nat) (link : Link) :
    d.Grows (d.setLink index link) := by
  refine ⟨rfl, rfl, rfl, List.prefix_refl _, ?_⟩
  apply Array.ext_getElem?
  intro i
  rw [d.parts_setLink, Array.getElem?_map, Array.getElem?_map, Array.getElem?_modify]
  split
  · cases d.parts[i]? <;> rfl
  · rfl

/-- A pin is found where it was. -/
theorem pinNamed? {d d' : Definition} (h : d.Grows d') (hs : d'.Sane) {key : String} {i : Nat}
    {p : Pin} (hp : d.pinNamed? key = some (i, p)) : d'.pinNamed? key = some (i, p) := by
  obtain ⟨hi, hk⟩ := Definition.of_pinNamed? hp
  have hi' : d'.pins[i]? = some p := getElem?_of_toList_prefix h.pins hi
  exact (Definition.pinNamed?_eq_some_iff hs.pins).2 ⟨hi', hk⟩

end Definition.Grows

namespace Session

/-! ## Sound sessions -/

/-- The chip is linked, and so is everything inside it. -/
inductive Finished (s : Session) : Nat → Prop
  | intro {id : Nat} {e : Entry} (entry : s.chips[id]? = some e) (status : e.status = .linked true)
      (links : ∀ p ∈ e.definition.parts, ∃ link d, p.link = some link ∧
        s.definition? link.chip = some d ∧ ∀ w ∈ link.wires, w.Fits d.pins e.definition.pins)
      (children : ∀ p ∈ e.definition.parts, ∀ link, p.link = some link → Finished s link.chip) :
      Finished s id

/-- What holds of a session at any time. -/
structure Sound (s : Session) : Prop where
  sane : ∀ e ∈ s.chips, e.definition.Sane
  keys : (s.chips.toList.map fun e => e.definition.key).Nodup
  finished : ∀ id, s.status? id = some (.linked true) → s.Finished id

theorem definition?_of_entry {s : Session} {id : Nat} {e : Entry} (he : s.chips[id]? = some e) :
    s.definition? id = some e.definition := by
  rw [definition?_eq, he, Option.map_some]

theorem status?_of_entry {s : Session} {id : Nat} {e : Entry} (he : s.chips[id]? = some e) :
    s.status? id = some e.status := by
  rw [status?_eq, he, Option.map_some]

/-- What is read of a chip depends on its entry only. -/
theorem definition?_congr {s s' : Session} {id : Nat} (h : s'.chips[id]? = s.chips[id]?) :
    s'.definition? id = s.definition? id := by
  rw [definition?_eq, h, definition?_eq]

theorem status?_congr {s s' : Session} {id : Nat} (h : s'.chips[id]? = s.chips[id]?) :
    s'.status? id = s.status? id := by
  rw [status?_eq, h, status?_eq]

theorem Sound.sane_definition {s : Session} (h : s.Sound) {id : Nat} {d : Definition}
    (hd : s.definition? id = some d) : d.Sane := by
  obtain ⟨e, he, rfl⟩ := definition?_eq_some_iff.1 hd
  exact h.sane e (Array.mem_of_getElem? he)

theorem definition?_of_find? {s : Session} {key : String} {id : Nat} (h : s.find? key = some id) :
    ∃ d, s.definition? id = some d ∧ d.key = key := by
  rw [find?_eq_lastIndex?] at h
  obtain ⟨e, he, hk⟩ := getElem?_of_lastIndex? h
  exact ⟨e.definition, definition?_of_entry (by simpa using he), by simpa using hk⟩

theorem find?_eq_none_iff {s : Session} {key : String} :
    s.find? key = none ↔ ∀ id d, s.definition? id = some d → d.key ≠ key := by
  rw [find?_eq_lastIndex?, lastIndex?_eq_none_iff]
  refine ⟨fun h id d hd => ?_, fun h e he => ?_⟩
  · obtain ⟨e, he, rfl⟩ := definition?_eq_some_iff.1 hd
    simpa using h e (Array.mem_toList_iff.2 (Array.mem_of_getElem? he))
  · obtain ⟨id, hid⟩ := Array.mem_iff_getElem?.1 (Array.mem_toList_iff.1 he)
    simpa using h id e.definition (definition?_of_entry hid)

/-- A key stands for one chip only. -/
theorem Sound.find?_eq {s : Session} (h : s.Sound) {id : Nat} {d : Definition}
    (hd : s.definition? id = some d) : s.find? d.key = some id := by
  cases hf : s.find? d.key with
  | none => exact absurd rfl (find?_eq_none_iff.1 hf id d hd)
  | some id' =>
    obtain ⟨d', hd', hk⟩ := definition?_of_find? hf
    have hkey : ∀ {i : Nat} {d : Definition}, s.definition? i = some d →
        (s.chips.toList.map fun e => e.definition.key)[i]? = some d.key := by
      intro i d hd
      obtain ⟨e, he, rfl⟩ := definition?_eq_some_iff.1 hd
      rw [List.getElem?_map, Array.getElem?_toList, he, Option.map_some]
    obtain ⟨hlt, -⟩ := List.getElem?_eq_some_iff.1 (hkey hd')
    exact congrArg some ((List.getElem?_inj hlt h.keys).1 (by rw [hkey hd', hkey hd, hk]))

/-- A finished chip stays finished as long as no linked chip changes. -/
theorem Finished.mono {s s' : Session} {id : Nat} (h : s.Finished id)
    (hk : ∀ id, s.status? id = some (.linked true) → s'.chips[id]? = s.chips[id]?) :
    s'.Finished id := by
  induction h with
  | @intro id e entry status links children ih =>
    have hid : s'.chips[id]? = some e := by
      rw [hk id (by rw [status?_of_entry entry, status]), entry]
    refine .intro hid status (fun p hp => ?_) ih
    obtain ⟨link, d, hlink, hd, hw⟩ := links p hp
    refine ⟨link, d, hlink, ?_, hw⟩
    cases children p hp link hlink with
    | intro entry' status' =>
      rw [definition?_eq, hk link.chip (by rw [status?_of_entry entry', status']), ← definition?_eq]
      exact hd

/-- Only the chips matter for soundness. -/
theorem Sound.of_chips {s s' : Session} (h : s.Sound) (hc : s'.chips = s.chips) : s'.Sound where
  sane := hc ▸ h.sane
  keys := hc ▸ h.keys
  finished id hid := by
    rw [status?_eq, hc, ← status?_eq] at hid
    exact (h.finished id hid).mono fun _ _ => by rw [hc]

/-! ## Changing one chip -/

theorem getElem?_modify_eq {α : Type} {xs : Array α} {id : Nat} {x : α} {f : α → α}
    (hx : xs[id]? = some x) (j : Nat) :
    (xs.modify id f)[j]? = if id = j then some (f x) else xs[j]? := by
  rw [Array.getElem?_modify]
  by_cases hj : id = j
  · subst hj
    rw [if_pos rfl, if_pos rfl, hx]
    rfl
  · rw [if_neg hj, if_neg hj]

/-- Soundness survives a change of a chip that is not linked. If it is finished afterwards, that
needs a reason of its own. -/
theorem Sound.modify {s s' : Session} (hs : s.Sound) {id : Nat} {e : Entry} {f : Entry → Entry}
    (hc : s'.chips = s.chips.modify id f) (he : s.chips[id]? = some e)
    (hkey : (f e).definition.key = e.definition.key)
    (hsane : e.definition.Sane → (f e).definition.Sane)
    (hlinked : e.status = .linked true → f e = e)
    (hfin : (f e).status = .linked true → s'.Finished id) : s'.Sound where
  sane e' he' := by
    obtain ⟨j, hj⟩ := Array.mem_iff_getElem?.1 he'
    rw [hc, getElem?_modify_eq he] at hj
    split at hj
    · cases hj
      exact hsane (hs.sane e (Array.mem_of_getElem? he))
    · exact hs.sane e' (Array.mem_of_getElem? hj)
  keys := by
    have hkeys : s'.chips.toList.map (fun e => e.definition.key) =
        s.chips.toList.map fun e => e.definition.key := by
      apply List.ext_getElem?
      intro j
      simp only [hc, List.getElem?_map, Array.getElem?_toList, getElem?_modify_eq he]
      split
      · next hj => rw [← hj, he, Option.map_some, Option.map_some, hkey]
      · rfl
    rw [hkeys]
    exact hs.keys
  finished j hj := by
    by_cases hid : id = j
    · subst hid
      refine hfin ?_
      simpa [status?_eq, hc, getElem?_modify_eq he] using hj
    · have hj' : s.status? j = some (.linked true) := by
        simpa [status?_eq, hc, getElem?_modify_eq he, hid] using hj
      refine (hs.finished j hj').mono fun k hlink => ?_
      rw [hc, getElem?_modify_eq he]
      split
      · next hik =>
        subst hik
        rw [status?_of_entry he, Option.some.injEq] at hlink
        rw [hlinked hlink, he]
      · rfl

/-! ## Growing sessions -/

/-- How far an entry at `id` may differ after a step that works on `work`. -/
structure Keeps (work : Option Nat) (id : Nat) (e e' : Entry) : Prop where
  grows : e.definition.Grows e'.definition
  linked : ∀ ok, e.status = .linked ok → e' = e
  inProgress : e.status = .inProgress → e'.status = .inProgress ∧ (work ≠ some id → e' = e)

theorem Keeps.refl (work : Option Nat) (id : Nat) (e : Entry) : Keeps work id e e :=
  ⟨.refl _, fun _ _ => rfl, fun h => ⟨h, fun _ => rfl⟩⟩

theorem Keeps.trans {work : Option Nat} {id : Nat} {e₁ e₂ e₃ : Entry} (h : Keeps work id e₁ e₂)
    (h' : Keeps work id e₂ e₃) : Keeps work id e₁ e₃ where
  grows := h.grows.trans h'.grows
  linked ok hs := by
    have h₂ := h.linked ok hs
    rw [h₂] at h'
    exact h'.linked ok hs
  inProgress hs := by
    obtain ⟨hs₂, h₂⟩ := h.inProgress hs
    obtain ⟨hs₃, h₃⟩ := h'.inProgress hs₂
    exact ⟨hs₃, fun hw => (h₃ hw).trans (h₂ hw)⟩

/-- `s'` comes from `s` by steps that work on the chip `work`, if on any. -/
structure Advances (work : Option Nat) (s s' : Session) : Prop where
  disk : s'.disk = s.disk
  library : s'.library = s.library
  log : s.log.history <+: s'.log.history
  /-- Names that fail from now on leave an error behind. -/
  candid : s'.log.hasErrors ∨ s'.failed ⊆ s.failed ∧ s'.missing ⊆ s.missing
  chips : ∀ id e, s.chips[id]? = some e → ∃ e', s'.chips[id]? = some e' ∧ Keeps work id e e'
  sound : s.Sound → s'.Sound

theorem hasErrors_mono {s s' : Session} (h : s.log.history <+: s'.log.history)
    (he : s.log.hasErrors) : s'.log.hasErrors := by
  rw [Log.hasErrors, List.any_eq_true] at he ⊢
  obtain ⟨d, hd, herr⟩ := he
  exact ⟨d, h.subset hd, herr⟩

namespace Advances

variable {work : Option Nat} {s s' s'' : Session}

theorem trans (h : Advances work s s') (h' : Advances work s' s'') : Advances work s s'' where
  disk := h'.disk.trans h.disk
  library := h'.library.trans h.library
  log := h.log.trans h'.log
  candid := by
    rcases h'.candid with he | ⟨hf', hm'⟩
    · exact .inl he
    · rcases h.candid with he | ⟨hf, hm⟩
      · exact .inl (hasErrors_mono h'.log he)
      · exact .inr ⟨List.Subset.trans hf' hf, List.Subset.trans hm' hm⟩
  chips id e he := by
    obtain ⟨e₂, he₂, hk⟩ := h.chips id e he
    obtain ⟨e₃, he₃, hk'⟩ := h'.chips id e₂ he₂
    exact ⟨e₃, he₃, hk.trans hk'⟩
  sound hs := h'.sound (h.sound hs)

/-- Working on no chip is less than working on one. -/
theorem of_none (h : Advances none s s') : Advances work s s' where
  disk := h.disk
  library := h.library
  log := h.log
  candid := h.candid
  chips id e he := by
    obtain ⟨e', he', hk⟩ := h.chips id e he
    refine ⟨e', he', hk.grows, hk.linked, fun hs => ?_⟩
    exact ⟨(hk.inProgress hs).1, fun _ => (hk.inProgress hs).2 (by simp)⟩
  sound := h.sound

/-- A step that leaves the chips alone. -/
theorem of_chips (hd : s'.disk = s.disk) (hl : s'.library = s.library)
    (hlog : s.log.history <+: s'.log.history)
    (hc : s'.log.hasErrors ∨ s'.failed ⊆ s.failed ∧ s'.missing ⊆ s.missing)
    (h : s'.chips = s.chips) : Advances work s s' where
  disk := hd
  library := hl
  log := hlog
  candid := hc
  chips id e he := ⟨e, by rw [h]; exact he, .refl work id e⟩
  sound hs := by
    refine ⟨by rw [h]; exact hs.sane, by rw [h]; exact hs.keys, fun id hid => ?_⟩
    have hid' : s.status? id = some (.linked true) := by
      rwa [status?_eq, h, ← status?_eq] at hid
    exact (hs.finished id hid').mono fun id _ => by rw [h]

theorem refl (work : Option Nat) (s : Session) : Advances work s s :=
  .of_chips rfl rfl (List.prefix_refl _) (.inr ⟨List.Subset.refl _, List.Subset.refl _⟩) rfl

/-! ### What becomes of chips -/

theorem definition? (h : Advances work s s') {id : Nat} {d : Definition}
    (hd : s.definition? id = some d) : ∃ d', s'.definition? id = some d' ∧ d.Grows d' := by
  obtain ⟨e, he, rfl⟩ := definition?_eq_some_iff.1 hd
  obtain ⟨e', he', hk⟩ := h.chips id e he
  exact ⟨e'.definition, definition?_of_entry he', hk.grows⟩

theorem linked (h : Advances work s s') {id : Nat} {ok : Bool}
    (hs : s.status? id = some (.linked ok)) : s'.chips[id]? = s.chips[id]? := by
  obtain ⟨e, he, hst⟩ := status?_eq_some_iff.1 hs
  obtain ⟨e', he', hk⟩ := h.chips id e he
  rw [he', he, hk.linked ok hst]

theorem status_linked (h : Advances work s s') {id : Nat} {ok : Bool}
    (hs : s.status? id = some (.linked ok)) : s'.status? id = some (.linked ok) := by
  rwa [status?_eq, h.linked hs, ← status?_eq]

theorem status_inProgress (h : Advances work s s') {id : Nat}
    (hs : s.status? id = some .inProgress) : s'.status? id = some .inProgress := by
  obtain ⟨e, he, hst⟩ := status?_eq_some_iff.1 hs
  obtain ⟨e', he', hk⟩ := h.chips id e he
  rw [status?_of_entry he', (hk.inProgress hst).1]

theorem inProgress (h : Advances work s s') {id : Nat}
    (hs : s.status? id = some .inProgress) (hw : work ≠ some id) :
    s'.chips[id]? = s.chips[id]? := by
  obtain ⟨e, he, hst⟩ := status?_eq_some_iff.1 hs
  obtain ⟨e', he', hk⟩ := h.chips id e he
  rw [he', he, (hk.inProgress hst).2 hw]

/-- The definition of a chip in progress stays as it is while nothing works on it. -/
theorem definition?_inProgress (h : Advances work s s') {id : Nat}
    (hs : s.status? id = some .inProgress) (hw : work ≠ some id) :
    s'.definition? id = s.definition? id := by
  rw [definition?_eq, definition?_eq, h.inProgress hs hw]

/-! ### Steps that change chips -/

/-- Changing the chip at `id` on the way to a link of it. -/
theorem modify {id : Nat} {e : Entry} {f : Entry → Entry} {r : Registry}
    (hc : r.entries = s.chips.modify id f) (he : s.chips[id]? = some e)
    (hk : Keeps work id e (f e)) (hsane : e.definition.Sane → (f e).definition.Sane)
    (hfin : (f e).status = .linked true → s.Sound →
      ({ s with registry := r } : Session).Finished id) :
    Advances work s { s with registry := r } where
  disk := rfl
  library := rfl
  log := List.prefix_refl _
  candid := .inr ⟨List.Subset.refl _, List.Subset.refl _⟩
  chips j e' he' := by
    rw [Session.chips, hc, getElem?_modify_eq he]
    by_cases hj : id = j
    · subst hj
      rw [he] at he'
      cases he'
      exact ⟨f e, if_pos rfl, hk⟩
    · exact ⟨e', by rw [if_neg hj, he'], .refl work j e'⟩
  sound hs := hs.modify hc he hk.grows.key hsane (hk.linked true) fun hl => hfin hl hs

/-- Registering a declared definition under a new key. -/
theorem enroll {d : Definition} (hd : d.Declared) (hnew : s.find? d.key = none) :
    Advances work s (s.enroll d) where
  disk := rfl
  library := rfl
  log := List.prefix_refl _
  candid := .inr ⟨List.filter_sublist.subset, List.Subset.refl _⟩
  chips id e he := ⟨e, Registry.getElem?_register he d, .refl work id e⟩
  sound hs := by
    have hlinked : ∀ id, (s.enroll d).status? id = some (.linked true) →
        s.status? id = some (.linked true) := by
      intro id hid
      rw [status?_eq, chips_enroll, Array.getElem?_push] at hid
      split at hid
      · cases hid
      · rwa [status?_eq]
    refine ⟨fun e he => ?_, ?_, fun id hid => ?_⟩
    · rcases Array.mem_push.1 (s.chips_enroll d ▸ he) with he | rfl
      · exact hs.sane e he
      · exact hd.sane
    · rw [chips_enroll, Array.toList_push, List.map_append, List.nodup_append]
      refine ⟨hs.keys, by simp, ?_⟩
      intro a ha b hb
      obtain ⟨e, he, rfl⟩ := List.mem_map.1 ha
      rw [List.map_singleton, List.mem_singleton] at hb
      rw [hb]
      obtain ⟨j, hj⟩ := List.mem_iff_getElem?.1 he
      exact find?_eq_none_iff.1 hnew j e.definition (definition?_of_entry (by simpa using hj))
    · refine (hs.finished id (hlinked id hid)).mono fun j hj => ?_
      obtain ⟨e, he, -⟩ := status?_eq_some_iff.1 hj
      exact (Registry.getElem?_register he d).trans he.symm

end Advances

end Session

end ChipLogic
