import ChipLogic.Proofs.Session.Link
import ChipLogic.Proofs.Session.Linkable

/-!
# Sessions in the middle of linking

Let nothing be linked in a session `s₀` yet, and let every part have a name that means something
there (`Session.Fresh`). `Session.Linking s₀ path s` says what holds of the sessions `s` that come
up while chips of `s₀` are linked:

* each chip is the draft that its name means in `s₀`, with some nets added once its link has begun
  (`Session.Drafted`), and if it is linked, the result says whether the draft is linkable
  (`Session.Tracks`);
* the chips in progress are those on `path`;
* no name has failed, so every name is still found.

A net that is added has the width that all references to it ask for, provided that the inner sides
of the connections exist (`Session.Offered`). If some do not, linking fails whatever the width.

Here are the steps that change one chip, and the search for a name (`Session.Linking.resolve`),
which adds at most a gate.
-/

namespace ChipLogic

/-- No two gates have one key. -/
theorem Gate.eq_of_foldCase {g g' : Gate} (h : foldCase g.name = foldCase g'.name) : g = g' := by
  revert h
  cases g <;> cases g' <;> decide

namespace Session

variable {s₀ s s' : Session} {path : List Nat} {d d' : Definition} {id : Nat} {work : Option Nat}

/-! ## Before linking -/

/-- Nothing is linked, nothing has failed, and every part has a name that means something. -/
structure Fresh (s : Session) : Prop where
  sound : s.Sound
  library : s.library = none
  failed : s.failed = []
  missing : s.missing = []
  unlinked : ∀ e ∈ s.chips, e.status = .unlinked
  named : ∀ e ∈ s.chips, ∀ p ∈ e.definition.parts, (s.meant? p.chip).isSome

/-- Spellings of one name mean one chip. -/
theorem meant?_unique {name name' : String} (h : foldCase name = foldCase name')
    (hd : s₀.meant? name = some d) (hd' : s₀.meant? name' = some d') : d = d' := by
  unfold meant? at hd hd'
  have hl : s₀.lookup? name' = s₀.lookup? name := by rw [lookup?, lookup?, h]
  rw [hl] at hd'
  cases hf : s₀.lookup? name with
  | some id =>
    rw [hf] at hd hd'
    exact Option.some.inj (hd.symm.trans hd')
  | none =>
    rw [hf] at hd hd'
    obtain ⟨g, hg, rfl⟩ := Option.map_eq_some_iff.1 hd
    obtain ⟨g', hg', rfl⟩ := Option.map_eq_some_iff.1 hd'
    have hsame : g = g' := by
      apply Gate.eq_of_foldCase
      rw [Gate.name_of_ofName? hg, Gate.name_of_ofName? hg', h]
    rw [hsame]

theorem Fresh.meant?_name (h₀ : s₀.Fresh) (hd : s₀.definition? id = some d) :
    s₀.meant? d.name = some d := by
  have hl : s₀.lookup? d.name = some id := h₀.sound.find?_eq hd
  rw [meant?, hl]
  exact hd

/-- What a name means is a registered chip or a gate. -/
theorem meant?_cases {name : String} (hd : s₀.meant? name = some d) :
    (∃ e ∈ s₀.chips, e.definition = d) ∨ ∃ g, d = Gate.definition g := by
  unfold meant? at hd
  split at hd
  · obtain ⟨e, he, rfl⟩ := definition?_eq_some_iff.1 hd
    exact .inl ⟨e, Array.mem_of_getElem? he, rfl⟩
  · obtain ⟨g, -, rfl⟩ := Option.map_eq_some_iff.1 hd
    exact .inr ⟨g, rfl⟩

theorem Sound.sane_of_meant? (h : s₀.Sound) {name : String} (hd : s₀.meant? name = some d) :
    d.Sane := by
  rcases meant?_cases hd with ⟨e, he, rfl⟩ | ⟨g, rfl⟩
  · exact h.sane e he
  · exact (Gate.declared_definition g).sane

theorem Fresh.named_of_meant? (h₀ : s₀.Fresh) {name : String} (hd : s₀.meant? name = some d)
    {p : Part} (hp : p ∈ d.parts) : ∃ child, s₀.meant? p.chip = some child := by
  rcases meant?_cases hd with ⟨e, he, rfl⟩ | ⟨g, rfl⟩
  · exact Option.isSome_iff_exists.1 (h₀.named e he p hp)
  · simp at hp

/-! ## Drafts -/

/-- The inner sides of a part's connections exist. -/
def PartOffered (s : Session) (p : Part) : Prop :=
  ∃ child, s.meant? p.chip = some child ∧ ∀ c ∈ p.connections, ∃ q, child.Offers c.inner q

/-- The inner sides of all connections in a chip exist. -/
def Offered (s : Session) (d : Definition) : Prop :=
  ∀ p ∈ d.parts, s.PartOffered p

/-- `d'` is `d` with nets added. -/
structure Drafted (s : Session) (d d' : Definition) : Prop extends d.Grows d' where
  nets : ∀ q ∈ d'.pins, q ∈ d.pins ∨
    q.kind = .internal ∧ (s.Offered d → q.width = s.netBits BitRange.extent d q.key)

theorem Drafted.refl (s : Session) (d : Definition) : s.Drafted d d :=
  ⟨.refl d, fun _ hq => .inl hq⟩

theorem Drafted.push {p : Pin} (h : s.Drafted d d') (hk : p.kind = .internal)
    (hw : s.Offered d → p.width = s.netBits BitRange.extent d p.key) :
    s.Drafted d (d'.push p) := by
  refine ⟨h.toGrows.trans (.push d' p), fun q hq => ?_⟩
  rw [Definition.pins_push] at hq
  rcases Array.mem_push.1 hq with hq | rfl
  · exact h.nets q hq
  · exact .inr ⟨hk, hw⟩

theorem Drafted.pinNamed?_of_some (h : s.Drafted d d') (hs : d'.Sane) {key : String} {i : Nat}
    {p : Pin} (hp : d.pinNamed? key = some (i, p)) : d'.pinNamed? key = some (i, p) :=
  h.toGrows.pinNamed? hs hp

theorem Drafted.pinNamed?_of_none (h : s.Drafted d d') {key : String}
    (hp : d'.pinNamed? key = none) : d.pinNamed? key = none := by
  refine Definition.pinNamed?_eq_none_iff.2 fun p hm => ?_
  obtain ⟨i, hi⟩ := Array.mem_iff_getElem?.1 hm
  have hi' : d'.pins[i]? = some p := getElem?_of_toList_prefix h.pins hi
  exact Definition.pinNamed?_eq_none_iff.1 hp p (Array.mem_of_getElem? hi')

/-- A pin of a chip is a pin of its draft or a net. -/
theorem Drafted.pinNamed?_cases (h : s.Drafted d d') (hs : d'.Sane) {key : String} {i : Nat}
    {p : Pin} (hp : d'.pinNamed? key = some (i, p)) :
    d.pinNamed? key = some (i, p) ∨ d.pinNamed? key = none ∧ p.kind = .internal ∧
      (s.Offered d → p.width = s.netBits BitRange.extent d key) := by
  obtain ⟨hi, hk⟩ := Definition.of_pinNamed? hp
  cases hd : d.pinNamed? key with
  | some found =>
    obtain ⟨j, q⟩ := found
    have hj := h.pinNamed?_of_some hs hd
    rw [hp] at hj
    exact .inl hj.symm
  | none =>
    rcases h.nets p (Array.mem_of_getElem? hi) with hm | ⟨hkind, hw⟩
    · exact absurd hk (Definition.pinNamed?_eq_none_iff.1 hd p hm)
    · exact .inr ⟨rfl, hkind, fun ho => by rw [hw ho, hk]⟩

/-! ## The invariant -/

/-- The chip of an entry was `d` before linking. -/
structure Tracks (s₀ : Session) (d : Definition) (e : Entry) : Prop where
  meant : s₀.meant? e.definition.name = some d
  drafted : s₀.Drafted d e.definition
  draft : e.status = .unlinked → e.definition = d
  verdict : ∀ ok, e.status = .linked ok → (ok = true ↔ s₀.Linkable d)

/-- What holds while chips of `s₀` are linked. -/
structure Linking (s₀ : Session) (path : List Nat) (s : Session) : Prop where
  advances : Advances none s₀ s
  failed : s.failed = []
  missing : s.missing = []
  tracks : ∀ e ∈ s.chips, ∃ d, s₀.Tracks d e
  inProgress : ∀ id, s.status? id = some .inProgress ↔ id ∈ path

/-- The chip at a position was `d` before linking. -/
def Stems (s₀ s : Session) (id : Nat) (d : Definition) : Prop :=
  ∃ d', s.definition? id = some d' ∧ s₀.meant? d'.name = some d

theorem Stems.mono (h : Stems s₀ s id d) (ha : Advances work s s') : Stems s₀ s' id d := by
  obtain ⟨d', hd', hm⟩ := h
  obtain ⟨d'', hd'', hg⟩ := ha.definition? hd'
  exact ⟨d'', hd'', by rw [hg.name, hm]⟩

theorem Fresh.stems (h₀ : s₀.Fresh) (hd : s₀.definition? id = some d) : Stems s₀ s₀ id d :=
  ⟨d, hd, h₀.meant?_name hd⟩

theorem Fresh.linking (h₀ : s₀.Fresh) : Linking s₀ [] s₀ where
  advances := .refl none s₀
  failed := h₀.failed
  missing := h₀.missing
  tracks e he := by
    obtain ⟨id, hid⟩ := Array.mem_iff_getElem?.1 he
    have hd : s₀.definition? id = some e.definition := definition?_of_entry hid
    refine ⟨e.definition, h₀.meant?_name hd, .refl s₀ _, fun _ => rfl, fun ok hok => ?_⟩
    rw [h₀.unlinked e he] at hok
    cases hok
  inProgress id := by
    refine ⟨fun hs => ?_, fun hm => by cases hm⟩
    obtain ⟨e, he, hst⟩ := status?_eq_some_iff.1 hs
    rw [h₀.unlinked e (Array.mem_of_getElem? he)] at hst
    cases hst

/-- Before linking no chip is in progress, so none of its chips is held back. -/
theorem Advances.of_fresh (h₀ : s₀.Fresh) (h : Advances work s₀ s) : Advances none s₀ s where
  disk := h.disk
  library := h.library
  log := h.log
  candid := h.candid
  chips id e he := by
    obtain ⟨e', he', hk⟩ := h.chips id e he
    refine ⟨e', he', hk.grows, hk.linked, fun hp => ?_⟩
    rw [h₀.unlinked e (Array.mem_of_getElem? he)] at hp
    cases hp
  sound := h.sound

namespace Linking

theorem sound (h₀ : s₀.Fresh) (h : Linking s₀ path s) : s.Sound := h.advances.sound h₀.sound

theorem library (h₀ : s₀.Fresh) (h : Linking s₀ path s) : s.library = none :=
  h.advances.library.trans h₀.library

/-- The chip at a position, seen from its draft. -/
theorem entry (h : Linking s₀ path s) (hd : Stems s₀ s id d) :
    ∃ e, s.chips[id]? = some e ∧ s₀.Tracks d e := by
  obtain ⟨d', hd', hm⟩ := hd
  obtain ⟨e, he, rfl⟩ := definition?_eq_some_iff.1 hd'
  obtain ⟨d₁, ht⟩ := h.tracks e (Array.mem_of_getElem? he)
  rw [ht.meant, Option.some.injEq] at hm
  exact ⟨e, he, hm ▸ ht⟩

theorem definition? (h₀ : s₀.Fresh) (h : Linking s₀ path s) (hd : Stems s₀ s id d) :
    ∃ d', s.definition? id = some d' ∧ d'.Sane ∧ s₀.Drafted d d' := by
  obtain ⟨e, he, ht⟩ := h.entry hd
  exact ⟨e.definition, definition?_of_entry he,
    (h.sound h₀).sane e (Array.mem_of_getElem? he), ht.drafted⟩

/-- A step that leaves the chips and the failed names alone. -/
theorem of_chips (h₀ : s₀.Fresh) (h : Linking s₀ path s) (ha : Advances work s s')
    (hc : s'.chips = s.chips) (hf : s'.failed = s.failed) (hm : s'.missing = s.missing) :
    Linking s₀ path s' where
  advances := .of_fresh h₀ (h.advances.of_none.trans ha)
  failed := hf.trans h.failed
  missing := hm.trans h.missing
  tracks e he := h.tracks e (hc ▸ he)
  inProgress id := by
    rw [status?_congr (congrArg (·[id]?) hc)]
    exact h.inProgress id

theorem emitAll (h₀ : s₀.Fresh) (h : Linking s₀ path s) (ds : List Diagnostic) :
    Linking s₀ path (s.emitAll ds) :=
  h.of_chips h₀ (advances_emitAll s ds none) rfl rfl rfl

theorem report (h₀ : s₀.Fresh) (h : Linking s₀ path s) (p : Problem) (span : Span) :
    Linking s₀ path (s.report p span) :=
  h.emitAll h₀ [p.report span]

/-- A change of one chip. -/
theorem modify (h : Linking s₀ path s) {e : Entry} {f : Entry → Entry} {r : Registry}
    {path' : List Nat} (hc : r.entries = s.chips.modify id f) (he : s.chips[id]? = some e)
    (ha : Advances none s₀ { s with registry := r })
    (hf : ∀ d, s₀.Tracks d e → s₀.Tracks d (f e))
    (hp : ∀ j, (if id = j then (f e).status = .inProgress else s.status? j = some .inProgress) ↔
      j ∈ path') :
    Linking s₀ path' { s with registry := r } where
  advances := ha
  failed := h.failed
  missing := h.missing
  tracks e' he' := by
    obtain ⟨j, hj⟩ := Array.mem_iff_getElem?.1 he'
    rw [chips, hc, getElem?_modify_eq he] at hj
    split at hj
    · cases hj
      obtain ⟨d, ht⟩ := h.tracks e (Array.mem_of_getElem? he)
      exact ⟨d, hf d ht⟩
    · exact h.tracks e' (Array.mem_of_getElem? hj)
  inProgress j := by
    rw [← hp j, status?_eq, chips, hc, getElem?_modify_eq he]
    split
    · simp
    · rw [← status?_eq]

/-- Work on the definition of a chip in progress. -/
theorem modifyDefinition (h₀ : s₀.Fresh) (h : Linking s₀ path s) (hp : id ∈ path)
    (hd : Stems s₀ s id d) {f : Definition → Definition} {hkey : ∀ d, (f d).key = d.key}
    (ha : Advances work s (s.modifyDefinition id f hkey))
    (hf : ∀ d', s.definition? id = some d' → s₀.Drafted d d' → s₀.Drafted d (f d')) :
    Linking s₀ path (s.modifyDefinition id f hkey) := by
  obtain ⟨e, he, ht⟩ := h.entry hd
  have he' : s.definition? id = some e.definition := definition?_of_entry he
  refine h.modify (s.chips_modifyDefinition id f hkey) he
    (.of_fresh h₀ (h.advances.of_none.trans ha)) (fun d₁ ht₁ => ?_) fun j => ?_
  · have hd₁ : d = d₁ := Option.some.inj (ht.meant.symm.trans ht₁.meant)
    subst hd₁
    have hdraft := hf e.definition he' ht.drafted
    refine ⟨?_, hdraft, fun hun => ?_, ht.verdict⟩
    · rw [hdraft.name, ← ht.drafted.name]
      exact ht.meant
    · have hst := (h.inProgress id).2 hp
      rw [status?_of_entry he, Option.some.injEq] at hst
      rw [hst] at hun
      cases hun
  · rw [← h.inProgress j]
    split
    · next hj => rw [← hj, status?_eq, he]; simp
    · rfl

/-- A gate is registered under a name that means it. -/
theorem enroll (h₀ : s₀.Fresh) (h : Linking s₀ path s) {g : Gate}
    (hn : s.find? g.definition.key = none) (hm : s₀.meant? g.name = some g.definition) :
    Linking s₀ path (s.enroll g.definition) where
  advances := .of_fresh h₀ (h.advances.trans (.enroll (Gate.declared_definition g) hn))
  failed := by rw [Session.enroll, h.failed]; rfl
  missing := h.missing
  tracks e he := by
    rcases Array.mem_push.1 (s.chips_enroll g.definition ▸ he) with he | rfl
    · exact h.tracks e he
    · exact ⟨g.definition, hm, .refl s₀ _, fun _ => rfl, fun ok hok => by cases hok⟩
  inProgress id := by
    rw [← h.inProgress id, status?_eq, status?_eq, chips_enroll, Array.getElem?_push]
    split
    · next hid => subst hid; simp
    · rfl

/-! ## Names -/

/-- A name without a chip can only mean a gate, which is registered for it. -/
theorem resolve_gate (h₀ : s₀.Fresh) (h : Linking s₀ path s) {name : String}
    (hd : s₀.meant? name = some d) (hl : s.lookup? name = none) (span : Span) :
    ∃ g, Gate.name g = name ∧ d = g.definition ∧ s.find? g.definition.key = none ∧
      s.resolve name span = (some s.chips.size, s.enroll g.definition) := by
  -- chips of `s₀` are still there
  have hl₀ : s₀.lookup? name = none := by
    refine find?_eq_none_iff.2 fun id d₁ hd₁ hk => ?_
    obtain ⟨d₂, hd₂, hg⟩ := h.advances.definition? hd₁
    exact find?_eq_none_iff.1 hl id d₂ hd₂ (hg.key.trans hk)
  rw [meant?, hl₀] at hd
  obtain ⟨g, hg, rfl⟩ := Option.map_eq_some_iff.1 hd
  have hname := Gate.name_of_ofName? hg
  have hn : s.find? g.definition.key = none := by
    rw [← hl, lookup?, ← hname]
    rfl
  have hgate : s.resolve name span = s.register g.definition := by
    rw [Session.resolve, hl]
    simp only [h.failed, h.missing, h.library h₀, List.contains_nil, Bool.or_self,
      Bool.false_eq_true, if_false, resolveGate, hg]
  exact ⟨g, hname, rfl, hn, by rw [hgate, register, hn]⟩

/-- **A name leads to the chip that it means.** -/
theorem resolve (h₀ : s₀.Fresh) (h : Linking s₀ path s) {name : String}
    (hd : s₀.meant? name = some d) (span : Span) :
    Linking s₀ path (s.resolve name span).2 ∧
      ∃ id, (s.resolve name span).1 = some id ∧ Stems s₀ (s.resolve name span).2 id d := by
  cases hl : s.lookup? name with
  | some id =>
    have hfound : s.resolve name span = (some id, s) := by rw [Session.resolve, hl]
    rw [hfound]
    obtain ⟨d', hd', hk⟩ := definition?_of_find? hl
    obtain ⟨e, he, rfl⟩ := definition?_eq_some_iff.1 hd'
    obtain ⟨d₁, ht⟩ := h.tracks e (Array.mem_of_getElem? he)
    refine ⟨h, id, rfl, e.definition, hd', ?_⟩
    rw [ht.meant, meant?_unique hk ht.meant hd]
  | none =>
    obtain ⟨g, rfl, rfl, hn, hgate⟩ := h.resolve_gate h₀ hd hl span
    rw [hgate]
    refine ⟨h.enroll h₀ hn hd, s.chips.size, rfl, g.definition, ?_, hd⟩
    simp [Session.definition?_eq]

end Linking

end Session

end ChipLogic
