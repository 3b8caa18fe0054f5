import ChipLogic.Proofs.Session.Questions

/-!
# Linking without a library

Without a library folder a search for a name that is not answered has two outcomes
(`Session.LocalSearch`): the gate of exactly that name is registered, or it is reported that there
is no such chip, and the name is remembered.

So little can happen to a session that no text is loaded into (`Session.Local`): the chips that come
up are gates, no failure is forgotten, and the parts are those that were there before. All of this
holds of a link, because it holds of strides (`Session.Strides.local`). Paces leave parts and their
links alone too (`Session.Paces.still`).
-/

namespace ChipLogic

namespace Session

variable {s s' s'' : Session} {name : String} {span : Span} {id : Nat}

/-! ## Tables -/

/-- What makes look-ups of chips and of pins unique. -/
structure Orderly (s : Session) : Prop where
  sane : ∀ id d, s.definition? id = some d → d.Sane
  unique : ∀ id id' d d', s.definition? id = some d → s.definition? id' = some d' →
    d.key = d'.key → id = id'

theorem Sound.orderly (h : s.Sound) : s.Orderly :=
  ⟨fun _ _ hd => h.sane_definition hd, fun _ _ _ _ => h.unique⟩

theorem Orderly.lookup? (h : s.Orderly) {d : Definition} (hd : s.definition? id = some d)
    (hk : d.key = foldCase name) : s.lookup? name = some id := by
  cases hl : s.lookup? name with
  | none => exact absurd hk (find?_eq_none_iff.1 hl id d hd)
  | some id' =>
    obtain ⟨d', hd', hk'⟩ := definition?_of_find? hl
    rw [h.unique id' id d' d hd' hd (hk'.trans hk.symm)]

/-! ## Searches -/

/-- The session with a gate as its last chip. -/
def withGate (s : Session) (g : Gate) : Session :=
  { s with registry := s.registry.register g.definition }

@[simp]
theorem chips_withGate (s : Session) (g : Gate) :
    (s.withGate g).chips = s.chips.push { definition := g.definition } :=
  s.registry.entries_register g.definition

theorem definition?_withGate (s : Session) (g : Gate) (id : Nat) :
    (s.withGate g).definition? id =
      if id = s.chips.size then some g.definition else s.definition? id := by
  rw [definition?_eq, chips_withGate, Array.getElem?_push, definition?_eq]
  split <;> rfl

/-- The outcomes of a search without a library. -/
inductive LocalSearch (s : Session) (name : String) (span : Span) : Option Nat × Session → Prop
  | answered (known : s.Answered name) : LocalSearch s name span (s.lookup? name, s)
  | gate {g : Gate} (unknown : ¬ s.Answered name) (named : Gate.ofName? name = some g) :
      LocalSearch s name span (some s.chips.size, s.withGate g)
  | nothing (unknown : ¬ s.Answered name) (unnamed : Gate.ofName? name = none) :
      LocalSearch s name span ((s.report (.chipNotFound name) span).giveUp name)

theorem find?_of_not_answered {g : Gate} (h : ¬ s.Answered name)
    (hg : Gate.ofName? name = some g) :
    s.find? g.definition.key = none ∧ g.definition.key ∉ s.failed := by
  have hkey : g.definition.key = foldCase name := by
    rw [← Gate.name_of_ofName? hg]
    rfl
  rw [hkey]
  exact ⟨Option.not_isSome_iff_eq_none.1 fun hl => h (.inl hl), fun hf => h (.inr (.inl hf))⟩

/-- **A search without a library** registers a gate or gives up. -/
theorem localSearch_resolve (hlib : s.library = none) (name : String) (span : Span) :
    LocalSearch s name span (s.resolve name span) := by
  by_cases hn : s.Answered name
  · rw [resolve_of_answered hn]
    exact .answered hn
  · rw [resolve_of_library_none hlib hn]
    unfold resolveGate
    cases hg : Gate.ofName? name with
    | none => exact .nothing hn hg
    | some g =>
      obtain ⟨hnew, hfailed⟩ := find?_of_not_answered hn hg
      have hkept : s.failed.filter (· != g.definition.key) = s.failed :=
        List.filter_eq_self.2 fun key hkey => bne_iff_ne.2 fun he => hfailed (he ▸ hkey)
      have hregister : s.register g.definition = (some s.chips.size, s.withGate g) := by
        rw [register, hnew, enroll, hkept]
        rfl
      dsimp only
      rw [hregister]
      exact .gate hn hg

/-! ## Local steps -/

/-- `s'` comes from `s` without a library: only gates come up, and no failure is forgotten. -/
structure Local (s s' : Session) : Prop where
  library : s'.library = none
  orderly : s'.Orderly
  failed : s'.failed = s.failed
  missing : s.missing ⊆ s'.missing
  grown : Grown s s'
  gates : ∀ id d', s.definition? id = none → s'.definition? id = some d' →
    ∃ g : Gate, g.definition.Grows d'

namespace Local

/-- A step that leaves the definitions alone. -/
theorem of_definition? (hlib : s'.library = none) (ho : s.Orderly) (hf : s'.failed = s.failed)
    (hm : s.missing ⊆ s'.missing) (hd : ∀ id, s'.definition? id = s.definition? id) :
    Local s s' where
  library := hlib
  orderly := ⟨fun id d h => ho.sane id d (hd id ▸ h),
    fun id id' d d' h h' => ho.unique id id' d d' (hd id ▸ h) (hd id' ▸ h')⟩
  failed := hf
  missing := hm
  grown id d h := ⟨d, (hd id).trans h, .refl d⟩
  gates id d' hnone h := by
    rw [hd, hnone] at h
    cases h

theorem refl (hlib : s.library = none) (ho : s.Orderly) : Local s s :=
  .of_definition? hlib ho rfl (List.Subset.refl _) fun _ => rfl

theorem trans (h : Local s s') (h' : Local s' s'') : Local s s'' where
  library := h'.library
  orderly := h'.orderly
  failed := h'.failed.trans h.failed
  missing := List.Subset.trans h.missing h'.missing
  grown id d hd := by
    obtain ⟨d', hd', hg⟩ := h.grown id d hd
    obtain ⟨d'', hd'', hg'⟩ := h'.grown id d' hd'
    exact ⟨d'', hd'', hg.trans hg'⟩
  gates id d'' hnone hd'' := by
    cases hd' : s'.definition? id with
    | none => exact h'.gates id d'' hd' hd''
    | some d' =>
      obtain ⟨g, hg⟩ := h.gates id d' hnone hd'
      obtain ⟨d₂, hd₂, hg'⟩ := h'.grown id d' hd'
      obtain rfl : d'' = d₂ := Option.some.inj (hd''.symm.trans hd₂)
      exact ⟨g, hg.trans hg'⟩

theorem lookup? (h : Local s s') (hl : s.lookup? name = some id) : s'.lookup? name = some id := by
  obtain ⟨d, hd, hk⟩ := definition?_of_find? hl
  obtain ⟨d', hd', hg⟩ := h.grown id d hd
  exact h.orderly.lookup? hd' (hg.key.trans hk)

/-- A name that stands for a chip only now is the name of a gate, in some spelling. -/
theorem exists_gate (h : Local s s') (hn : s.lookup? name = none) (hl : (s'.lookup? name).isSome) :
    ∃ g : Gate, foldCase g.name = foldCase name := by
  obtain ⟨id, hid⟩ := Option.isSome_iff_exists.1 hl
  obtain ⟨d', hd', hk⟩ := definition?_of_find? hid
  have hnew : s.definition? id = none := by
    cases hd : s.definition? id with
    | none => rfl
    | some d =>
      obtain ⟨d₂, hd₂, hg⟩ := h.grown id d hd
      obtain rfl : d' = d₂ := Option.some.inj (hd'.symm.trans hd₂)
      exact absurd (hg.key.symm.trans hk) (find?_eq_none_iff.1 hn id d hd)
  obtain ⟨g, hg⟩ := h.gates id d' hnew hd'
  exact ⟨g, hg.key.symm.trans hk⟩

/-- A part is as it was written. -/
theorem part? (h : Local s s') {i : Nat} {p' : Part} (hp : s'.part? id i = some p') :
    ∃ p, s.part? id i = some p ∧ p'.written = p.written := by
  obtain ⟨d', hd', hi⟩ := definition?_of_part? hp
  cases hd : s.definition? id with
  | none =>
    obtain ⟨g, hg⟩ := h.gates id d' hd hd'
    have hsize : d'.parts.size = 0 := hg.size_parts
    obtain ⟨hlt, -⟩ := Array.getElem?_eq_some_iff.1 hi
    omega
  | some d =>
    obtain ⟨d₂, hd₂, hg⟩ := h.grown id d hd
    obtain rfl : d' = d₂ := Option.some.inj (hd'.symm.trans hd₂)
    have hw : (d.parts.map Part.written)[i]? = some p'.written := by
      rw [← hg.parts, Array.getElem?_map, hi, Option.map_some]
    rw [Array.getElem?_map] at hw
    obtain ⟨p, hp, hw⟩ := Option.map_eq_some_iff.1 hw
    exact ⟨p, by rw [Session.part?, hd, Option.bind_some, hp], hw.symm⟩

/-- No part comes up. -/
theorem mem_range (h : Local s s') {d : Definition} (hd : s.definition? id = some d) {i : Nat}
    {p : Part} (hp : s'.part? id i = some p) : i ∈ List.range d.parts.size := by
  obtain ⟨p₀, hp₀, -⟩ := h.part? hp
  obtain ⟨d₀, hd₀, hi⟩ := definition?_of_part? hp₀
  obtain rfl : d = d₀ := Option.some.inj (hd.symm.trans hd₀)
  exact List.mem_range.2 (Array.getElem?_eq_some_iff.1 hi).1

end Local

/-! ### Steps -/

theorem local_withGate (hlib : s.library = none) (ho : s.Orderly) {g : Gate}
    (hnew : s.find? g.definition.key = none) : Local s (s.withGate g) := by
  have hget := definition?_withGate s g
  have hlast : s.definition? s.chips.size = none := by simp [definition?_eq]
  refine ⟨hlib, ⟨fun id d hd => ?_, fun id id' d d' hd hd' hk => ?_⟩, rfl, List.Subset.refl _,
    fun id d hd => ⟨d, ?_, .refl d⟩, fun id d' hnone hd' => ?_⟩
  · rw [hget] at hd
    split at hd
    · cases hd
      exact g.declared_definition.sane
    · exact ho.sane id d hd
  · have hold := find?_eq_none_iff.1 hnew
    rw [hget] at hd hd'
    split at hd <;> split at hd'
    · next he he' => exact he.trans he'.symm
    · cases hd
      exact absurd hk.symm (hold id' d' hd')
    · cases hd'
      exact absurd hk (hold id d hd)
    · exact ho.unique id id' d d' hd hd' hk
  · rw [hget, if_neg (by rintro rfl; rw [hlast] at hd; cases hd), hd]
  · rw [hget] at hd'
    split at hd'
    · cases hd'
      exact ⟨g, .refl _⟩
    · rw [hnone] at hd'
      cases hd'

theorem local_resolve (hlib : s.library = none) (ho : s.Orderly) (name : String) (span : Span) :
    Local s (s.resolve name span).2 := by
  have hsearch := localSearch_resolve hlib name span
  generalize s.resolve name span = r at hsearch ⊢
  cases hsearch with
  | answered _ => exact .refl hlib ho
  | gate unknown named => exact local_withGate hlib ho (find?_of_not_answered unknown named).1
  | nothing _ _ =>
    exact .of_definition? hlib ho rfl (List.subset_append_left _ _) fun _ => rfl

theorem local_modifyDefinition (hlib : s.library = none) (ho : s.Orderly)
    {f : Definition → Definition} {hkey : ∀ d, (f d).key = d.key}
    (hf : ∀ d, s.definition? id = some d → d.Grows (f d) ∧ (f d).Sane) :
    Local s (s.modifyDefinition id f hkey) := by
  have hget := definition?_modifyDefinition_eq s id f hkey
  -- each definition comes from one at the same place
  have hfrom : ∀ a d', (s.modifyDefinition id f hkey).definition? a = some d' →
      ∃ d, s.definition? a = some d ∧ d.Grows d' ∧ d'.Sane := by
    intro a d' hd'
    rw [hget] at hd'
    split at hd'
    · next ha =>
      subst ha
      obtain ⟨d, hd, rfl⟩ := Option.map_eq_some_iff.1 hd'
      exact ⟨d, hd, hf d hd⟩
    · exact ⟨d', hd', .refl d', ho.sane a d' hd'⟩
  refine ⟨hlib, ⟨fun a d' hd' => ?_, fun a b d d' hd hd' hk => ?_⟩, rfl, List.Subset.refl _,
    grown_modifyDefinition s id fun d hd => (hf d hd).1, fun a d' hnone hd' => ?_⟩
  · obtain ⟨-, -, -, hsane⟩ := hfrom a d' hd'
    exact hsane
  · obtain ⟨d₁, hd₁, hg₁, -⟩ := hfrom a d hd
    obtain ⟨d₂, hd₂, hg₂, -⟩ := hfrom b d' hd'
    exact ho.unique a b d₁ d₂ hd₁ hd₂ (hg₁.key.symm.trans (hk.trans hg₂.key))
  · obtain ⟨d, hd, -⟩ := hfrom a d' hd'
    rw [hnone] at hd
    cases hd

theorem local_report (hlib : s.library = none) (ho : s.Orderly) (p : Problem) (span : Span) :
    Local s (s.report p span) :=
  .of_definition? hlib ho rfl (List.Subset.refl _) fun _ => rfl

theorem local_addPinTo (hlib : s.library = none) (ho : s.Orderly) (id : Nat) (p : Pin) :
    Local s (s.addPinTo id p).2 := by
  rcases s.addPinTo_cases id p with ⟨-, hadd⟩ | ⟨d, refusal, -, -, hadd⟩ | ⟨d, hd, hr, hadd⟩
  · exact hadd ▸ .refl hlib ho
  · exact hadd ▸ local_report hlib ho _ _
  · rw [hadd]
    refine local_modifyDefinition hlib ho fun d₀ hd₀ => ?_
    obtain rfl : d = d₀ := Option.some.inj (hd.symm.trans hd₀)
    exact ⟨.push d p, (ho.sane id d hd).push hr⟩

theorem Searched.local (h : Searched s s') (hlib : s.library = none) (ho : s.Orderly) :
    Local s s' := by
  induction h with
  | refl => exact .refl hlib ho
  | tail _ h ih =>
    obtain ⟨name, span, rfl⟩ := h
    exact ih.trans (local_resolve ih.library ih.orderly name span)

theorem Pace.local (h : Pace s s') (hlib : s.library = none) (ho : s.Orderly) :
    Local s s' := by
  cases h with
  | resolve name span => exact local_resolve hlib ho name span
  | @net id _ r width =>
    rw [addNet_eq]
    have hsearched := (searched_netWidth s id r.key (r.leastWidth width)).local hlib ho
    exact hsearched.trans (local_addPinTo hsearched.library hsearched.orderly _ _)
  | report wiring span => exact local_report hlib ho _ span

theorem Stride.local (h : Stride s s') (hlib : s.library = none) (ho : s.Orderly) :
    Local s s' := by
  cases h with
  | pace h => exact h.local hlib ho
  | circle name span => exact local_report hlib ho _ span
  | setStatus id status =>
    exact .of_definition? hlib ho rfl (List.Subset.refl _) (definition?_setStatus s id status)
  | @setLink id _ _ _ _ _ =>
    exact local_modifyDefinition hlib ho fun d hd =>
      ⟨.setLink d _ _, (ho.sane id d hd).setLink _ _⟩

/-- **Strides without a library are local.** -/
theorem Strides.local (h : Strides s s') (hlib : s.library = none) (ho : s.Orderly) :
    Local s s' := by
  induction h with
  | refl => exact .refl hlib ho
  | tail _ h ih => exact ih.trans (h.local ih.library ih.orderly)

/-! ## Steps that leave parts alone -/

/-- All parts stay as they are, and the chips that come up are not linked. -/
structure Still (s s' : Session) : Prop where
  parts : ∀ a i, s'.part? a i = s.part? a i
  status : ∀ a, s'.status? a = s.status? a ∨ s.status? a = none ∧ s'.status? a = some .unlinked

namespace Still

theorem refl (s : Session) : Still s s := ⟨fun _ _ => rfl, fun _ => .inl rfl⟩

theorem trans (h : Still s s') (h' : Still s' s'') : Still s s'' where
  parts a i := (h'.parts a i).trans (h.parts a i)
  status a := by
    rcases h'.status a with he' | ⟨hn', hu'⟩
    · rw [he']
      exact h.status a
    · rcases h.status a with he | ⟨-, hu⟩
      · exact .inr ⟨he ▸ hn', hu'⟩
      · rw [hn'] at hu
        cases hu

theorem linked_iff (h : Still s s') (a : Nat) : s'.Linked a ↔ s.Linked a := by
  unfold Linked
  rcases h.status a with he | ⟨hn, hu⟩
  · rw [he]
  · simp [hn, hu]

theorem blank (h : Still s s') (hb : s.Blank) : s'.Blank := by
  intro a ha i
  rw [target?, h.parts]
  rcases h.status a with he | ⟨hn, -⟩
  · exact hb a (he ▸ ha) i
  · exact target?_of_status?_eq_none hn i

end Still

/-- A step that leaves the chips alone. -/
theorem Still.of_chips (h : s'.chips = s.chips) : Still s s' where
  parts a i := by rw [part?, part?, definition?_congr (congrArg (·[a]?) h)]
  status a := .inl (status?_congr (congrArg (·[a]?) h))

theorem still_withGate (s : Session) (g : Gate) : Still s (s.withGate g) where
  parts a i := by
    rw [part?, part?, definition?_withGate]
    split
    · next ha => simp [ha, Session.definition?_eq]
    · rfl
  status a := by
    rw [status?_eq, status?_eq, chips_withGate, Array.getElem?_push]
    split
    · next ha => exact .inr (by simp [ha])
    · exact .inl rfl

theorem still_resolve (hlib : s.library = none) (name : String) (span : Span) :
    Still s (s.resolve name span).2 := by
  have hsearch := localSearch_resolve hlib name span
  generalize s.resolve name span = r at hsearch ⊢
  cases hsearch with
  | answered _ => exact .refl s
  | @gate g _ _ => exact still_withGate s g
  | nothing _ _ => exact .of_chips rfl

theorem Searched.still (h : Searched s s') (hlib : s.library = none) (ho : s.Orderly) :
    Still s s' := by
  induction h with
  | refl => exact .refl s
  | tail hs h ih =>
    obtain ⟨name, span, rfl⟩ := h
    exact ih.trans (still_resolve (Searched.local hs hlib ho).library name span)

theorem still_addPinTo (s : Session) (id : Nat) (p : Pin) : Still s (s.addPinTo id p).2 where
  parts := part?_addPinTo s id p
  status a := (calm_addPinTo s id p).status a

theorem Pace.still (h : Pace s s') (hlib : s.library = none) (ho : s.Orderly) : Still s s' := by
  cases h with
  | resolve name span => exact still_resolve hlib name span
  | @net id _ r width =>
    rw [addNet_eq]
    exact ((searched_netWidth s id r.key (r.leastWidth width)).still hlib ho).trans
      (still_addPinTo _ id _)
  | report wiring span => exact .of_chips rfl

theorem Paces.still (h : Paces s s') (hlib : s.library = none) (ho : s.Orderly) : Still s s' := by
  induction h with
  | refl => exact .refl s
  | tail hs h ih =>
    have hlocal := (Paces.strides hs).local hlib ho
    exact ih.trans (h.still hlocal.library hlocal.orderly)

end Session

end ChipLogic
