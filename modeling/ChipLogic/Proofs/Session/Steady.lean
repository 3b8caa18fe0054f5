import ChipLogic.Proofs.Session.Fitting
import ChipLogic.Proofs.Session.Offline

/-!
# Nets are made for all references

The width of a net is looked ahead for when the net is first needed. References may ask for more
later, when their chips have been found, but no reference asks for less (`Session.Asks.local`). So
whenever a net is made, it is as wide as was asked for at any time before.

`Session.Steady s s'` says so of a whole row of paces, and that nothing but nets is added to the
pins of chips. A pin that is found stays (`Session.Steady.pinNamed?`), and a pin that is found later
is there already or is a net that is wide enough (`Session.Steady.pinNamed?_cases`).
-/

namespace ChipLogic

namespace Session

variable {s s' s'' : Session} {parent : Nat} {m : Mention} {n : Nat} {d : Definition}

/-! ## What is asked of nets -/

/-- A mention asks its net to have so many bits, by its range, or by the pin on the inner side. -/
inductive Asks (s : Session) (m : Mention) : Nat → Prop
  | range {range : BitRange} (has : m.range = some range) (ordered : range.isOrdered = true) :
      Asks s m range.extent
  | pin {a i : Nat} {inside : Definition} {p : Pin} (whole : m.range = none)
      (chip : s.definition? a = some inside) (key : inside.key = foldCase m.chip)
      (named : inside.pinNamed? m.inner.key = some (i, p)) : Asks s m (bitsMeant (some p) m.inner)

/-- **No mention asks for less later on.** -/
theorem Asks.local (h : s.Asks m n) (hl : Local s s') : s'.Asks m n := by
  cases h with
  | range has ordered => exact .range has ordered
  | @pin a i inside p whole chip key named =>
    obtain ⟨inside', chip', hg⟩ := hl.grown a inside chip
    exact .pin whole chip' (hg.key.trans key) (hg.pinNamed? (hl.orderly.sane a inside' chip') named)

theorem Asks.le_mentionWidth (h : s.Asks m n) (ho : s.Orderly) : n ≤ (s.mentionWidth m).1 := by
  unfold mentionWidth
  cases h with
  | range has ordered => simp [has, ordered]
  | pin whole chip key named =>
    rw [whole]
    dsimp only
    rw [resolve_of_lookup? (ho.lookup? chip key)]
    simp [chip, named]

/-- What a mention is found to ask for, it asks for when its chip has been searched for. -/
theorem asks_mentionWidth (s : Session) (m : Mention) :
    (s.mentionWidth m).1 = 0 ∨ (s.mentionWidth m).2.Asks m (s.mentionWidth m).1 := by
  unfold mentionWidth
  cases hr : m.range with
  | some range =>
    by_cases hord : range.isOrdered = true
    · simp only [hord, if_true]
      exact .inr (.range hr hord)
    · exact .inl (if_neg hord)
  | none =>
    have hnamed := fun child => @named_of_resolve s child m.chip m.span
    generalize s.resolve m.chip m.span = r at hnamed ⊢
    obtain ⟨found, s₁⟩ := r
    cases found with
    | none => exact .inl rfl
    | some child =>
      obtain ⟨inside, hinside, hkey⟩ := hnamed child rfl
      simp only [hinside, Option.bind_some]
      cases hp : inside.pinNamed? m.inner.key with
      | none => exact .inl rfl
      | some found => exact .inr (.pin hr hinside hkey hp)

theorem Asks.le_widestMention (h : s.Asks m n) (hlib : s.library = none) (ho : s.Orderly)
    (width : Nat) {ms : List Mention} (hm : m ∈ ms) : n ≤ (s.widestMention width ms).1 := by
  induction ms generalizing s width with
  | nil => cases hm
  | cons m' ms ih =>
    rcases List.mem_cons.1 hm with rfl | hm
    · exact (h.le_mentionWidth ho).trans
        ((Nat.le_max_right width _).trans (Session.le_widestMention _ _ ms))
    · have hlocal := (searched_mentionWidth s m').local hlib ho
      exact ih (h.local hlocal) hlocal.library hlocal.orderly _ hm

/-- The width of a net is its least width, or some mention asks for it in the end. -/
theorem asks_widestMention (hlib : s.library = none) (ho : s.Orderly) (width : Nat)
    (ms : List Mention) : (s.widestMention width ms).1 = width ∨
      ∃ m ∈ ms, (s.widestMention width ms).2.Asks m (s.widestMention width ms).1 := by
  induction ms generalizing s width with
  | nil => exact .inl rfl
  | cons m ms ih =>
    have hlocal := (searched_mentionWidth s m).local hlib ho
    have hrest := (searched_widestMention (s.mentionWidth m).2
      (max width (s.mentionWidth m).1) ms).local hlocal.library hlocal.orderly
    rcases ih hlocal.library hlocal.orderly (max width (s.mentionWidth m).1)
      with hmax | ⟨m', hm', h⟩
    · -- the rest asks for no more, so the first mention decides
      have hresult : (s.widestMention width (m :: ms)).1 = max width (s.mentionWidth m).1 := hmax
      rcases asks_mentionWidth s m with hzero | hasks
      · exact .inl (by rw [hresult, hzero, Nat.max_zero])
      · rcases Nat.le_total (s.mentionWidth m).1 width with hle | hle
        · exact .inl (by rw [hresult, Nat.max_eq_left hle])
        · refine .inr ⟨m, List.mem_cons_self, ?_⟩
          rw [hresult, Nat.max_eq_right hle]
          exact hasks.local hrest
    · exact .inr ⟨m', List.mem_cons_of_mem _ hm', h⟩

/-! ## Steady steps -/

/-- Pins are added only as nets, and as wide as was asked for before. -/
structure Steady (s s' : Session) : Prop extends Local s s' where
  nets : ∀ a d d', s.definition? a = some d → s'.definition? a = some d' → ∀ q ∈ d'.pins,
    q ∈ d.pins ∨ q.kind = .internal ∧ ∀ m ∈ d.mentions q.key, ∀ n, s.Asks m n → n ≤ q.width

namespace Steady

/-- A step that leaves the pins of chips alone. -/
theorem of_pins (h : Local s s') (hp : ∀ a d d', s.definition? a = some d →
    s'.definition? a = some d' → d'.pins = d.pins) : Steady s s' :=
  ⟨h, fun a d d' hd hd' _ hq => .inl (hp a d d' hd hd' ▸ hq)⟩

/-- A step that leaves the chips alone that are there. -/
theorem of_same (h : Local s s')
    (hd : ∀ a d, s.definition? a = some d → s'.definition? a = some d) : Steady s s' :=
  .of_pins h fun a d d' hs hs' => by
    rw [hd a d hs, Option.some.injEq] at hs'
    rw [hs']

theorem refl (hlib : s.library = none) (ho : s.Orderly) : Steady s s :=
  .of_same (.refl hlib ho) fun _ _ hd => hd

theorem trans (h : Steady s s') (h' : Steady s' s'') : Steady s s'' := by
  refine ⟨h.toLocal.trans h'.toLocal, fun a d d'' hd hd'' q hq => ?_⟩
  obtain ⟨d', hd', hg⟩ := h.grown a d hd
  rcases h'.nets a d' d'' hd' hd'' q hq with hq' | ⟨hkind, hwide⟩
  · exact h.nets a d d' hd hd' q hq'
  · refine .inr ⟨hkind, fun m hm n hn => hwide m ?_ n (hn.local h.toLocal)⟩
    rwa [hg.mentions]

/-- A pin that is found later is there already, or it is a net. -/
theorem pinNamed?_cases (h : Steady s s') {a i : Nat} {d' : Definition} {key : String} {p : Pin}
    (hd : s.definition? a = some d) (hd' : s'.definition? a = some d')
    (hp : d'.pinNamed? key = some (i, p)) :
    d.pinNamed? key = some (i, p) ∨ d.pinNamed? key = none ∧ p.kind = .internal ∧
      ∀ m ∈ d.mentions key, ∀ n, s.Asks m n → n ≤ p.width := by
  obtain ⟨d₂, hd₂, hg⟩ := h.grown a d hd
  obtain rfl : d' = d₂ := Option.some.inj (hd'.symm.trans hd₂)
  have hsane := h.orderly.sane a d' hd'
  obtain ⟨hi, rfl⟩ := Definition.of_pinNamed? hp
  cases hold : d.pinNamed? p.key with
  | some found =>
    obtain ⟨j, q⟩ := found
    have hj := hg.pinNamed? hsane hold
    rw [hp] at hj
    exact .inl hj.symm
  | none =>
    rcases h.nets a d d' hd hd' p (Array.mem_of_getElem? hi) with hmem | hnet
    · exact absurd rfl (Definition.pinNamed?_eq_none_iff.1 hold p hmem)
    · exact .inr ⟨rfl, hnet⟩

/-- A pin that is found stays. -/
theorem pinNamed? (h : Steady s s') {a i : Nat} {key : String} {p : Pin}
    (hd : s.definition? a = some d) (hp : d.pinNamed? key = some (i, p)) :
    ∃ d', s'.definition? a = some d' ∧ d'.pinNamed? key = some (i, p) := by
  obtain ⟨d', hd', hg⟩ := h.grown a d hd
  exact ⟨d', hd', hg.pinNamed? (h.orderly.sane a d' hd') hp⟩

end Steady

theorem steady_resolve (hlib : s.library = none) (ho : s.Orderly) (name : String) (span : Span) :
    Steady s (s.resolve name span).2 := by
  refine .of_same (local_resolve hlib ho name span) fun a d hd => ?_
  have hsearch := localSearch_resolve hlib name span
  generalize s.resolve name span = r at hsearch ⊢
  cases hsearch with
  | answered _ => exact hd
  | gate _ _ =>
    have hlt : a ≠ s.chips.size := by
      rintro rfl
      simp [definition?_eq] at hd
    rw [definition?_withGate, if_neg hlt, hd]
  | nothing _ _ => exact hd

theorem steady_report (hlib : s.library = none) (ho : s.Orderly) (p : Problem) (span : Span) :
    Steady s (s.report p span) :=
  .of_same (local_report hlib ho p span) fun _ _ hd => hd

theorem Searched.steady (h : Searched s s') (hlib : s.library = none) (ho : s.Orderly) :
    Steady s s' := by
  induction h with
  | refl => exact .refl hlib ho
  | tail _ h ih =>
    obtain ⟨name, span, rfl⟩ := h
    exact ih.trans (steady_resolve ih.library ih.orderly name span)

/-- **A net is as wide as all references to it asked before.** -/
theorem steady_addNet (hlib : s.library = none) (ho : s.Orderly)
    (hs : s.status? parent = some .inProgress) (r : Reference) (width : Nat) :
    Steady s (s.addNet parent r width).2 := by
  have hlocal := (Pace.net hs r width).local hlib ho
  rw [addNet_eq] at hlocal ⊢
  have hsearched := (searched_netWidth s parent r.key (r.leastWidth width)).steady hlib ho
  have hkeep : Advances none s (s.netWidth parent r.key (r.leastWidth width)).2 :=
    advances_widestMention s _ _ none
  have hwide : ∀ m ∈ s.mentions parent r.key, ∀ n, s.Asks m n →
      n ≤ (s.netWidth parent r.key (r.leastWidth width)).1 :=
    fun m hm n hn => hn.le_widestMention hlib ho _ hm
  generalize s.netWidth parent r.key (r.leastWidth width) = net at hlocal hsearched hkeep hwide ⊢
  obtain ⟨bits, s₁⟩ := net
  dsimp only at hlocal hsearched hkeep hwide ⊢
  rcases s₁.addPinTo_cases parent (r.net bits) with
    ⟨-, hadd⟩ | ⟨d₁, refusal, -, -, hadd⟩ | ⟨d₁, hd₁, -, hadd⟩
  · exact hadd ▸ hsearched
  · exact hadd ▸ hsearched.trans (steady_report hsearched.library hsearched.orderly _ _)
  · rw [hadd] at hlocal ⊢
    refine ⟨hlocal, fun a d d' hd hd' q hq => ?_⟩
    dsimp only at hd'
    rw [definition?_modifyDefinition_eq] at hd'
    split at hd'
    · next ha =>
      subst ha
      rw [hd₁, Option.map_some, Option.some.injEq] at hd'
      subst hd'
      have hsame : s₁.definition? parent = s.definition? parent :=
        hkeep.definition?_inProgress hs (by simp)
      obtain rfl : d = d₁ := Option.some.inj (hd.symm.trans (hsame.symm.trans hd₁))
      rcases Array.mem_push.1 (d.pins_push _ ▸ hq) with hq | rfl
      · exact .inl hq
      · refine .inr ⟨rfl, fun m hm => hwide m ?_⟩
        rwa [mentions_eq hd]
    · exact hsearched.nets a d d' hd hd' q hq

theorem Pace.steady (h : Pace s s') (hlib : s.library = none) (ho : s.Orderly) :
    Steady s s' := by
  cases h with
  | resolve name span => exact steady_resolve hlib ho name span
  | net inProgress r width => exact steady_addNet hlib ho inProgress r width
  | report wiring span => exact steady_report hlib ho _ span

theorem Stride.steady (h : Stride s s') (hlib : s.library = none) (ho : s.Orderly) :
    Steady s s' := by
  have hlocal := h.local hlib ho
  cases h with
  | pace h => exact h.steady hlib ho
  | circle name span => exact steady_report hlib ho _ span
  | setStatus a status =>
    exact .of_same hlocal fun b d hd => (definition?_setStatus s a status b).trans hd
  | setLink =>
    refine .of_pins hlocal fun b d d' hd hd' => ?_
    rw [Session.setLink, definition?_modifyDefinition_eq, hd] at hd'
    split at hd' <;> · cases hd'; rfl

theorem Paces.steady (h : Paces s s') (hlib : s.library = none) (ho : s.Orderly) :
    Steady s s' := by
  induction h with
  | refl => exact .refl hlib ho
  | tail _ h ih => exact ih.trans (h.steady ih.library ih.orderly)

end Session

end ChipLogic
