import ChipLogic.Proofs.Session.Loading
import ChipLogic.Proofs.Session.Outcome

/-!
# The walk through parts

Linking walks through the graph of chips (`Session.Contains`), which becomes known on the way: an
edge is there once a part was found to stand for a chip (`Session.target?`). Chips on the way down
are in progress, finished ones are linked (`Session.Linked`).

**Errands are calm** (`Session.Errands.calm`). They add unlinked chips and leave the graph alone.

**Tours** (`Session.Tour`). A stretch of the walk adds edges and links chips. Each report of a
circle on it has an owner: a part that had no edge before and has one after. So no part owns two
reports.

What an edge leads to may be known only when the walk is over, since the edges on the way down are
the last to be added. Tours therefore speak about any session `f` in which they have come to an end
(`Session.Carries`):

* if the chips on the way down are linked in `f`, the edges of all chips linked on the tour lead to
  linked chips (`closed`);
* if there is no report, a property that passes from the targets of a chip's edges to the chip
  passes to all chips linked on the tour (`grounded`), so there is no circle among them;
* if each chip on the way down reaches the place where the tour started, every owner of a report
  lies on a circle (`Session.Genuine`).
-/

namespace ChipLogic

namespace Session

variable {s s' s'' f : Session} {path : List Nat} {parent child here : Nat}
  {owners owners' : List (Nat × Nat)} {ds : List Definition}

/-! ## The graph of chips -/

/-- The chip that a part was found to stand for. -/
def target? (s : Session) (a i : Nat) : Option Nat :=
  (s.part? a i).bind Part.resolved

/-- A part of the chip `a` stands for the chip `b`. -/
def Contains (s : Session) (a b : Nat) : Prop :=
  ∃ i, s.target? a i = some b

/-- The chip `b` is `a` or lies inside it at any depth. -/
def Inside (s : Session) (a b : Nat) : Prop :=
  Relation.ReflTransGen s.Contains a b

/-- The chip is inside itself. -/
def Circular (s : Session) (a : Nat) : Prop :=
  Relation.TransGen s.Contains a a

/-- Linking the chip has come to an end. -/
def Linked (s : Session) (a : Nat) : Prop :=
  ∃ ok, s.status? a = some (.linked ok)

/-- The chip that a part stands for contains the chip around the part. -/
def Closes (s : Session) (o : Nat × Nat) : Prop :=
  ∃ b, s.target? o.1 o.2 = some b ∧ s.Inside b o.1

/-- The report that a part closes a circle. -/
def circleAt? (s : Session) (o : Nat × Nat) : Option Diagnostic :=
  (s.part? o.1 o.2).map fun p => (Problem.circular p.chip).report p.span

/-- The parts of chips that are not linked yet stand for nothing yet. -/
def Blank (s : Session) : Prop :=
  ∀ a, s.status? a = some .unlinked → ∀ i, s.target? a i = none

theorem target?_of_status?_eq_none {a : Nat} (h : s.status? a = none) (i : Nat) :
    s.target? a i = none := by
  have hd : s.definition? a = none := by
    simpa [status?_eq, Session.definition?_eq] using h
  simp [target?, part?, hd]

/-! ## Going on -/

/-- What stays of a session: the parts, the edges, and the linked chips with their edges. -/
structure Carries (s s' : Session) : Prop where
  circleAt : ∀ o d, s.circleAt? o = some d → s'.circleAt? o = some d
  target : ∀ a i b, s.target? a i = some b → s'.target? a i = some b
  linked : ∀ a, s.Linked a → s'.Linked a ∧ ∀ i, s'.target? a i = s.target? a i

theorem Carries.refl (s : Session) : Carries s s :=
  ⟨fun _ _ h => h, fun _ _ _ h => h, fun _ h => ⟨h, fun _ => rfl⟩⟩

theorem Carries.trans (h : Carries s s') (h' : Carries s' s'') : Carries s s'' where
  circleAt o d hd := h'.circleAt o d (h.circleAt o d hd)
  target a i b hb := h'.target a i b (h.target a i b hb)
  linked a ha := by
    obtain ⟨hl, ht⟩ := h.linked a ha
    obtain ⟨hl', ht'⟩ := h'.linked a hl
    exact ⟨hl', fun i => (ht' i).trans (ht i)⟩

/-! ## Errands -/

/-- Unlinked chips come up, and the graph stays as it is. -/
structure Calm (s s' : Session) : Prop where
  circles : s'.circles = s.circles
  circleAt : ∀ o d, s.circleAt? o = some d → s'.circleAt? o = some d
  target : ∀ a i, s'.target? a i = s.target? a i
  status : ∀ a, s'.status? a = s.status? a ∨
    s.status? a = none ∧ s'.status? a = some .unlinked

namespace Calm

theorem refl (s : Session) : Calm s s :=
  ⟨rfl, fun _ _ h => h, fun _ _ => rfl, fun _ => .inl rfl⟩

theorem trans (h : Calm s s') (h' : Calm s' s'') : Calm s s'' where
  circles := h'.circles.trans h.circles
  circleAt o d hd := h'.circleAt o d (h.circleAt o d hd)
  target a i := (h'.target a i).trans (h.target a i)
  status a := by
    rcases h.status a with he | ⟨hn, hu⟩
    · rw [← he]
      exact h'.status a
    · rcases h'.status a with he' | ⟨hn', -⟩
      · exact .inr ⟨hn, he'.trans hu⟩
      · rw [hu] at hn'
        cases hn'

theorem status?_iff (h : Calm s s') (a : Nat) {status : LinkStatus} (hs : status ≠ .unlinked) :
    s'.status? a = some status ↔ s.status? a = some status := by
  rcases h.status a with he | ⟨hn, hu⟩
  · rw [he]
  · simp [hn, hu, Ne.symm hs]

theorem linked_iff (h : Calm s s') (a : Nat) : s'.Linked a ↔ s.Linked a :=
  exists_congr fun _ => h.status?_iff a (by simp)

theorem carries (h : Calm s s') : Carries s s' where
  circleAt := h.circleAt
  target a i _ hb := (h.target a i).trans hb
  linked a ha := ⟨(h.linked_iff a).2 ha, h.target a⟩

theorem blank (h : Calm s s') (hb : s.Blank) : s'.Blank := by
  intro a ha i
  rw [h.target]
  rcases h.status a with he | ⟨hn, -⟩
  · exact hb a (he ▸ ha) i
  · exact target?_of_status?_eq_none hn i

/-- A step that leaves all parts and all statuses alone. -/
theorem of_parts (hc : s'.circles = s.circles) (hp : ∀ a i, s'.part? a i = s.part? a i)
    (hs : ∀ a, s'.status? a = s.status? a) : Calm s s' :=
  ⟨hc, fun o d hd => by rwa [circleAt?, hp], fun a i => by rw [target?, target?, hp],
    fun a => .inl (hs a)⟩

theorem of_chips (hc : s'.circles = s.circles) (h : s'.chips = s.chips) : Calm s s' :=
  of_parts hc (fun a i => by rw [part?, part?, definition?_congr (congrArg (·[a]?) h)])
    fun a => status?_congr (congrArg (·[a]?) h)

end Calm

/-- Registered chips stand after the others and have no edges. -/
theorem Registers.calm (h : Registers ds s s') (hd : ∀ d ∈ ds, d.Declared) : Calm s s' := by
  obtain ⟨new, hnew, hchips⟩ := h.chips
  have hget : ∀ a : Nat, s'.chips[a]? = s.chips[a]? ∨ s.chips[a]? = none ∧
      ∃ d ∈ new, s'.chips[a]? = some ({ definition := d } : Entry) := by
    intro a
    have ha : s'.chips[a]? =
        (s.chips.toList ++ new.map fun d => ({ definition := d } : Entry))[a]? := by
      rw [← hchips, Array.getElem?_toList]
    by_cases hlt : a < s.chips.size
    · left
      rw [ha, List.getElem?_append_left (by simpa using hlt), Array.getElem?_toList]
    · rw [List.getElem?_append_right (by simpa using hlt), List.getElem?_map] at ha
      have hnone : s.chips[a]? = none := by simpa using hlt
      cases hd : new[a - s.chips.toList.length]? with
      | none => left; rw [ha, hd, hnone]; rfl
      | some d => exact .inr ⟨hnone, d, List.mem_of_getElem? hd, by rw [ha, hd]; rfl⟩
  refine ⟨h.circles, fun o d hd => ?_, fun a i => ?_, fun a => ?_⟩
  · rcases hget o.1 with he | ⟨hn, -⟩
    · rwa [circleAt?, part?, definition?_congr he]
    · simp [circleAt?, part?, Session.definition?_eq, hn] at hd
  · rcases hget a with he | ⟨hn, d, hm, hs⟩
    · rw [target?, target?, part?, part?, definition?_congr he]
    · have hlink : (d.parts[i]?).bind Part.resolved = none := by
        cases hp : d.parts[i]? with
        | none => rfl
        | some p =>
          have hnone := (hd d (hnew.subset hm)).unlinked p (Array.mem_of_getElem? hp)
          simp [Part.resolved, hnone]
      simp [target?, part?, Session.definition?_eq, hn, hs, hlink]
  · rcases hget a with he | ⟨hn, d, -, hs⟩
    · exact .inl (status?_congr he)
    · exact .inr ⟨by simp [status?_eq, hn], by simp [status?_eq, hs]⟩

theorem part?_addPinTo (s : Session) (id : Nat) (p : Pin) (a i : Nat) :
    (s.addPinTo id p).2.part? a i = s.part? a i := by
  rcases s.addPinTo_cases id p with ⟨-, hadd⟩ | ⟨d, refusal, -, -, hadd⟩ | ⟨d, -, -, hadd⟩
  · rw [hadd]
  · exact hadd ▸ rfl
  · rw [hadd, part?, part?, definition?_modifyDefinition_eq]
    split
    · cases s.definition? a <;> rfl
    · rfl

theorem calm_addPinTo (s : Session) (id : Nat) (p : Pin) : Calm s (s.addPinTo id p).2 := by
  have hparts := part?_addPinTo s id p
  rcases s.addPinTo_cases id p with ⟨-, hadd⟩ | ⟨d, refusal, -, -, hadd⟩ | ⟨d, -, -, hadd⟩
  · rw [hadd] at hparts ⊢
    exact .of_parts rfl hparts fun _ => rfl
  · rw [hadd] at hparts ⊢
    exact .of_parts (circles_emitAll_of_not (List.forall_mem_singleton.2
      (Problem.isCircle_report (by simp) _)) s) hparts fun _ => rfl
  · rw [hadd] at hparts ⊢
    exact .of_parts rfl hparts fun _ => rfl

theorem Errand.calm (h : Errand s s') : Calm s s' := by
  cases h with
  | load path known =>
    exact (registers_loadSource s path _).1.calm fun _ => declared_of_mem_definitionsOf
  | gate g =>
    exact (registers_register s _).calm (List.forall_mem_singleton.2 g.declared_definition)
  | remember missing asked => exact .of_chips rfl rfl
  | emitAll other => exact .of_chips (circles_emitAll_of_not other s) rfl
  | net _ _ => exact calm_addPinTo s _ _

/-- **Errands leave the graph alone.** -/
theorem Errands.calm (h : Errands s s') : Calm s s' := by
  induction h with
  | refl => exact .refl s
  | tail _ he ih => exact ih.trans he.calm

/-! ## What edges mean -/

/-- Definitions stay where they are and only grow. -/
def Grown (s s' : Session) : Prop :=
  ∀ id d, s.definition? id = some d → ∃ d', s'.definition? id = some d' ∧ d.Grows d'

theorem Grown.named (h : Grown s s') {name : String} {b : Nat} (hn : s.Named name b) :
    s'.Named name b := by
  obtain ⟨d, hd, hk⟩ := hn
  obtain ⟨d', hd', hg⟩ := h b d hd
  exact ⟨d', hd', hg.key.trans hk⟩

/-- A part stays as it was written. -/
theorem Grown.part? (h : Grown s s') {a i : Nat} {p : Part} (hp : s.part? a i = some p) :
    ∃ p', s'.part? a i = some p' ∧ p'.written = p.written := by
  obtain ⟨d, hd, hi⟩ := definition?_of_part? hp
  obtain ⟨d', hd', hg⟩ := h a d hd
  have hw : (d'.parts.map Part.written)[i]? = some p.written := by
    rw [hg.parts, Array.getElem?_map, hi, Option.map_some]
  rw [Array.getElem?_map] at hw
  obtain ⟨p', hp', hw⟩ := Option.map_eq_some_iff.1 hw
  exact ⟨p', by rw [Session.part?, hd', Option.bind_some, hp'], hw⟩

theorem Grown.part?_chip (h : Grown s s') {a i : Nat} {p : Part} (hp : s.part? a i = some p) :
    ∃ p', s'.part? a i = some p' ∧ p'.chip = p.chip := by
  obtain ⟨p', hp', hw⟩ := h.part? hp
  exact ⟨p', hp', Part.chip_of_written hw⟩

theorem grown_modifyDefinition (s : Session) (id : Nat) {f : Definition → Definition}
    {hkey : ∀ d, (f d).key = d.key} (hf : ∀ d, s.definition? id = some d → d.Grows (f d)) :
    Grown s (s.modifyDefinition id f hkey) := by
  intro a d hd
  rw [definition?_modifyDefinition_eq]
  split
  · next ha => exact ⟨f d, by rw [hd, Option.map_some], hf d (ha ▸ hd)⟩
  · exact ⟨d, hd, .refl d⟩

theorem grown_addPinTo (s : Session) (id : Nat) (p : Pin) : Grown s (s.addPinTo id p).2 := by
  have hrefl : Grown s s := fun _ d hd => ⟨d, hd, .refl d⟩
  rcases s.addPinTo_cases id p with ⟨-, hadd⟩ | ⟨d, refusal, -, -, hadd⟩ | ⟨d, -, -, hadd⟩
  · exact hadd ▸ hrefl
  · exact hadd ▸ hrefl
  · exact hadd ▸ grown_modifyDefinition s id fun d _ => .push d p

theorem Errand.grown (h : Errand s s') : Grown s s' := by
  have of_advances : Advances none s s' → Grown s s' := fun ha _ _ hd => ha.definition? hd
  cases h with
  | load path known => exact of_advances (advances_loadSource s path _ none)
  | gate g => exact of_advances (advances_register g.declared_definition none)
  | remember missing asked => exact fun _ d hd => ⟨d, hd, .refl d⟩
  | emitAll other => exact of_advances (advances_emitAll s _ none)
  | net _ _ => exact grown_addPinTo s _ _

/-- An edge leads to the chip that the part's name means. -/
def Titled (s : Session) : Prop :=
  ∀ a i b, s.target? a i = some b → ∃ p, s.part? a i = some p ∧ s.Named p.chip b

/-- Old edges keep their meaning, and new ones have one. -/
theorem Titled.grown (h : s.Titled) (hg : Grown s s')
    (hb : ∀ a i b, s'.target? a i = some b → s.target? a i = some b ∨
      ∃ p, s'.part? a i = some p ∧ s'.Named p.chip b) : s'.Titled := by
  intro a i b ht
  rcases hb a i b ht with ht₀ | hnew
  · obtain ⟨p, hp, hn⟩ := h a i b ht₀
    obtain ⟨p', hp', hchip⟩ := hg.part?_chip hp
    exact ⟨p', hp', hchip ▸ hg.named hn⟩
  · exact hnew

theorem Titled.calm (h : s.Titled) (hg : Grown s s') (hc : Calm s s') : s'.Titled :=
  h.grown hg fun a i _ ht => .inl ((hc.target a i).symm.trans ht)

/-! ## Tours -/

/-- A stretch of the walk below the chips on `path`, with the owners of the reports on it. -/
structure Tour (path : List Nat) (s s' : Session) (owners : List (Nat × Nat)) : Prop
    extends Carries s s' where
  reports : ∃ new, s'.circles = s.circles ++ new ∧
    List.Forall₂ (fun o d => s'.circleAt? o = some d) owners new
  nodup : owners.Nodup
  before : ∀ o ∈ owners, s.target? o.1 o.2 = none
  after : ∀ o ∈ owners, ∃ b, s'.target? o.1 o.2 = some b
  inProgress : ∀ a, s'.status? a = some .inProgress ↔ s.status? a = some .inProgress
  blank : s.Blank → s'.Blank
  closed : ∀ f, Carries s' f → (∀ x ∈ path, f.Linked x) → ∀ x, s'.Linked x →
    s.Linked x ∨ ∀ b, f.Contains x b → f.Linked b
  grounded : owners = [] → ∀ f, Carries s' f → ∀ P : Nat → Prop,
    (∀ x, (∀ b, f.Contains x b → P b) → P x) → (∀ x, s.Linked x → P x) → ∀ x, s'.Linked x → P x

/-- Owners of reports lie on circles through the chip `here`, provided that the chips on the way
down reach it. -/
def Genuine (path : List Nat) (here : Nat) (s : Session) (owners : List (Nat × Nat)) : Prop :=
  ∀ f, Carries s f → (∀ x ∈ path, f.Inside x here) → ∀ o ∈ owners, f.Closes o ∧ f.Inside here o.1

theorem Genuine.nil (path : List Nat) (here : Nat) (s : Session) : Genuine path here s [] :=
  fun _ _ _ => List.forall_mem_nil _

theorem Genuine.append (h : Genuine path here s owners) (hc : Carries s s')
    (h' : Genuine path here s' owners') : Genuine path here s' (owners ++ owners') :=
  fun f hf hp => List.forall_mem_append.2 ⟨h f (hc.trans hf) hp, h' f hf hp⟩

namespace Tour

/-- Errands are a tour without a report. -/
theorem of_calm (path : List Nat) (h : Calm s s') : Tour path s s' [] where
  toCarries := h.carries
  reports := ⟨[], by rw [h.circles, List.append_nil], .nil⟩
  nodup := List.nodup_nil
  before := List.forall_mem_nil _
  after := List.forall_mem_nil _
  inProgress a := h.status?_iff a (by simp)
  blank := h.blank
  closed _ _ _ x hx := .inl ((h.linked_iff x).1 hx)
  grounded _ _ _ _ _ hP x hx := hP x ((h.linked_iff x).1 hx)

theorem refl (path : List Nat) (s : Session) : Tour path s s [] :=
  of_calm path (.refl s)

theorem trans (h : Tour path s s' owners) (h' : Tour path s' s'' owners') :
    Tour path s s'' (owners ++ owners') where
  toCarries := h.toCarries.trans h'.toCarries
  reports := by
    obtain ⟨new, hnew, ho⟩ := h.reports
    obtain ⟨new', hnew', ho'⟩ := h'.reports
    have ho := ho.imp fun o d => h'.circleAt o d
    exact ⟨new ++ new', by rw [hnew', hnew, List.append_assoc], List.rel_append ho ho'⟩
  nodup := by
    refine List.nodup_append.2 ⟨h.nodup, h'.nodup, fun o ho o' ho' he => ?_⟩
    obtain ⟨b, hb⟩ := h.after o ho
    rw [he, h'.before o' ho'] at hb
    cases hb
  before := by
    refine List.forall_mem_append.2 ⟨h.before, fun o ho => ?_⟩
    by_contra hne
    obtain ⟨b, hb⟩ := Option.ne_none_iff_exists'.1 hne
    have := h.target _ _ b hb
    rw [h'.before o ho] at this
    cases this
  after := by
    refine List.forall_mem_append.2 ⟨fun o ho => ?_, h'.after⟩
    obtain ⟨b, hb⟩ := h.after o ho
    exact ⟨b, h'.target _ _ b hb⟩
  inProgress a := (h'.inProgress a).trans (h.inProgress a)
  blank hb := h'.blank (h.blank hb)
  closed f hf hp x hx := by
    rcases h'.closed f hf hp x hx with hx' | hall
    · exact h.closed f (h'.toCarries.trans hf) hp x hx'
    · exact .inr hall
  grounded ho f hf P hstep hP := by
    obtain ⟨ho, ho'⟩ := List.append_eq_nil_iff.1 ho
    exact h'.grounded ho' f hf P hstep (h.grounded ho f (h'.toCarries.trans hf) P hstep hP)

theorem trans_calm (h : Tour path s s' owners) (h' : Calm s' s'') : Tour path s s'' owners := by
  have := h.trans (of_calm path h')
  rwa [List.append_nil] at this

end Tour

end Session

end ChipLogic
