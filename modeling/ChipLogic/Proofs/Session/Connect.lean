import ChipLogic.Proofs.Session.Resolve

/-!
# Connections become wires that fit

A connection of a part works on the chip around the part, which is in progress: it may add a net
there, and leaves its parts alone (`Session.Connects`). What can come of its outer side and of the
whole connection is said once, case by case (`Session.OuterRun`, `Session.ConnectRun`). A wire that it
becomes fits the pins of both
chips as they are afterwards (`Session.fits_of_connect`), and so do the wires of a whole part
(`Session.fits_of_connectAll`), since a wire that fits goes on fitting when pins are added.
-/

namespace ChipLogic

/-- The least width of a net for a reference; `width` is the width of the other side. -/
def Reference.leastWidth (r : Reference) (width : Nat) : Nat :=
  match r.range with
  | none => width
  | some range => range.extent

/-- The reference has a range that ends at the very last position. -/
def Reference.WrapsAround (r : Reference) : Prop :=
  ∃ range, r.range = some range ∧ range.WrapsAround

/-- The range of the reference lies inside the pin, or it wraps around and the pin is a net. -/
def Reference.Reaches (r : Reference) (q : Pin) : Prop :=
  ∀ range, r.range = some range →
    range.fits q.width ∨ range.WrapsAround ∧ q.kind = .internal

/-- A range that wraps around lies inside no pin. -/
theorem Reference.not_wrapsAround {r : Reference} {q : Pin} (hle : q.width ≤ maxWidth)
    (h : ∀ range, r.range = some range → range.fits q.width) : ¬ r.WrapsAround := by
  rintro ⟨range, hr, hwrap⟩
  exact hwrap.not_fits (Nat.le_trans hle (by decide)) (h range hr)

/-- The net that a reference makes. -/
def Reference.net (r : Reference) (width : Nat) : Pin :=
  ⟨r.name, width, .internal, r.span⟩

/-- What is asked of the range, if there is none. -/
theorem Reference.forall_of_none {r : Reference} {P : BitRange → Prop} (hr : r.range = none) :
    ∀ range, r.range = some range → P range := by
  simp [hr]

/-- What is asked of the range, if there is one. -/
theorem Reference.forall_of_some {r : Reference} {P : BitRange → Prop} {range : BitRange}
    (hr : r.range = some range) (hP : P range) : ∀ range, r.range = some range → P range := by
  intro range' he
  rw [hr] at he
  cases he
  exact hP

namespace Session

variable {s : Session} {parent child : Nat}

/-! ## Steps of connecting -/

/-- The part at a position of a chip. -/
def part? (s : Session) (id index : Nat) : Option Part :=
  (s.definition? id).bind (·.parts[index]?)

/-- `s'` comes from `s` by steps that connect parts of `parent`. -/
structure Connects (parent : Nat) (s s' : Session) : Prop extends Advances (some parent) s s' where
  parts : ∀ i, s'.part? parent i = s.part? parent i

namespace Connects

variable {s' s'' : Session}

theorem refl (parent : Nat) (s : Session) : Connects parent s s := ⟨.refl _ s, fun _ => rfl⟩

theorem trans (h : Connects parent s s') (h' : Connects parent s' s'') : Connects parent s s'' :=
  ⟨h.toAdvances.trans h'.toAdvances, fun i => (h'.parts i).trans (h.parts i)⟩

/-- A chip in progress is left alone by steps that work on no chip. -/
theorem of_none (hs : s.status? parent = some .inProgress) (h : Advances none s s') :
    Connects parent s s' :=
  ⟨h.of_none, fun i => by rw [part?, part?, h.definition?_inProgress hs (by simp)]⟩

end Connects

/-! ## The inner side -/

/-- The pin on the inner side is a terminal, and the range lies inside it. -/
theorem innerPin_eq_ok {r : Reference} {i : Nat} {p : Pin} (h : s.innerPin child r = .ok (i, p)) :
    ∃ d, s.definition? child = some d ∧ d.pinNamed? r.key = some (i, p) ∧ p.isTerminal ∧
      ∀ range, r.range = some range → range.fits p.width := by
  unfold innerPin at h
  dsimp only at h
  cases hd : s.definition? child with
  | none =>
    rw [hd] at h
    have hn : (default : Definition).pinNamed? r.key = none :=
      Definition.pinNamed?_eq_none_iff.2 fun p hp => by cases hp with | mk hp => cases hp
    rw [Option.getD_none, hn] at h
    cases h
  | some d =>
    rw [hd, Option.getD_some] at h
    refine ⟨d, rfl, ?_⟩
    split at h
    · cases h
    · next i' p' hp =>
      split at h
      · cases h
      · next ht =>
        have hterm : p'.isTerminal := by simpa using ht
        split at h
        · next hr =>
          cases h
          exact ⟨hp, hterm, Reference.forall_of_none hr⟩
        · next range hr =>
          split at h
          · next hf =>
            cases h
            exact ⟨hp, hterm, Reference.forall_of_some hr hf⟩
          · cases h

/-- What can be wrong with the inner side. -/
theorem innerPin_eq_error {r : Reference} {p : Problem} (h : s.innerPin child r = .error p) :
    (∃ chip, p = .unknownPin r.name chip) ∨ (∃ chip, p = .internalPin r.name chip) ∨
      ∃ range width, p = .badRange r.name range width := by
  unfold innerPin at h
  dsimp only at h
  split at h
  · cases h
    exact .inl ⟨_, rfl⟩
  · split at h
    · cases h
      exact .inr (.inl ⟨_, rfl⟩)
    · split at h
      · cases h
      · split at h
        · cases h
        · cases h
          exact .inr (.inr ⟨_, _, rfl⟩)

/-! ## Nets -/

theorem advances_mentionWidth (s : Session) (m : Mention) (work : Option Nat) :
    Advances work s (s.mentionWidth m).2 := by
  unfold mentionWidth
  split
  · exact .refl work s
  · have h := advances_resolve s m.chip m.span work
    split
    · next he =>
      rw [he] at h
      exact h
    · next he =>
      rw [he] at h
      exact h

theorem advances_widestMention (s : Session) (width : Nat) (ms : List Mention)
    (work : Option Nat) : Advances work s (s.widestMention width ms).2 := by
  induction ms generalizing s width with
  | nil => exact .refl work s
  | cons m ms ih => exact (advances_mentionWidth s m work).trans (ih _ _)

theorem le_widestMention (s : Session) (width : Nat) (ms : List Mention) :
    width ≤ (s.widestMention width ms).1 := by
  induction ms generalizing s width with
  | nil => exact Nat.le_refl _
  | cons m ms ih => exact Nat.le_trans (Nat.le_max_left _ _) (ih _ _)

theorem definition?_modifyDefinition {id : Nat} {d : Definition} (hd : s.definition? id = some d)
    (f : Definition → Definition) (hkey : ∀ d, (f d).key = d.key) :
    (s.modifyDefinition id f hkey).definition? id = some (f d) := by
  obtain ⟨e, he, rfl⟩ := definition?_eq_some_iff.1 hd
  simp [definition?_eq, Array.getElem?_modify, he]

/-- Work on the definition of a chip in progress. -/
theorem advances_modifyDefinition {d : Definition} {f : Definition → Definition}
    {hkey : ∀ d, (f d).key = d.key} (hd : s.definition? parent = some d)
    (hs : s.status? parent = some .inProgress) (hg : d.Grows (f d)) (hf : d.Sane → (f d).Sane) :
    Advances (some parent) s (s.modifyDefinition parent f hkey) := by
  obtain ⟨e, he, rfl⟩ := definition?_eq_some_iff.1 hd
  have hst : e.status = .inProgress := by simpa [status?_eq, he] using hs
  have hkeeps : Keeps (some parent) parent e { e with definition := f e.definition } :=
    ⟨hg, fun ok hok => by simp [hst] at hok, fun _ => ⟨hst, fun hw => absurd rfl hw⟩⟩
  exact .modify (s.chips_modifyDefinition parent f hkey) he hkeeps hf fun hl => by simp [hst] at hl

theorem connects_addPinTo (hs : s.status? parent = some .inProgress) (p : Pin) :
    Connects parent s (s.addPinTo parent p).2 := by
  rcases s.addPinTo_cases parent p with ⟨-, hadd⟩ | ⟨d, refusal, -, -, hadd⟩ | ⟨d, hd, hr, hadd⟩
  · exact hadd ▸ .refl _ s
  · exact hadd ▸ .of_none hs (advances_report s _ _ _)
  · rw [hadd]
    refine ⟨advances_modifyDefinition hd hs (.push d p) fun h => h.push hr, fun i => ?_⟩
    rw [part?, part?, definition?_modifyDefinition hd, hd]
    rfl

/-- A pin that was added stands at the position announced for it. -/
theorem definition?_of_addPinTo {p : Pin} {i : Nat} (h : (s.addPinTo parent p).1 = some i) :
    ∃ d, (s.addPinTo parent p).2.definition? parent = some d ∧ d.pins[i]? = some p := by
  rcases s.addPinTo_cases parent p with ⟨-, hadd⟩ | ⟨d, refusal, -, -, hadd⟩ | ⟨d, hd, -, hadd⟩
  · rw [hadd] at h
    cases h
  · rw [hadd] at h
    cases h
  · rw [hadd] at h ⊢
    refine ⟨d.push p, definition?_modifyDefinition hd _ _, ?_⟩
    cases h
    simp

/-- A pin that is added is added without a report. -/
theorem log_addPinTo {p : Pin} (hok : (s.addPinTo parent p).1.isSome) :
    (s.addPinTo parent p).2.log = s.log := by
  rcases s.addPinTo_cases parent p with ⟨-, hadd⟩ | ⟨d, refusal, -, -, hadd⟩ | ⟨d, -, -, hadd⟩
  · rw [hadd]
  · rw [hadd] at hok
    cases hok
  · exact hadd ▸ rfl

theorem addNet_eq (s : Session) (parent : Nat) (r : Reference) (width : Nat) :
    s.addNet parent r width =
      let net := s.netWidth parent r.key (r.leastWidth width)
      let added := net.2.addPinTo parent (r.net net.1)
      (added.1.map fun i => (i, r.net net.1), added.2) := by
  unfold addNet Reference.leastWidth Reference.net
  dsimp only
  generalize s.netWidth parent r.key _ = net
  obtain ⟨bits, s⟩ := net
  dsimp only
  split <;> next he => rw [he]; rfl

theorem leastWidth_le_netWidth (s : Session) (parent : Nat) (r : Reference) (width : Nat) :
    r.leastWidth width ≤ (s.netWidth parent r.key (r.leastWidth width)).1 :=
  le_widestMention s _ _

theorem connects_addNet (hs : s.status? parent = some .inProgress) (r : Reference) (width : Nat) :
    Connects parent s (s.addNet parent r width).2 := by
  rw [addNet_eq]
  have hw := advances_widestMention s (r.leastWidth width) (s.mentions parent r.key) none
  exact (Connects.of_none hs hw).trans (connects_addPinTo (hw.status_inProgress hs) _)

/-! ## The outer side -/

/-- What comes of a reference on the outer side: a pin that is there, a net, or a report on the
range. -/
inductive OuterRun (s : Session) (parent : Nat) (r : Reference) (width : Nat) :
    Option (Nat × Pin) × Session → Prop
  | found {d : Definition} {i : Nat} {p : Pin} (hd : s.definition? parent = some d)
      (hp : d.pinNamed? r.key = some (i, p))
      (hfits : ∀ range, r.range = some range → range.fits p.width) :
      OuterRun s parent r width (some (i, p), s)
  | misfit {d : Definition} {i : Nat} {p : Pin} {range : BitRange}
      (hd : s.definition? parent = some d) (hp : d.pinNamed? r.key = some (i, p))
      (hr : r.range = some range) (hfits : ¬ range.fits p.width) :
      OuterRun s parent r width (none, s.report (.badRange r.name range p.width) r.span)
  | made (hn : (s.definition? parent).bind (·.pinNamed? r.key) = none)
      (hordered : ∀ range, r.range = some range → range.isOrdered) :
      OuterRun s parent r width (s.addNet parent r width)
  | reversed {range : BitRange} (hn : (s.definition? parent).bind (·.pinNamed? r.key) = none)
      (hr : r.range = some range) (hordered : ¬ range.isOrdered) :
      OuterRun s parent r width (none, s.report (.badRange r.name range range.extent) r.span)

theorem outerRun_outerPin (s : Session) (parent : Nat) (r : Reference) (width : Nat) :
    OuterRun s parent r width (s.outerPin parent r width) := by
  unfold outerPin
  split
  · next i p hfound =>
    obtain ⟨d, hd, hp⟩ := Option.bind_eq_some_iff.1 hfound
    split
    · next hr => exact .found hd hp (Reference.forall_of_none hr)
    · next range hr =>
      split
      · next hfits => exact .found hd hp (Reference.forall_of_some hr hfits)
      · next hfits => exact .misfit hd hp hr hfits
  · next hn =>
    split
    · next hr => exact .made hn (Reference.forall_of_none hr)
    · next range hr =>
      split
      · next hordered => exact .made hn (Reference.forall_of_some hr hordered)
      · next hordered => exact .reversed hn hr hordered

theorem connects_outerPin (hs : s.status? parent = some .inProgress) (r : Reference)
    (width : Nat) : Connects parent s (s.outerPin parent r width).2 := by
  have hcase := s.outerRun_outerPin parent r width
  generalize s.outerPin parent r width = outer at hcase ⊢
  cases hcase with
  | found => exact .refl _ s
  | misfit | reversed => exact .of_none hs (advances_report s _ _ _)
  | made => exact connects_addNet hs r width

/-- A net that was made stands in the chip, and the reference reaches it. -/
theorem pins_of_addNet {r : Reference} {width i : Nat} {q : Pin}
    (h : (s.addNet parent r width).1 = some (i, q))
    (hr : ∀ range, r.range = some range → range.isOrdered) :
    ∃ d, (s.addNet parent r width).2.definition? parent = some d ∧ d.pins[i]? = some q ∧
      r.Reaches q := by
  rw [addNet_eq] at h ⊢
  obtain ⟨j, hj, he⟩ := Option.map_eq_some_iff.1 h
  obtain ⟨rfl, rfl⟩ := Prod.mk.inj he
  obtain ⟨d, hd, hp⟩ := definition?_of_addPinTo hj
  refine ⟨d, hd, hp, fun range he => ?_⟩
  by_cases hwrap : range.WrapsAround
  · exact .inr ⟨hwrap, rfl⟩
  · have hleast : range.last + 1 = r.leastWidth width := by
      rw [Reference.leastWidth, he]
      exact (BitRange.extent_eq (hr range he) hwrap).symm
    have hlt : range.last < (s.netWidth parent r.key (r.leastWidth width)).1 :=
      Nat.le_trans (Nat.le_of_eq hleast) (leastWidth_le_netWidth s parent r width)
    rw [BitRange.fits, hr range he, Bool.true_and]
    exact .inl (decide_eq_true hlt)

/-- The pin on the outer side stands in the chip, and the reference reaches it. -/
theorem pins_of_outerPin {r : Reference} {width i : Nat} {q : Pin}
    (h : (s.outerPin parent r width).1 = some (i, q)) :
    ∃ d, (s.outerPin parent r width).2.definition? parent = some d ∧ d.pins[i]? = some q ∧
      r.Reaches q := by
  have hcase := s.outerRun_outerPin parent r width
  generalize s.outerPin parent r width = outer at hcase h ⊢
  cases hcase with
  | found hd hp hfits =>
    cases h
    exact ⟨_, hd, (Definition.of_pinNamed? hp).1, fun range hr => .inl (hfits range hr)⟩
  | misfit | reversed => cases h
  | made _ hordered => exact pins_of_addNet h hordered

/-! ## Wires -/

/-- What can be wrong with two sides that are there. -/
theorem join_eq_error {c : Connection} {inner outer : Nat × Pin} {p : Problem}
    (h : join c inner outer = .error p) :
    (∃ innerWidth outerWidth,
      p = .widthMismatch c.inner.text innerWidth c.outer.text outerWidth) ∨
      p = .drivesInput inner.2.name outer.2.name := by
  unfold join at h
  dsimp only at h
  generalize (if inner.2.kind = .input then Direction.drive else .sense) = direction at h
  split at h
  · cases h
    exact .inl ⟨_, _, rfl⟩
  · split at h
    · cases h
      exact .inr rfl
    · cases h

theorem widthOn_eq_endWidth (r : Reference) (p : Pin) : r.widthOn p.width = endWidth r.range p := by
  unfold Reference.widthOn endWidth
  cases r.range <;> rfl

/-- What `join` makes joins the two pins. -/
theorem joins_of_join {c : Connection} {i j : Nat} {p q : Pin} {w : Wire}
    (h : join c (i, p) (j, q) = .ok w) (ht : p.isTerminal)
    (hi : ∀ range, c.inner.range = some range → range.fits p.width)
    (ho : c.outer.Reaches q) : w.inner = i ∧ w.outer = j ∧ w.Joins p q := by
  unfold join at h
  dsimp only at h
  generalize hdir : (if p.kind = .input then Direction.drive else .sense) = dir at h
  have hdrive : dir = .drive ↔ p.kind = .input := by
    rw [← hdir]
    by_cases hk : p.kind = .input <;> simp [hk]
  split at h
  · cases h
  · next hw =>
    have hwidth : endWidth c.inner.range p = endWidth c.outer.range q := by
      rw [← widthOn_eq_endWidth, ← widthOn_eq_endWidth]
      exact Decidable.not_not.1 hw
    split at h
    · cases h
    · next hs =>
      cases h
      exact ⟨rfl, rfl, by simpa [Pin.isTerminal] using ht,
        fun r hr => BitRange.fits_iff.1 (hi r hr), fun r hr => (ho r hr).imp_left BitRange.fits_iff.1,
        hwidth, hdrive, fun hd hk => hs ⟨hd, hk⟩⟩

/-! ## Connections -/

/-- What comes of a connection: no inner side, no outer side, two sides that do not go together, or
a wire. -/
inductive ConnectRun (s : Session) (parent child : Nat) (c : Connection) : Option Wire × Session → Prop
  | noInner {p : Problem} (hi : s.innerPin child c.inner = .error p) :
      ConnectRun s parent child c (none, s.report p c.inner.span)
  | noOuter {inner : Nat × Pin} (hi : s.innerPin child c.inner = .ok inner)
      (ho : (s.outerPin parent c.outer (c.inner.widthOn inner.2.width)).1 = none) :
      ConnectRun s parent child c
        (none, (s.outerPin parent c.outer (c.inner.widthOn inner.2.width)).2)
  | apart {inner outer : Nat × Pin} {p : Problem} (hi : s.innerPin child c.inner = .ok inner)
      (ho : (s.outerPin parent c.outer (c.inner.widthOn inner.2.width)).1 = some outer)
      (hj : join c inner outer = .error p) : ConnectRun s parent child c
        (none, (s.outerPin parent c.outer (c.inner.widthOn inner.2.width)).2.report p c.span)
  | wire {inner outer : Nat × Pin} {w : Wire} (hi : s.innerPin child c.inner = .ok inner)
      (ho : (s.outerPin parent c.outer (c.inner.widthOn inner.2.width)).1 = some outer)
      (hj : join c inner outer = .ok w) : ConnectRun s parent child c
        (some w, (s.outerPin parent c.outer (c.inner.widthOn inner.2.width)).2)

theorem connectRun_connect (s : Session) (parent child : Nat) (c : Connection) :
    ConnectRun s parent child c (s.connect parent child c) := by
  unfold connect
  cases hi : s.innerPin child c.inner with
  | error p => exact .noInner hi
  | ok inner =>
    have hnone := @ConnectRun.noOuter s parent child c inner hi
    have happart := fun outer p => @ConnectRun.apart s parent child c inner outer p hi
    have hwire := fun outer w => @ConnectRun.wire s parent child c inner outer w hi
    dsimp only
    generalize s.outerPin parent c.outer (c.inner.widthOn inner.2.width) = found
      at hnone happart hwire ⊢
    obtain ⟨outer, s'⟩ := found
    cases outer with
    | none => exact hnone rfl
    | some outer =>
      dsimp only
      cases hj : join c inner outer with
      | error p => exact happart outer p rfl hj
      | ok w => exact hwire outer w rfl hj

theorem connects_connect (child : Nat) (hs : s.status? parent = some .inProgress) (c : Connection) :
    Connects parent s (s.connect parent child c).2 := by
  have hcase := s.connectRun_connect parent child c
  generalize s.connect parent child c = r at hcase ⊢
  cases hcase with
  | noInner => exact .of_none hs (advances_report s _ _ _)
  | noOuter | wire => exact connects_outerPin hs c.outer _
  | apart =>
    have houter := connects_outerPin hs c.outer
    exact (houter _).trans (.of_none ((houter _).status_inProgress hs) (advances_report _ _ _ _))

/-- The wires between two chips as they are now. -/
def WireFits (s : Session) (parent child : Nat) (w : Wire) : Prop :=
  ∃ inner outer, s.definition? child = some inner ∧ s.definition? parent = some outer ∧
    w.Fits inner.pins outer.pins

theorem WireFits.mono {s' : Session} {work : Option Nat} {w : Wire}
    (h : s.WireFits parent child w) (ha : Advances work s s') : s'.WireFits parent child w := by
  obtain ⟨inner, outer, hi, ho, hf⟩ := h
  obtain ⟨inner', hi', hgi⟩ := ha.definition? hi
  obtain ⟨outer', ho', hgo⟩ := ha.definition? ho
  exact ⟨inner', outer', hi', ho', hf.mono hgi.pins hgo.pins⟩

/-- **A connection becomes a wire that fits.** -/
theorem fits_of_connect (hs : s.status? parent = some .inProgress) {c : Connection} {w : Wire}
    (h : (s.connect parent child c).1 = some w) :
    (s.connect parent child c).2.WireFits parent child w := by
  have hcase := s.connectRun_connect parent child c
  generalize s.connect parent child c = r at hcase h ⊢
  cases hcase with
  | noInner | noOuter | apart => cases h
  | @wire inner outer _ hi ho hj =>
    cases h
    obtain ⟨i, p⟩ := inner
    obtain ⟨j, q⟩ := outer
    obtain ⟨d, hd, hp, ht, hri⟩ := innerPin_eq_ok hi
    obtain ⟨d', hd', hq, hro⟩ := pins_of_outerPin ho
    obtain ⟨d₁, hd₁, hg⟩ := (connects_outerPin hs c.outer (c.inner.widthOn p.width)).definition? hd
    obtain ⟨rfl, rfl, hw⟩ := joins_of_join hj ht hri hro
    have hp' := getElem?_of_toList_prefix hg.pins (Definition.of_pinNamed? hp).1
    exact ⟨d₁, d', hd₁, hd', p, q, hp', hq, hw⟩

theorem connects_connectAll (child : Nat) (hs : s.status? parent = some .inProgress)
    (cs : List Connection) :
    Connects parent s (s.connectAll parent child cs).2 := by
  induction cs generalizing s with
  | nil => exact .refl _ s
  | cons c cs ih =>
    have hc := connects_connect child hs c
    exact hc.trans (ih (hc.status_inProgress hs))

/-- **All wires of a part fit**, whether or not other connections failed. -/
theorem fits_of_connectAll (hs : s.status? parent = some .inProgress) {cs : List Connection}
    {w : Wire} (h : some w ∈ (s.connectAll parent child cs).1) :
    (s.connectAll parent child cs).2.WireFits parent child w := by
  induction cs generalizing s with
  | nil => cases h
  | cons c cs ih =>
    have hs' := (connects_connect child hs c).status_inProgress hs
    rcases List.mem_cons.1 h with he | h
    · exact (fits_of_connect hs he.symm).mono (connects_connectAll child hs' cs).toAdvances
    · exact ih hs' h

end Session

end ChipLogic
