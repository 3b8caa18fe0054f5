import ChipLogic.Proofs.Session.Linking

/-!
# Connections are made exactly where they fit

A connection of a part becomes a wire if and only if it fits (`Session.Connectable`), whatever was
linked before it. The inner side is looked up in the chip of the part as it is now, which may have
nets that its draft has not; but a net is no terminal. The outer side is a pin of the draft, or a
net that is already there, or a net that is made now; the width is the same in the last two cases.
Only for a reference that wraps around the two cases differ: it fits no net that is there.

All this holds if the inner sides of all connections of the chip exist (`Session.Offered`); they
decide the widths of nets. `Session.Finds` and `Session.Judges` collect what a step of linking tells
in either case.
-/

namespace ChipLogic

namespace Session

variable {s₀ s : Session} {path : List Nat} {d inside : Definition} {parent child : Nat}

/-- The least width of a net for a connection is one of those that are asked. -/
theorem leastWidth_le_netBits {part : Part} {c : Connection} {p : Pin} (hp : part ∈ d.parts)
    (hc : c ∈ part.connections) (hm : s₀.meant? part.chip = some inside)
    (ho : inside.Offers c.inner p)
    (hr : ∀ range, c.outer.range = some range → range.isOrdered) :
    c.outer.leastWidth (c.inner.widthOn p.width) ≤ s₀.netBits BitRange.extent d c.outer.key := by
  refine Nat.le_trans (Nat.le_of_eq ?_)
    (bitsAsked_le_netBits (Definition.mem_mentions.2 ⟨part, hp, c, hc, rfl, rfl⟩))
  unfold Reference.leastWidth bitsAsked
  dsimp only
  cases hrange : c.outer.range with
  | none =>
    obtain ⟨i, hi⟩ := ho.named
    simp [hm, hi]
  | some range => simp [hr range hrange]

/-! ## What a step tells -/

/-- A step in the middle of linking comes to a result. A good one is sure of something, and with
more known the result says whether something is good. -/
structure Judges (s₀ : Session) (path : List Nat) (sure known good : Prop) (ok : Bool)
    (s : Session) : Prop where
  linking : Linking s₀ path s
  sure : ok = true → sure
  iff : known → (ok = true ↔ good)

theorem Judges.bad {sure known good : Prop} (h : Linking s₀ path s) (hg : known → ¬ good) :
    Judges s₀ path sure known good false s where
  linking := h
  sure hok := by cases hok
  iff hk := iff_of_false Bool.false_ne_true (hg hk)

theorem Judges.fine {sure known good : Prop} (h : Linking s₀ path s) (hs : sure) (hg : good) :
    Judges s₀ path sure known good true s :=
  ⟨h, fun _ => hs, fun _ => iff_of_true rfl hg⟩

/-- Two steps, where what is good for the second may be told from what the first one does if it
goes well. -/
theorem Judges.and {sure sure' known good good' good'' : Prop} {ok ok' : Bool} {s' : Session}
    (h : Judges s₀ path sure known good ok s) (h' : Judges s₀ path sure' known good' ok' s')
    (hg : ok = true → (good' ↔ good'')) :
    Judges s₀ path (sure ∧ sure') known (good ∧ good'') (ok && ok') s' where
  linking := h'.linking
  sure hok := by
    rw [Bool.and_eq_true] at hok
    exact ⟨h.sure hok.1, h'.sure hok.2⟩
  iff hk := by
    rw [Bool.and_eq_true, h'.iff hk, ← h.iff hk]
    exact and_congr_right hg

theorem Judges.congr {sure sure' known good good' : Prop} {ok : Bool}
    (h : Judges s₀ path sure known good ok s) (hs : sure → sure') (hg : good ↔ good') :
    Judges s₀ path sure' known good' ok s :=
  ⟨h.linking, fun hok => hs (h.sure hok), fun hk => (h.iff hk).trans hg⟩

/-- A search in the chip `now` for an outer side finds what the reference stands for, or there is
nothing, or the reference wraps around and comes too late. -/
structure Finds (s₀ : Session) (path : List Nat) (d now : Definition) (r : Reference)
    (found : Option (Nat × Pin)) (s : Session) : Prop where
  linking : Linking s₀ path s
  takes : s₀.Offered d → ∀ i q, found = some (i, q) →
    s₀.Takes BitRange.extent d r q ∧ WrapsFirst now.names [r]
  nothing : s₀.Offered d → found = none → ∀ q, s₀.Takes BitRange.extent d r q →
    ¬ WrapsFirst now.names [r]

theorem Finds.pin {now : Definition} {r : Reference} {i : Nat} {q : Pin} (h : Linking s₀ path s)
    (ht : s₀.Offered d → s₀.Takes BitRange.extent d r q) (hw : WrapsFirst now.names [r]) :
    Finds s₀ path d now r (some (i, q)) s where
  linking := h
  takes ho j q' he := by
    cases he
    exact ⟨ht ho, hw⟩
  nothing _ he := by cases he

theorem Finds.none {now : Definition} {r : Reference} (h : Linking s₀ path s)
    (hn : s₀.Offered d → ∀ q, s₀.Takes BitRange.extent d r q → ¬ WrapsFirst now.names [r]) :
    Finds s₀ path d now r none s where
  linking := h
  takes _ j q he := by cases he
  nothing ho _ := hn ho

namespace Linking

/-! ## The inner side -/

/-- The inner side is looked up as it was before linking. -/
theorem innerPin_iff (h₀ : s₀.Fresh) (h : Linking s₀ path s) (hc : Stems s₀ s child inside)
    {r : Reference} {p : Pin} : (∃ i, s.innerPin child r = .ok (i, p)) ↔ inside.Offers r p := by
  obtain ⟨now, hnow, hsane, hdraft⟩ := h.definition? h₀ hc
  constructor
  · rintro ⟨i, hi⟩
    obtain ⟨d, hd, hp, hterm, hr⟩ := innerPin_eq_ok hi
    rw [hnow] at hd
    cases hd
    have hkind : p.kind ≠ .internal := by simpa [Pin.isTerminal] using hterm
    rcases hdraft.pinNamed?_cases hsane hp with hp | ⟨-, hk, -⟩
    · exact ⟨⟨i, hp⟩, hkind, hr⟩
    · exact absurd hk hkind
  · rintro ⟨⟨i, hi⟩, hkind, hr⟩
    exact innerPin_of_offers hnow ⟨⟨i, hdraft.pinNamed?_of_some hsane hi⟩, hkind, hr⟩

/-! ## Nets -/

/-- A mention asks for the same width at any time. -/
theorem mentionWidth (h₀ : s₀.Fresh) (h : Linking s₀ path s) {m : Mention}
    (hm : s₀.meant? m.chip = some inside) :
    Linking s₀ path (s.mentionWidth m).2 ∧
      ((∃ q, inside.Offers m.inner q) →
        (s.mentionWidth m).1 = s₀.bitsAsked BitRange.extent m) := by
  unfold Session.mentionWidth bitsAsked
  cases hr : m.range with
  | some range => exact ⟨h, fun _ => rfl⟩
  | none =>
    obtain ⟨hs, child, hchild, hstem⟩ := h.resolve h₀ hm m.span
    generalize s.resolve m.chip m.span = found at hs hchild hstem ⊢
    obtain ⟨found, s'⟩ := found
    cases hchild
    refine ⟨hs, ?_⟩
    rintro ⟨q, hq⟩
    obtain ⟨now, hnow, hsane, hdraft⟩ := hs.definition? h₀ hstem
    obtain ⟨i, hi⟩ := hq.named
    simp only [hnow, hm, Option.bind_some, hi, hdraft.pinNamed?_of_some hsane hi, Option.map_some,
      bitsMeant, Reference.widthOn]
    cases hrange : m.inner.range with
    | none => rfl
    | some range => exact if_pos (hq.range range hrange)

theorem widestMention (h₀ : s₀.Fresh) (h : Linking s₀ path s) (width : Nat) {ms : List Mention}
    (hms : ∀ m ∈ ms, ∃ inside, s₀.meant? m.chip = some inside) :
    Linking s₀ path (s.widestMention width ms).2 ∧
      ((∀ m ∈ ms, ∃ inside, s₀.meant? m.chip = some inside ∧ ∃ q, inside.Offers m.inner q) →
        (s.widestMention width ms).1 =
          max width ((ms.map (s₀.bitsAsked BitRange.extent)).foldr max 0)) := by
  induction ms generalizing s width with
  | nil => exact ⟨h, fun _ => (Nat.max_zero width).symm⟩
  | cons m ms ih =>
    obtain ⟨inside, hm⟩ := hms m List.mem_cons_self
    obtain ⟨h₁, hw⟩ := h.mentionWidth h₀ hm
    obtain ⟨h₂, hws⟩ := ih h₁ (max width (s.mentionWidth m).1) fun m' hm' =>
      hms m' (List.mem_cons_of_mem _ hm')
    refine ⟨h₂, fun ho => ?_⟩
    obtain ⟨inside', hm', hq⟩ := ho m List.mem_cons_self
    rw [hm, Option.some.injEq] at hm'
    subst hm'
    have hrest := hws fun m' hm' => ho m' (List.mem_cons_of_mem _ hm')
    rw [hw hq] at hrest
    rw [List.map_cons, List.foldr_cons, ← Nat.max_assoc, ← hrest, ← hw hq]
    rfl

/-- Who mentions a net names a chip. -/
theorem named_mentions (h₀ : s₀.Fresh) (h : Linking s₀ path s) (hd : Stems s₀ s parent d)
    (key : String) : s.mentions parent key = d.mentions key ∧
      ∀ m ∈ d.mentions key, ∃ inside, s₀.meant? m.chip = some inside := by
  obtain ⟨e, he, ht⟩ := h.entry hd
  refine ⟨by rw [mentions_eq (definition?_of_entry he), ht.drafted.toGrows.mentions],
    fun m hm => ?_⟩
  obtain ⟨p, hp, c, hc, -, rfl⟩ := Definition.mem_mentions.1 hm
  exact h₀.named_of_meant? ht.meant hp

/-- **The width of a net is the same whenever it is asked for.** -/
theorem netWidth (h₀ : s₀.Fresh) (h : Linking s₀ path s) (hd : Stems s₀ s parent d) (key : String)
    (width : Nat) :
    Linking s₀ path (s.netWidth parent key width).2 ∧
      (s₀.Offered d →
        (s.netWidth parent key width).1 = max width (s₀.netBits BitRange.extent d key)) := by
  obtain ⟨hm, hnamed⟩ := h.named_mentions h₀ hd key
  unfold Session.netWidth
  rw [hm]
  obtain ⟨h', hw⟩ := h.widestMention h₀ width hnamed
  refine ⟨h', fun ho => hw fun m hm => ?_⟩
  obtain ⟨p, hp, c, hc, -, rfl⟩ := Definition.mem_mentions.1 hm
  obtain ⟨inside, hmeant, hq⟩ := ho p hp
  exact ⟨inside, hmeant, hq c hc⟩

theorem addPinTo (h₀ : s₀.Fresh) (h : Linking s₀ path s) (hp : parent ∈ path)
    (hd : Stems s₀ s parent d) {p : Pin} (hk : p.kind = .internal)
    (hw : s₀.Offered d → p.width = s₀.netBits BitRange.extent d p.key) :
    Linking s₀ path (s.addPinTo parent p).2 := by
  have ha := (connects_addPinTo ((h.inProgress parent).2 hp) p).toAdvances
  rcases s.addPinTo_cases parent p with ⟨-, hadd⟩ | ⟨now, refusal, -, -, hadd⟩ | ⟨now, -, -, hadd⟩
  · exact hadd ▸ h
  · exact hadd ▸ h.report h₀ _ _
  · rw [hadd] at ha ⊢
    exact h.modifyDefinition h₀ hp hd ha fun _ _ hdraft => hdraft.push hk hw

theorem addPinTo_isSome_iff (hd : s.definition? parent = some d) {p : Pin} :
    (s.addPinTo parent p).1.isSome ↔
      d.pinNamed? p.key = none ∧ 0 < p.width ∧ p.width ≤ maxWidth := by
  rw [Definition.pinNamed?_eq_none_iff, ← Definition.refusal?_eq_none_iff, Session.addPinTo, hd]
  dsimp only
  cases d.refusal? p <;> simp

/-- **A net is made if it may be as wide** as all references ask for. -/
theorem addNet (h₀ : s₀.Fresh) (h : Linking s₀ path s) (hp : parent ∈ path)
    (hd : Stems s₀ s parent d) {now : Definition} (hnow : s.definition? parent = some now)
    {r : Reference} (hn : now.pinNamed? r.key = none) {width : Nat}
    (hleast : r.leastWidth width ≤ s₀.netBits BitRange.extent d r.key) :
    Linking s₀ path (s.addNet parent r width).2 ∧ (s₀.Offered d →
      (∀ i q, (s.addNet parent r width).1 = some (i, q) → q.kind = .internal ∧
        q.width = s₀.netBits BitRange.extent d r.key ∧ 0 < q.width ∧ q.width ≤ maxWidth) ∧
      ((s.addNet parent r width).1 = none → 0 < s₀.netBits BitRange.extent d r.key →
        ¬ s₀.netBits BitRange.extent d r.key ≤ maxWidth)) := by
  rw [addNet_eq]
  obtain ⟨h₁, hw⟩ := h.netWidth h₀ hd r.key (r.leastWidth width)
  have ha : Advances none s (s.netWidth parent r.key (r.leastWidth width)).2 :=
    advances_widestMention s _ _ none
  rw [Nat.max_eq_right hleast] at hw
  generalize s.netWidth parent r.key (r.leastWidth width) = net at h₁ hw ha ⊢
  obtain ⟨bits, s₁⟩ := net
  dsimp only at h₁ hw ha ⊢
  have hnow₁ : s₁.definition? parent = some now :=
    (ha.definition?_inProgress ((h.inProgress parent).2 hp) (by simp)).trans hnow
  refine ⟨h₁.addPinTo h₀ hp (hd.mono ha) rfl hw,
    fun ho => ⟨fun i q hq => ?_, fun hnone hpos hle => ?_⟩⟩
  · obtain ⟨j, hj, he⟩ := Option.map_eq_some_iff.1 hq
    obtain ⟨rfl, rfl⟩ := Prod.mk.inj he
    have hadd := (addPinTo_isSome_iff hnow₁).1 (Option.isSome_iff_exists.2 ⟨j, hj⟩)
    exact ⟨rfl, hw ho, hadd.2⟩
  · rw [Option.map_eq_none_iff] at hnone
    have hadd : (s₁.addPinTo parent (r.net bits)).1.isSome := by
      rw [← hw ho] at hpos hle
      exact (addPinTo_isSome_iff hnow₁).2 ⟨hn, hpos, hle⟩
    rw [hnone] at hadd
    cases hadd

/-! ## The outer side -/

/-- A pin that is there, declared or made before, is what its name stands for. -/
theorem takes_of_pinNamed? {now : Definition} (hsane : now.Sane) (hdraft : s₀.Drafted d now)
    (ho : s₀.Offered d) {r : Reference} {i : Nat} {q : Pin}
    (hq : now.pinNamed? r.key = some (i, q))
    (hr : ∀ range, r.range = some range → range.fits q.width) :
    s₀.Takes BitRange.extent d r q := by
  have hmem := Array.mem_of_getElem? (Definition.of_pinNamed? hq).1
  rcases hdraft.pinNamed?_cases hsane hq with hd | ⟨hd, hkind, hwidth⟩
  · exact .declared hd hr
  · exact .net hd hkind (hwidth ho) (hsane.pins.width_pos q hmem) (hsane.pins.width_le q hmem)
      fun range he => BitRange.isOrdered_of_fits (hr range he)

/-- What a name stands for is there, and holds the range if that does not wrap around. -/
theorem fits_of_takes {now : Definition} (hsane : now.Sane) (hdraft : s₀.Drafted d now)
    (ho : s₀.Offered d) {r : Reference} {i : Nat} {q q' : Pin}
    (hq : now.pinNamed? r.key = some (i, q)) (ht : s₀.Takes BitRange.extent d r q')
    {range : BitRange} (hr : r.range = some range) (hw : ¬ range.WrapsAround)
    (hle : range.isOrdered → range.extent ≤ s₀.netBits BitRange.extent d r.key) :
    range.fits q.width := by
  cases ht with
  | declared named hfit =>
    rw [hdraft.pinNamed?_of_some hsane named] at hq
    cases hq
    exact hfit range hr
  | net undeclared _ _ _ _ hord =>
    have hord := hord range hr
    rcases hdraft.pinNamed?_cases hsane hq with hd | ⟨-, -, hwidth⟩
    · rw [undeclared] at hd
      cases hd
    · have hlast := hle hord
      rw [BitRange.extent_eq hord hw] at hlast
      rw [hwidth ho, BitRange.fits, hord, Bool.true_and]
      exact decide_eq_true hlast

/-- A net is made for what is not declared. -/
theorem finds_addNet (h₀ : s₀.Fresh) (h : Linking s₀ path s) (hp : parent ∈ path)
    (hd : Stems s₀ s parent d) {now : Definition} (hnow : s.definition? parent = some now)
    {r : Reference} (hn : now.pinNamed? r.key = none) (hundeclared : d.pinNamed? r.key = none)
    (hord : ∀ range, r.range = some range → range.isOrdered) {width : Nat}
    (hleast : r.leastWidth width ≤ s₀.netBits BitRange.extent d r.key) :
    Finds s₀ path d now r (s.addNet parent r width).1 (s.addNet parent r width).2 := by
  obtain ⟨h', hnet⟩ := h.addNet h₀ hp hd hnow hn hleast
  have hfirst : WrapsFirst now.names [r] :=
    wrapsFirst_singleton.2 fun _ => Definition.pinNamed?_eq_none_iff_names.1 hn
  refine ⟨h', fun ho i q he => ?_, fun ho he q ht _ => ?_⟩
  · obtain ⟨hkind, hwidth, hpos, hle⟩ := (hnet ho).1 i q he
    exact ⟨.net hundeclared hkind hwidth hpos hle hord, hfirst⟩
  · cases ht with
    | declared named _ =>
      rw [hundeclared] at named
      cases named
    | net _ _ hwidth hpos hle _ => exact (hnet ho).2 he (hwidth ▸ hpos) (hwidth ▸ hle)

/-- **The outer side is found or made exactly if there is a pin that it stands for**, and if it
comes in time. -/
theorem outerPin (h₀ : s₀.Fresh) (h : Linking s₀ path s) (hp : parent ∈ path)
    (hd : Stems s₀ s parent d) {now : Definition} (hnow : s.definition? parent = some now)
    {r : Reference} {width : Nat}
    (hleast : (∀ range, r.range = some range → range.isOrdered) →
      r.leastWidth width ≤ s₀.netBits BitRange.extent d r.key) :
    Finds s₀ path d now r (s.outerPin parent r width).1 (s.outerPin parent r width).2 := by
  obtain ⟨now', hnow', hsane, hdraft⟩ := h.definition? h₀ hd
  obtain rfl : now = now' := Option.some.inj (hnow.symm.trans hnow')
  have hcase := s.outerRun_outerPin parent r width
  generalize s.outerPin parent r width = outer at hcase ⊢
  cases hcase with
  | @found now' i q hnow' hn hfits =>
    obtain rfl : now = now' := Option.some.inj (hnow.symm.trans hnow')
    have hmem := Array.mem_of_getElem? (Definition.of_pinNamed? hn).1
    exact .pin h (fun ho => takes_of_pinNamed? hsane hdraft ho hn hfits) <| wrapsFirst_singleton.2
      fun hw => absurd hw (Reference.not_wrapsAround (hsane.pins.width_le q hmem) hfits)
  | @misfit now' i q range hnow' hn hr hfits =>
    obtain rfl : now = now' := Option.some.inj (hnow.symm.trans hnow')
    refine .none (h.report h₀ _ _) fun ho q' ht hfirst => hfits ?_
    have hw : ¬ range.WrapsAround := by
      intro hw
      have hnone := wrapsFirst_singleton.1 hfirst ⟨range, hr, hw⟩
      rw [Definition.pinNamed?_eq_none_iff_names.2 hnone] at hn
      cases hn
    refine fits_of_takes hsane hdraft ho hn ht hr hw fun hord => ?_
    have hle := hleast (Reference.forall_of_some hr hord)
    rwa [Reference.leastWidth, hr] at hle
  | made hn hord =>
    rw [hnow, Option.bind_some] at hn
    exact h.finds_addNet h₀ hp hd hnow hn (hdraft.pinNamed?_of_none hn) hord (hleast hord)
  | @reversed range hn hr hord =>
    rw [hnow, Option.bind_some] at hn
    refine .none (h.report h₀ _ _) fun _ q ht => ?_
    cases ht with
    | declared named _ =>
      rw [hdraft.pinNamed?_of_none hn] at named
      cases named
    | net _ _ _ _ _ hall => exact absurd (hall range hr) hord

/-! ## Connections -/

theorem exists_join_iff {c : Connection} {i j : Nat} {p q : Pin} (hp : p.kind ≠ .internal) :
    (∃ w, join c (i, p) (j, q) = .ok w) ↔
      c.inner.widthOn p.width = c.outer.widthOn q.width ∧
        ¬ (p.kind = .output ∧ q.kind = .input) := by
  unfold join
  by_cases hw : c.inner.widthOn p.width = c.outer.widthOn q.width
  · cases hk : p.kind with
    | internal => exact absurd hk hp
    | input => simp [hw]
    | output => by_cases hq : q.kind = .input <;> simp [hw, hq]
  · simp [hw]

/-- When both sides are there, only the join decides. -/
theorem connectable_iff {now : Definition} {c : Connection} {i j : Nat} {p q : Pin}
    (h : Finds s₀ path d now c.outer (some (j, q)) s) (hoffers : inside.Offers c.inner p)
    (ho : s₀.Offered d) :
    s₀.Connectable BitRange.extent d inside c ∧ WrapsFirst now.names [c.outer] ↔
      ∃ w, join c (i, p) (j, q) = .ok w := by
  obtain ⟨ht, hfirst⟩ := h.takes ho j q rfl
  rw [and_iff_left hfirst, exists_join_iff hoffers.terminal]
  constructor
  · rintro ⟨p', q', hoffers', ht', hw, hdir⟩
    rw [hoffers.unique hoffers', (ht.unique ht').1, (ht.unique ht').2]
    exact ⟨hw, hdir⟩
  · rintro ⟨hw, hdir⟩
    exact ⟨p, q, hoffers, ht, hw, hdir⟩

/-- **A connection becomes a wire exactly if it fits**, and if its outer side comes in time. -/
theorem connect (h₀ : s₀.Fresh) (h : Linking s₀ path s) (hp : parent ∈ path)
    (hd : Stems s₀ s parent d) (hc : Stems s₀ s child inside) {part : Part} (hpart : part ∈ d.parts)
    (hm : s₀.meant? part.chip = some inside) {now : Definition}
    (hnow : s.definition? parent = some now) {c : Connection} (hmem : c ∈ part.connections) :
    Judges s₀ path (∃ p, inside.Offers c.inner p) (s₀.Offered d)
      (s₀.Connectable BitRange.extent d inside c ∧ WrapsFirst now.names [c.outer])
      (s.connect parent child c).1.isSome (s.connect parent child c).2 := by
  -- the outer side is looked for once the inner side offers a pin
  have houter {i : Nat} {p : Pin} {found : Option (Nat × Pin)}
      (hi : s.innerPin child c.inner = .ok (i, p))
      (hfound : (s.outerPin parent c.outer (c.inner.widthOn p.width)).1 = found) :
      inside.Offers c.inner p ∧ Finds s₀ path d now c.outer found
        (s.outerPin parent c.outer (c.inner.widthOn p.width)).2 := by
    have hoffers := (h.innerPin_iff h₀ hc).1 ⟨i, hi⟩
    exact ⟨hoffers, hfound ▸ h.outerPin h₀ hp hd hnow (leastWidth_le_netBits hpart hmem hm hoffers)⟩
  have hcase := s.connectRun_connect parent child c
  generalize s.connect parent child c = r at hcase ⊢
  cases hcase with
  | noInner hi =>
    refine .bad (h.report h₀ _ _) fun _ => ?_
    rintro ⟨⟨p, q, hoffers, -⟩, -⟩
    obtain ⟨i, hok⟩ := (h.innerPin_iff h₀ hc).2 hoffers
    rw [hi] at hok
    cases hok
  | noOuter hi hnone =>
    obtain ⟨-, hfinds⟩ := houter hi hnone
    refine .bad hfinds.linking fun ho => ?_
    rintro ⟨⟨-, q, -, ht, -⟩, hfirst⟩
    exact hfinds.nothing ho rfl q ht hfirst
  | @apart inner _ _ hi hsome hj =>
    obtain ⟨hoffers, hfinds⟩ := houter hi hsome
    refine .bad (hfinds.linking.report h₀ _ _) fun ho => ?_
    rw [connectable_iff (i := inner.1) hfinds hoffers ho, hj]
    simp
  | @wire inner _ _ hi hsome hj =>
    obtain ⟨hoffers, hfinds⟩ := houter hi hsome
    refine ⟨hfinds.linking, fun _ => ⟨inner.2, hoffers⟩, fun ho => ?_⟩
    rw [connectable_iff (i := inner.1) hfinds hoffers ho, hj]
    simp

/-- **All connections of a part become wires exactly if all fit**, and if their outer sides come in
time. -/
theorem connectAll (h₀ : s₀.Fresh) (h : Linking s₀ path s) (hp : parent ∈ path)
    (hd : Stems s₀ s parent d) (hc : Stems s₀ s child inside) {part : Part} (hpart : part ∈ d.parts)
    (hm : s₀.meant? part.chip = some inside) {now : Definition}
    (hnow : s.definition? parent = some now) {cs : List Connection}
    (hcs : ∀ c ∈ cs, c ∈ part.connections) :
    Judges s₀ path (∀ c ∈ cs, ∃ p, inside.Offers c.inner p) (s₀.Offered d)
      ((∀ c ∈ cs, s₀.Connectable BitRange.extent d inside c) ∧
        WrapsFirst now.names (cs.map (·.outer)))
      ((s.connectAll parent child cs).1.all Option.isSome) (s.connectAll parent child cs).2 := by
  induction cs generalizing s now with
  | nil => exact .fine h (List.forall_mem_nil _) ⟨List.forall_mem_nil _, wrapsFirst_nil _⟩
  | cons c cs ih =>
    obtain ⟨hmem, hcs⟩ := List.forall_mem_cons.1 hcs
    have hs := (h.inProgress parent).2 hp
    have hfirst := h.connect h₀ hp hd hc hpart hm hnow hmem
    have ha := connects_connect child hs c
    obtain ⟨now', hnow', -⟩ := ha.definition? hnow
    have hrest := ih hfirst.linking (hd.mono ha.toAdvances) (hc.mono ha.toAdvances) hnow' hcs
    -- if there is a wire, the chip has the name of its outer side now
    have hnames : (s.connect parent child c).1.isSome = true →
        now'.names = meet now.names c.outer.name := by
      intro hok
      obtain ⟨w, hw⟩ := Option.isSome_iff_exists.1 hok
      obtain ⟨now₁, hnow₁, -, hdraft⟩ := h.definition? h₀ hd
      obtain rfl : now = now₁ := Option.some.inj (hnow.symm.trans hnow₁)
      have hmention : ∃ m ∈ now.mentions c.outer.key, m.range = c.outer.range := by
        rw [hdraft.toGrows.mentions]
        exact ⟨_, Definition.mem_mentions.2 ⟨part, hpart, c, hmem, rfl, rfl⟩, rfl⟩
      obtain ⟨hext, -⟩ := layout_connect hs (h.sound h₀) hnow hmention hw
      obtain ⟨now₂, hnow₂, hgains, -⟩ := hext now hnow
      obtain rfl : now' = now₂ := Option.some.inj (hnow'.symm.trans hnow₂)
      exact hgains.names
    refine (hfirst.and hrest fun hok => by rw [hnames hok]).congr ?_ ?_
    · exact fun ⟨hc, hcs⟩ => List.forall_mem_cons.2 ⟨hc, hcs⟩
    · exact and_and_and_comm.trans (and_congr List.forall_mem_cons.symm wrapsFirst_cons.symm)

end Linking

end Session

end ChipLogic
