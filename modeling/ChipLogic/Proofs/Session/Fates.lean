import ChipLogic.Proofs.Session.Layout
import ChipLogic.Proofs.Session.Steady

/-!
# What becomes of connections

A connection of a part becomes a wire or is refused with one report (`Session.fate_connect`). That
is decided in the middle of a link, by the pins that are there at this moment, but it may be read
off the pins that are there in the end (`Session.Fate.eq_some_iff`): there is a wire if and only if
both sides name pins that fit.

**Wires stay**, since pins stay where they are.

**Refusals stay** (`Session.Refused`). The chip of the part may still get nets, but a net is no
terminal. The chip around the part may get nets too, and a net that was refused because it is too
wide is tried again at the next reference to it. But it would have to be as wide as was asked for
before (`Session.Steady`), so it is refused each time.

**References that wrap around** become wires only to nets that they make themselves. In the end the
net is there in any case, so of such a connection only this can be told if there is no wire: it was
refused.
-/

namespace ChipLogic

/-- The codes of refused connections: E204, E205, E206, E208, E209 and E210. -/
def Diagnostic.isRefusal (d : Diagnostic) : Bool :=
  [204, 205, 206, 208, 209, 210].any fun number => d.code == ⟨.error, number⟩

namespace Session

variable {s s' : Session} {parent child : Nat} {d inside : Definition} {c : Connection}
  {w w' : Wire}

/-! ## Wires and refusals -/

/-- The wire joins the pins that the two sides of the connection name, and an outer side that wraps
around names its own net. -/
def Accepts (s : Session) (parent child : Nat) (c : Connection) (w : Wire) : Prop :=
  ∃ inside outer p q, s.definition? child = some inside ∧ s.definition? parent = some outer ∧
    inside.pinNamed? c.inner.key = some (w.inner, p) ∧
    outer.pinNamed? c.outer.key = some (w.outer, q) ∧
    w.innerRange = c.inner.range ∧ w.outerRange = c.outer.range ∧ w.Joins p q ∧
    (c.outer.WrapsAround → q = c.outer.net q.width)

/-- There is no wire for the connection, and there will be none. -/
inductive Refused (s : Session) (parent child : Nat) (c : Connection) : Prop
  | inner {inside : Definition} (chip : s.definition? child = some inside)
      (nothing : ∀ p, ¬ inside.Offers c.inner p)
  | reversed {range : BitRange} (has : c.outer.range = some range)
      (reversed : range.isOrdered = false)
  | misfit {inside outer : Definition} {i : Nat} {p q : Pin}
      (chip : s.definition? child = some inside) (offers : inside.Offers c.inner p)
      (around : s.definition? parent = some outer)
      (named : outer.pinNamed? c.outer.key = some (i, q))
      (bad : ∀ w : Wire, w.innerRange = c.inner.range → w.outerRange = c.outer.range →
        ¬ w.Joins p q)
  | wide {outer : Definition} {m : Mention} {n : Nat} (around : s.definition? parent = some outer)
      (unknown : outer.pinNamed? c.outer.key = none) (mention : m ∈ outer.mentions c.outer.key)
      (asks : s.Asks m n) (wide : maxWidth < n)
  | wraps (wraps : c.outer.WrapsAround)

/-- What became of a connection. -/
def Fate (s : Session) (parent child : Nat) (c : Connection) : Option Wire → Prop
  | some w => s.Accepts parent child c w
  | none => s.Refused parent child c

/-- The outer end of the wire is the net that the connection made. -/
def Owns (s : Session) (parent : Nat) (c : Connection) (w : Wire) : Prop :=
  ∃ outer width, s.definition? parent = some outer ∧
    outer.pins[w.outer]? = some (c.outer.net width)

theorem accepts_of_wired (h : s.Wired parent child c w) (hf : s.WireFits parent child w)
    (hown : c.outer.WrapsAround → s.Owns parent c w) : s.Accepts parent child c w := by
  obtain ⟨inside, outer, p, q, hi, ho, hp, hq, hir, hor⟩ := h
  obtain ⟨inside', outer', hi', ho', p', q', hp', hq', hjoins⟩ := hf
  obtain rfl : inside = inside' := Option.some.inj (hi.symm.trans hi')
  obtain rfl : outer = outer' := Option.some.inj (ho.symm.trans ho')
  obtain rfl : p' = p := Option.some.inj (hp'.symm.trans (Definition.of_pinNamed? hp).1)
  obtain rfl : q' = q := Option.some.inj (hq'.symm.trans (Definition.of_pinNamed? hq).1)
  refine ⟨inside, outer, p', q', hi, ho, hp, hq, hir, hor, hjoins, fun hw => ?_⟩
  obtain ⟨outer', width, ho', hnet⟩ := hown hw
  obtain rfl : outer = outer' := Option.some.inj (ho.symm.trans ho')
  obtain rfl : q' = c.outer.net width := Option.some.inj (hq'.symm.trans hnet)
  rfl

/-- A connection has one wire at most. -/
theorem Accepts.unique (h : s.Accepts parent child c w) (h' : s.Accepts parent child c w') :
    w = w' := by
  obtain ⟨inside, outer, p, q, hi, ho, hp, hq, hir, hor, hjoins, -⟩ := h
  obtain ⟨inside', outer', p', q', hi', ho', hp', hq', hir', hor', hjoins', -⟩ := h'
  obtain rfl : inside = inside' := Option.some.inj (hi.symm.trans hi')
  obtain rfl : outer = outer' := Option.some.inj (ho.symm.trans ho')
  obtain ⟨hinner, rfl⟩ := Prod.mk.inj (Option.some.inj (hp.symm.trans hp'))
  obtain ⟨houter, rfl⟩ := Prod.mk.inj (Option.some.inj (hq.symm.trans hq'))
  have hdirection : w.direction = w'.direction := by
    have hiff := hjoins.drive_iff.trans hjoins'.drive_iff.symm
    cases hw : w.direction <;> cases hw' : w'.direction <;> simp_all
  cases w
  cases w'
  simp_all

theorem Accepts.steady (h : s.Accepts parent child c w) (hs : Steady s s') :
    s'.Accepts parent child c w := by
  obtain ⟨inside, outer, p, q, hi, ho, hp, hq, hrest⟩ := h
  obtain ⟨inside', hi', hp'⟩ := hs.pinNamed? hi hp
  obtain ⟨outer', ho', hq'⟩ := hs.pinNamed? ho hq
  exact ⟨inside', outer', p, q, hi', ho', hp', hq', hrest⟩

/-- **A refusal stays.** -/
theorem Refused.steady (h : s.Refused parent child c) (hs : Steady s s') :
    s'.Refused parent child c := by
  cases h with
  | @inner inside chip nothing =>
    obtain ⟨inside', chip', -⟩ := hs.grown child inside chip
    refine .inner chip' fun p hp => ?_
    obtain ⟨i, hi⟩ := hp.named
    -- a pin that came up since is a net, and no terminal
    rcases hs.pinNamed?_cases chip chip' hi with hold | ⟨-, hkind, -⟩
    · exact nothing p ⟨⟨i, hold⟩, hp.terminal, hp.range⟩
    · exact hp.terminal hkind
  | reversed has reversed => exact .reversed has reversed
  | misfit chip offers around named bad =>
    obtain ⟨i, hi⟩ := offers.named
    obtain ⟨inside', chip', hi'⟩ := hs.pinNamed? chip hi
    obtain ⟨outer', around', named'⟩ := hs.pinNamed? around named
    exact .misfit chip' ⟨⟨i, hi'⟩, offers.terminal, offers.range⟩ around' named' bad
  | @wide outer m n around unknown mention asks wide =>
    obtain ⟨outer', around', hg⟩ := hs.grown parent outer around
    refine .wide around' ?_ (by rwa [hg.mentions]) (asks.local hs.toLocal) wide
    -- a net of this name would be wider than a pin may be
    by_contra hsome
    obtain ⟨⟨i, q⟩, hq⟩ := Option.ne_none_iff_exists'.1 hsome
    rcases hs.pinNamed?_cases around around' hq with hold | ⟨-, -, hwide⟩
    · rw [unknown] at hold
      cases hold
    · have hpins := (hs.orderly.sane parent outer' around').pins
      have hle := hpins.width_le q (Array.mem_of_getElem? (Definition.of_pinNamed? hq).1)
      have hge := hwide m mention n asks
      omega
  | wraps wraps => exact .wraps wraps

theorem Refused.not_accepts (h : s.Refused parent child c) (hw : ¬ c.outer.WrapsAround) :
    ¬ s.Accepts parent child c w := by
  rintro ⟨inside, outer, p, q, hi, ho, hp, hq, hir, hor, hjoins, -⟩
  cases h with
  | inner chip nothing =>
    obtain rfl : inside = _ := Option.some.inj (hi.symm.trans chip)
    refine nothing p ⟨⟨_, hp⟩, hjoins.terminal, fun range hr => ?_⟩
    exact BitRange.fits_iff.2 (hjoins.innerFits range (hir.trans hr))
  | reversed has reversed =>
    rcases hjoins.outerFits _ (hor.trans has) with hfits | ⟨hwrap, -⟩
    · rw [BitRange.isOrdered_of_fits (BitRange.fits_iff.2 hfits)] at reversed
      cases reversed
    · exact hw ⟨_, has, hwrap⟩
  | misfit chip offers around named bad =>
    obtain rfl : inside = _ := Option.some.inj (hi.symm.trans chip)
    obtain rfl : outer = _ := Option.some.inj (ho.symm.trans around)
    obtain ⟨-, rfl⟩ := Prod.mk.inj (Option.some.inj (hq.symm.trans named))
    obtain ⟨i, hi⟩ := offers.named
    obtain ⟨-, rfl⟩ := Prod.mk.inj (Option.some.inj (hp.symm.trans hi))
    exact bad w hir hor hjoins
  | wide around unknown mention asks wide =>
    obtain rfl : outer = _ := Option.some.inj (ho.symm.trans around)
    rw [unknown] at hq
    cases hq
  | wraps wraps => exact hw wraps

theorem Fate.steady {fate : Option Wire} (h : s.Fate parent child c fate) (hs : Steady s s') :
    s'.Fate parent child c fate := by
  cases fate with
  | some w => exact Accepts.steady h hs
  | none => exact Refused.steady h hs

theorem Fate.accepts {fate : Option Wire} (h : s.Fate parent child c fate) (he : fate = some w) :
    s.Accepts parent child c w := by
  rw [he] at h
  exact h

/-- **The fate of a connection may be read off the pins**, unless it wraps around. -/
theorem Fate.eq_some_iff {fate : Option Wire} (h : s.Fate parent child c fate)
    (hw : ¬ c.outer.WrapsAround) (w : Wire) : fate = some w ↔ s.Accepts parent child c w := by
  refine ⟨h.accepts, fun haccepts => ?_⟩
  cases fate with
  | some w' => rw [Accepts.unique h haccepts]
  | none => exact absurd haccepts (Refused.not_accepts h hw)

/-! ## Reports -/

/-- The number of reports on refused connections. -/
def refusals (s : Session) : Nat := s.log.history.countP Diagnostic.isRefusal

theorem refusals_report (s : Session) (p : Problem) (span : Span) :
    (s.report p span).refusals = s.refusals + if (p.report span).isRefusal then 1 else 0 := by
  show (s.log.history ++ [p.report span]).countP _ = _
  rw [List.countP_append, List.countP_singleton]
  rfl

theorem refusals_resolve (hlib : s.library = none) (name : String) (span : Span) :
    (s.resolve name span).2.refusals = s.refusals := by
  have hsearch := localSearch_resolve hlib name span
  generalize s.resolve name span = r at hsearch ⊢
  cases hsearch with
  | answered _ => rfl
  | gate _ _ => rfl
  | nothing _ _ => exact refusals_report s (.chipNotFound name) span

theorem Searched.refusals (h : Searched s s') (hlib : s.library = none) (ho : s.Orderly) :
    s'.refusals = s.refusals := by
  induction h with
  | refl => rfl
  | tail hs h ih =>
    obtain ⟨name, span, rfl⟩ := h
    rw [refusals_resolve (Searched.local hs hlib ho).library, ih]

theorem isRefusal_of_innerPin {r : Reference} {p : Problem} (h : s.innerPin child r = .error p)
    (span : Span) : (p.report span).isRefusal = true := by
  rcases innerPin_eq_error h with ⟨_, rfl⟩ | ⟨_, rfl⟩ | ⟨_, _, rfl⟩ <;> rfl

theorem isRefusal_of_join {inner outer : Nat × Pin} {p : Problem}
    (h : join c inner outer = .error p) (span : Span) : (p.report span).isRefusal = true := by
  rcases join_eq_error h with ⟨_, _, rfl⟩ | rfl <;> rfl

/-! ## Connecting -/

/-- The own mention of a connection asks for the least width of its net. -/
theorem asks_leastWidth {part : Part} {p : Pin} (hi : s.definition? child = some inside)
    (hkey : inside.key = foldCase part.chip) (hp : part ∈ d.parts) (hc : c ∈ part.connections)
    (ho : inside.Offers c.inner p)
    (hr : ∀ range, c.outer.range = some range → range.isOrdered = true) :
    ∃ m ∈ d.mentions c.outer.key, s.Asks m (c.outer.leastWidth (c.inner.widthOn p.width)) := by
  refine ⟨_, Definition.mem_mentions.2 ⟨part, hp, c, hc, rfl, rfl⟩, ?_⟩
  unfold Reference.leastWidth
  cases hrange : c.outer.range with
  | some range => exact .range rfl (hr range hrange)
  | none =>
    obtain ⟨i, hi'⟩ := ho.named
    have hmeant : bitsMeant (some p) c.inner = c.inner.widthOn p.width := by
      unfold bitsMeant Reference.widthOn
      cases hinner : c.inner.range with
      | none => rfl
      | some range => exact if_pos (ho.range range hinner)
    dsimp only
    rw [← hmeant]
    exact .pin rfl hi hkey hi'

/-- A step towards a wire for a connection. If it fails, the connection is refused with one
report. -/
structure Attempts (parent child : Nat) (c : Connection) (s : Session) (found : Bool)
    (s' : Session) : Prop where
  refused : found = false → s'.Refused parent child c
  told : s'.refusals = s.refusals + if found then 0 else 1

theorem Attempts.report {p : Problem} {span : Span} (h : (s.report p span).Refused parent child c)
    (hp : (p.report span).isRefusal = true) :
    Attempts parent child c s false (s.report p span) :=
  ⟨fun _ => h, by rw [refusals_report, hp]; rfl⟩

theorem Attempts.fine (h : s'.refusals = s.refusals) : Attempts parent child c s true s' :=
  ⟨fun hf => (by cases hf), h⟩

/-- The width of a net is asked for by some mention, if its least width is. -/
theorem asks_netWidth (hlib : s.library = none) (ho : s.Orderly)
    (hd : s.definition? parent = some d) {key : String} {width : Nat}
    (hasks : ∃ m ∈ d.mentions key, s.Asks m width) :
    ∃ m ∈ d.mentions key,
      (s.netWidth parent key width).2.Asks m (s.netWidth parent key width).1 := by
  have hlocal := (searched_netWidth s parent key width).local hlib ho
  rcases asks_widestMention hlib ho width (s.mentions parent key) with hown | ⟨m, hm, h⟩
  · obtain ⟨m, hm, h⟩ := hasks
    refine ⟨m, hm, ?_⟩
    rw [netWidth, hown]
    exact h.local hlocal
  · exact ⟨m, by rwa [← mentions_eq hd], h⟩

/-- **A net is refused only because it is too wide**, or has no bit. -/
theorem refusal?_net {r : Reference} {bits : Nat} {refusal : PinRefusal}
    (hn : d.pinNamed? r.key = none) (h : d.refusal? (r.net bits) = some refusal) :
    refusal = .zeroWidth ∧ bits = 0 ∨ refusal = .tooWide bits ∧ maxWidth < bits := by
  have hkey : (r.net bits).key = r.key := rfl
  have hwidth : (r.net bits).width = bits := rfl
  simp only [Definition.refusal?, hkey, hn, hwidth] at h
  split at h
  · next hzero =>
    cases h
    exact .inl ⟨rfl, hzero⟩
  · split at h
    · next hwide =>
      cases h
      exact .inr ⟨rfl, hwide⟩
    · cases h

theorem attempts_addNet (hlib : s.library = none) (ho : s.Orderly)
    (hs : s.status? parent = some .inProgress) (hd : s.definition? parent = some d)
    (hn : d.pinNamed? c.outer.key = none) {width : Nat}
    (hpos : ¬ c.outer.WrapsAround → 0 < c.outer.leastWidth width)
    (hasks : ∃ m ∈ d.mentions c.outer.key, s.Asks m (c.outer.leastWidth width)) :
    Attempts parent child c s (s.addNet parent c.outer width).1.isSome
      (s.addNet parent c.outer width).2 := by
  have hsearched := searched_netWidth s parent c.outer.key (c.outer.leastWidth width)
  have hlocal := hsearched.local hlib ho
  have hrefusals := hsearched.refusals hlib ho
  have hkeep : Advances none s (s.netWidth parent c.outer.key (c.outer.leastWidth width)).2 :=
    advances_widestMention s _ _ none
  have hleast := leastWidth_le_netWidth s parent c.outer width
  have hwidth := asks_netWidth hlib ho hd hasks
  rw [addNet_eq]
  generalize s.netWidth parent c.outer.key (c.outer.leastWidth width) = net
    at hlocal hrefusals hkeep hleast hwidth ⊢
  obtain ⟨bits, s₁⟩ := net
  dsimp only at hlocal hrefusals hkeep hleast hwidth ⊢
  have hd₁ : s₁.definition? parent = some d :=
    (hkeep.definition?_inProgress hs (by simp)).trans hd
  rw [Option.isSome_map]
  rcases s₁.addPinTo_cases parent (c.outer.net bits) with
    ⟨hn₁, -⟩ | ⟨d₂, refusal, hd₂, hrefused, hadd⟩ | ⟨d₂, -, -, hadd⟩
  · rw [hd₁] at hn₁
    cases hn₁
  · obtain rfl : d = d₂ := Option.some.inj (hd₁.symm.trans hd₂)
    have hreport : Attempts parent child c s₁ false
        (s₁.report (.pinRefused d.name c.outer.name refusal) c.outer.span) := by
      rcases refusal?_net hn hrefused with ⟨rfl, rfl⟩ | ⟨rfl, hwide⟩
      · refine .report (.wraps ?_) rfl
        by_contra hw
        have hbits := hpos hw
        omega
      · refine .report ?_ rfl
        obtain ⟨m, hm, hasks'⟩ := hwidth
        have hasks' := hasks'.local (local_report hlocal.library hlocal.orderly
          (.pinRefused d.name c.outer.name (.tooWide bits)) c.outer.span)
        exact .wide hd₁ hn hm hasks' hwide
    exact hadd ▸ ⟨hreport.refused, hreport.told.trans (by rw [hrefusals]; rfl)⟩
  · exact hadd ▸ .fine hrefusals

theorem attempts_outerPin (hlib : s.library = none) (ho : s.Orderly)
    (hs : s.status? parent = some .inProgress) (hd : s.definition? parent = some d)
    {part : Part} {p : Pin} (hi : s.definition? child = some inside)
    (hkey : inside.key = foldCase part.chip) (hp : part ∈ d.parts) (hc : c ∈ part.connections)
    (hoffers : inside.Offers c.inner p) :
    Attempts parent child c s (s.outerPin parent c.outer (c.inner.widthOn p.width)).1.isSome
      (s.outerPin parent c.outer (c.inner.widthOn p.width)).2 := by
  have hpos := hoffers.widthOn_pos (ho.sane child inside hi)
  have hleast (hord : ∀ range, c.outer.range = some range → range.isOrdered = true)
      (hw : ¬ c.outer.WrapsAround) : 0 < c.outer.leastWidth (c.inner.widthOn p.width) := by
    unfold Reference.leastWidth
    cases hr : c.outer.range with
    | none => exact hpos
    | some range =>
      dsimp only
      rw [BitRange.extent_eq (hord range hr) fun hwrap => hw ⟨range, hr, hwrap⟩]
      exact Nat.succ_pos _
  have hmade (hn : d.pinNamed? c.outer.key = none)
      (hord : ∀ range, c.outer.range = some range → range.isOrdered = true) :
      Attempts parent child c s (s.addNet parent c.outer (c.inner.widthOn p.width)).1.isSome
        (s.addNet parent c.outer (c.inner.widthOn p.width)).2 :=
    attempts_addNet hlib ho hs hd hn (hleast hord) (asks_leastWidth hi hkey hp hc hoffers hord)
  have hcase := s.outerRun_outerPin parent c.outer (c.inner.widthOn p.width)
  generalize s.outerPin parent c.outer (c.inner.widthOn p.width) = outer at hcase ⊢
  cases hcase with
  | found => exact .fine rfl
  | @misfit _ _ _ range hd hn hr hfit =>
    by_cases hw : range.WrapsAround
    · exact .report (.wraps ⟨range, hr, hw⟩) rfl
    · refine .report (.misfit hi hoffers hd hn fun w _ hor hjoins => hfit ?_) rfl
      exact BitRange.fits_iff.2 ((hjoins.outerFits range (hor.trans hr)).resolve_right
        fun hwrap => hw hwrap.1)
  | made hn hord =>
    rw [hd, Option.bind_some] at hn
    exact hmade hn hord
  | reversed _ hr hord => exact .report (.reversed hr (by simpa using hord)) rfl

/-- Two sides that cannot be joined fit no wire. -/
theorem not_joins_of_join {i j : Nat} {p q : Pin} {problem : Problem}
    (h : join c (i, p) (j, q) = .error problem) (hp : p.kind ≠ .internal)
    (hir : w.innerRange = c.inner.range) (hor : w.outerRange = c.outer.range) : ¬ w.Joins p q := by
  intro hjoins
  have hwire : ∃ w, join c (i, p) (j, q) = .ok w := by
    refine (Linking.exists_join_iff hp).2 ⟨?_, fun ⟨hout, hin⟩ => ?_⟩
    · rw [widthOn_eq_endWidth, widthOn_eq_endWidth, ← hir, ← hor]
      exact hjoins.sameWidth
    · cases hdir : w.direction with
      | drive => simp [hjoins.drive_iff.1 hdir] at hout
      | sense => exact hjoins.sense_outer hdir hin
  obtain ⟨w', hw'⟩ := hwire
  rw [h] at hw'
  cases hw'

theorem attempts_connect (hlib : s.library = none) (ho : s.Orderly)
    (hs : s.status? parent = some .inProgress) (hd : s.definition? parent = some d) {part : Part}
    (hi : s.definition? child = some inside) (hkey : inside.key = foldCase part.chip)
    (hp : part ∈ d.parts) (hc : c ∈ part.connections) :
    Attempts parent child c s (s.connect parent child c).1.isSome (s.connect parent child c).2 := by
  -- the outer side is attempted for a pin that the inner side offers
  have houter {i : Nat} {p : Pin} {found : Option (Nat × Pin)}
      (hinner : s.innerPin child c.inner = .ok (i, p))
      (hfound : (s.outerPin parent c.outer (c.inner.widthOn p.width)).1 = found) :
      inside.pinNamed? c.inner.key = some (i, p) ∧ inside.Offers c.inner p ∧
        Attempts parent child c s found.isSome
          (s.outerPin parent c.outer (c.inner.widthOn p.width)).2 := by
    obtain ⟨inside', hi', hnamed, hterm, hrange⟩ := innerPin_eq_ok hinner
    obtain rfl : inside = inside' := Option.some.inj (hi.symm.trans hi')
    have hoffers : inside.Offers c.inner p :=
      ⟨⟨i, hnamed⟩, by simpa [Pin.isTerminal] using hterm, hrange⟩
    exact ⟨hnamed, hoffers, hfound ▸ attempts_outerPin hlib ho hs hd hi hkey hp hc hoffers⟩
  have hcase := s.connectRun_connect parent child c
  generalize s.connect parent child c = r at hcase ⊢
  cases hcase with
  | noInner hinner =>
    refine .report (.inner hi fun p hoffers => ?_) (isRefusal_of_innerPin hinner _)
    obtain ⟨i, hok⟩ := innerPin_of_offers hi hoffers
    rw [hinner] at hok
    cases hok
  | noOuter hinner hfound => exact (houter hinner hfound).2.2
  | wire hinner hfound _ => exact (houter hinner hfound).2.2
  | @apart inner outer problem hinner hfound hj =>
    obtain ⟨i, p⟩ := inner
    obtain ⟨j, q⟩ := outer
    obtain ⟨hnamed, hoffers, hattempts⟩ := houter hinner hfound
    have hsteady := (paces_outerPin hs c.outer (c.inner.widthOn p.width)).steady hlib ho
    obtain ⟨-, d', hd', hq, hqkey⟩ := extends_outerPin hs hd (ho.sane parent d hd)
      ⟨_, Definition.mem_mentions.2 ⟨part, hp, c, hc, rfl, rfl⟩, rfl⟩ hfound
    generalize (s.outerPin parent c.outer (c.inner.widthOn p.width)).2 = s₁
      at hattempts hsteady hd' ⊢
    obtain ⟨inside', hi₁, hnamed'⟩ := hsteady.pinNamed? hi hnamed
    have hpin := (Definition.pinNamed?_eq_some_iff (hsteady.orderly.sane parent d' hd').pins).2
      ⟨hq, hqkey⟩
    have hreport : Attempts parent child c s₁ false (s₁.report problem c.span) :=
      .report (.misfit hi₁ { hoffers with named := ⟨i, hnamed'⟩ } hd' hpin fun w hir hor =>
        not_joins_of_join hj hoffers.terminal hir hor) (isRefusal_of_join hj _)
    exact ⟨hreport.refused, hreport.told.trans (by rw [hattempts.told]; rfl)⟩

/-- A reference that wraps around is found only if it makes its net. -/
theorem net_of_outerPin (hd : s.definition? parent = some d) (hsane : d.Sane) {r : Reference}
    (hw : r.WrapsAround) {width i : Nat} {q : Pin}
    (h : (s.outerPin parent r width).1 = some (i, q)) : ∃ bits, q = r.net bits := by
  have hmade {found : Nat × Pin} (h : (s.addNet parent r width).1 = some found) :
      ∃ bits, found.2 = r.net bits := by
    rw [addNet_eq] at h
    obtain ⟨j, -, rfl⟩ := Option.map_eq_some_iff.1 h
    exact ⟨_, rfl⟩
  have hcase := s.outerRun_outerPin parent r width
  generalize s.outerPin parent r width = outer at hcase h
  cases hcase with
  | @found d' i p hd' hp hfits =>
    obtain rfl : d = d' := Option.some.inj (hd.symm.trans hd')
    have hle := hsane.pins.width_le p (Array.mem_of_getElem? (Definition.of_pinNamed? hp).1)
    exact absurd hw (Reference.not_wrapsAround hle hfits)
  | misfit | reversed => cases h
  | made => exact hmade h

theorem owns_of_connect (hd : s.definition? parent = some d) (hsane : d.Sane)
    (h : (s.connect parent child c).1 = some w) (hw : c.outer.WrapsAround) :
    (s.connect parent child c).2.Owns parent c w := by
  have hcase := s.connectRun_connect parent child c
  generalize s.connect parent child c = r at hcase h ⊢
  cases hcase with
  | noInner | noOuter | apart => cases h
  | @wire inner outer _ _ ho hj =>
    cases h
    obtain ⟨j, q⟩ := outer
    obtain ⟨-, hout, -⟩ := ends_of_join hj
    obtain ⟨bits, rfl⟩ := net_of_outerPin hd hsane hw ho
    obtain ⟨d', hd', hq, -⟩ := pins_of_outerPin ho
    exact ⟨d', bits, hd', by rw [hout]; exact hq⟩

/-- **A connection becomes a wire, or it is refused with one report.** -/
theorem fate_connect (hlib : s.library = none) (hsound : s.Sound)
    (hs : s.status? parent = some .inProgress) {index : Nat} {part : Part}
    (hpart : s.part? parent index = some part) (hn : s.Named part.chip child)
    (hc : c ∈ part.connections) :
    let r := s.connect parent child c
    r.2.Fate parent child c r.1 ∧ r.2.refusals = s.refusals + if r.1.isNone then 1 else 0 := by
  obtain ⟨d, hd, hindex⟩ := definition?_of_part? hpart
  have hp : part ∈ d.parts := Array.mem_of_getElem? hindex
  obtain ⟨inside, hi, hkey⟩ := hn
  have hattempt := attempts_connect hlib hsound.orderly hs hd hi hkey hp hc
  have hwired := @layout_connect s parent child d hs hsound hd c
  have hfits := @fits_of_connect s parent child hs c
  have howns := fun w => @owns_of_connect s parent child d c w hd (hsound.sane_definition hd)
  generalize s.connect parent child c = r at hattempt hwired hfits howns ⊢
  obtain ⟨wire, s₁⟩ := r
  cases wire with
  | none => exact ⟨hattempt.refused rfl, hattempt.told⟩
  | some w =>
    have hmention : ∃ m ∈ d.mentions c.outer.key, m.range = c.outer.range :=
      ⟨_, Definition.mem_mentions.2 ⟨part, hp, c, hc, rfl, rfl⟩, rfl⟩
    exact ⟨accepts_of_wired (hwired hmention rfl).2 (hfits rfl) (howns w rfl), hattempt.told⟩

/-- **All connections of a part are decided**, however many of them are refused. -/
theorem fates_connectAll (hlib : s.library = none) (hsound : s.Sound)
    (hs : s.status? parent = some .inProgress) {index : Nat} {part : Part}
    (hpart : s.part? parent index = some part) (hn : s.Named part.chip child)
    {cs : List Connection} (hcs : ∀ c ∈ cs, c ∈ part.connections) :
    let r := s.connectAll parent child cs
    List.Forall₂ (r.2.Fate parent child) cs r.1 ∧
      r.2.refusals = s.refusals + r.1.countP Option.isNone := by
  induction cs generalizing s with
  | nil => exact ⟨.nil, rfl⟩
  | cons c cs ih =>
    obtain ⟨hc, hcs⟩ := List.forall_mem_cons.1 hcs
    obtain ⟨hfate, htold⟩ := fate_connect hlib hsound hs hpart hn hc
    have hsteady := (paces_connect hs child c).steady hlib hsound.orderly
    have hstep := connects_connect child hs c
    have hs' := hstep.status_inProgress hs
    obtain ⟨hfates, htold'⟩ := ih hsteady.library (hstep.sound hsound) hs'
      ((hstep.parts index).trans hpart) (hsteady.grown.named hn) hcs
    have hlater := (paces_connectAll hs' child cs).steady hsteady.library hsteady.orderly
    refine ⟨.cons (hfate.steady hlater) hfates, ?_⟩
    rw [connectAll, List.countP_cons]
    exact htold'.trans (by rw [htold]; omega)

end Session

end ChipLogic
