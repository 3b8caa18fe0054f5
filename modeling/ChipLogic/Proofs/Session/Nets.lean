import ChipLogic.Proofs.Netlist.Mirror
import ChipLogic.Proofs.Session.Circular
import ChipLogic.Proofs.Session.Drawn
import ChipLogic.Proofs.Session.Linking

/-!
# The nets of a chip that linked

A net is made at the first reference to it, by a look-ahead over connections of parts that are not
linked yet. The look-ahead may load chips, and it passes over every reference that it cannot make
sense of. Nothing of that can be seen in the end (`Session.Netted`).

**Which nets.** One for each name on the outer side of a connection that is not the name of a pin,
in the order of the first use (`newKeys`).

**How wide.** A net is tight, so no wider than some reference to it asks for. On the other hand the
chip has linked, so both sides of each connection are there and have the same number of bits
(`Joined`), and no reference asks for more than the net has. Hence its width is the greatest that is
asked for (`Session.width_eq_netBits`), and no reference is passed over.

**Too narrow.** The widths asked for are counted in 32 bits. The net has all bits that are referred
to if and only if no reference to it wraps around (`Session.Netted.width_eq_reach_iff`).

**Theorem (`Session.Reachable.link_makes_nets_iff`).** A chip that has linked has the pins from
before its link and then these nets, whether it was linked itself or as the chip of a part. The
order of the parts does not matter for the widths.
-/

namespace ChipLogic

/-! ## New names -/

/-- The keys of names that are not known, each of them once and in the order of its first use. -/
def newKeys (known names : List String) : List String :=
  ((names.map foldCase).removeAll (known.map foldCase)).eraseDups

theorem map_foldCase_foldl_meet (known names : List String) :
    (names.foldl meet known).map foldCase = known.map foldCase ++ newKeys known names := by
  induction names generalizing known with
  | nil => simp [newKeys]
  | cons n names ih =>
    rw [List.foldl_cons, ih, newKeys, newKeys, List.map_cons, List.cons_removeAll]
    by_cases hold : ∃ m ∈ known, foldCase m = foldCase n
    · obtain ⟨m, hm, he⟩ := hold
      have hmem : (known.map foldCase).contains (foldCase n) = true := by
        simpa using ⟨m, hm, he⟩
      rw [meet_of_mem hm he, hmem, if_neg (by simp)]
    · have hnew : ∀ m ∈ known, foldCase m ≠ foldCase n := fun m hm he => hold ⟨m, hm, he⟩
      have hmem : (known.map foldCase).contains (foldCase n) = false := by
        simpa using hnew
      rw [meet_of_new hnew, hmem, if_pos rfl, List.eraseDups_cons]
      simp [List.removeAll, List.filter_filter, Bool.and_comm, beq_eq_decide]

/-- No net is needed for a name of a pin. -/
theorem foldl_meet_of_known {known names : List String}
    (h : ∀ n ∈ names, ∃ m ∈ known, foldCase m = foldCase n) : names.foldl meet known = known := by
  induction names with
  | nil => rfl
  | cons n names ih =>
    obtain ⟨⟨m, hm, he⟩, hnames⟩ := List.forall_mem_cons.1 h
    rw [List.foldl_cons, meet_of_mem hm he, ih hnames]

/-! ## Linked connections -/

/-- Both sides of a connection are there, and they have the same number of bits. -/
structure Joined (inside d : Definition) (c : Connection) (a b : Pin) : Prop where
  inner : inside.Offers c.inner a
  outer : ∃ j, d.pinNamed? c.outer.key = some (j, b)
  sameWidth : c.inner.widthOn a.width = c.outer.widthOn b.width
  reaches : c.outer.Reaches b

namespace Session

variable {s s' t : Session} {id : Nat} {d d' : Definition} {g : Drawing}

/-- The part has the chip that its name stands for, and all of its connections are understood. -/
def PartBound (s : Session) (d : Definition) (p : Part) : Prop :=
  ∃ child inside, p.resolved = some child ∧ s.lookup? p.chip = some child ∧
    s.definition? child = some inside ∧ ∀ c ∈ p.connections, ∃ a b, Joined inside d c a b

theorem joined_of_wired {link : Link} {inside : Definition} {c : Connection} {w : Wire}
    (hi : s.definition? link.chip = some inside) (hd : s.definition? id = some d)
    (hw : s.Wired id link.chip c w) (hf : w.Fits inside.pins d.pins) :
    ∃ a b, Joined inside d c a b := by
  obtain ⟨inside', outer, a, b, hi', ho, ha, hb, hinner, houter⟩ := hw
  obtain rfl : inside = inside' := Option.some.inj (hi.symm.trans hi')
  obtain rfl : d = outer := Option.some.inj (hd.symm.trans ho)
  obtain ⟨a', b', ha', hb', hjoins⟩ := hf
  obtain rfl : a' = a := Option.some.inj (ha'.symm.trans (Definition.of_pinNamed? ha).1)
  obtain rfl : b' = b := Option.some.inj (hb'.symm.trans (Definition.of_pinNamed? hb).1)
  refine ⟨a', b', ⟨⟨_, ha⟩, hjoins.terminal, fun range hr => ?_⟩, ⟨_, hb⟩, ?_, fun range hr => ?_⟩
  · exact BitRange.fits_iff.2 (hjoins.innerFits range (hinner.trans hr))
  · rw [widthOn_eq_endWidth, widthOn_eq_endWidth, ← hinner, ← houter]
    exact hjoins.sameWidth
  · exact (hjoins.outerFits range (houter.trans hr)).imp_left BitRange.fits_iff.2

/-- **No reference of a linked chip is passed over.** -/
theorem DrawnAs.partBound (h : s.DrawnAs g) (ht : s.Titled) (hf : s.Finished id)
    (hd : s.definition? id = some d) {p : Part} (hp : p ∈ d.parts) : s.PartBound d p := by
  obtain ⟨link, hl, hwired⟩ := h.exists_wired hf hd hp
  obtain ⟨-, inside, hi, hfits⟩ := hf.part hd hp hl
  have hresolved : p.resolved = some link.chip := by rw [Part.resolved, hl, Option.map_some]
  refine ⟨link.chip, inside, hresolved, ?_, hi, fun c hc => ?_⟩
  · obtain ⟨k, hk⟩ := Array.mem_iff_getElem?.1 hp
    have hpart : s.part? id k = some p := by rw [part?, hd, Option.bind_some, hk]
    have htarget : s.target? id k = some link.chip := by rw [target?, hpart]; exact hresolved
    obtain ⟨p', hpart', inside', hi', hkey⟩ := ht id k link.chip htarget
    obtain rfl : p = p' := Option.some.inj (hpart.symm.trans hpart')
    rw [lookup?, ← hkey]
    exact h.sound.find?_eq hi'
  · obtain ⟨w, hw, hwire⟩ := forall₂_of_mem_right hwired hc
    exact joined_of_wired hi hd hwire (hfits w hw)

/-! ## Widths -/

/-- What a reference of a linked chip asks for, if it is to a pin `b`. -/
theorem bitsAsked_of_joined {inside : Definition} {c : Connection} {a b : Pin} {chip : String}
    {span : Span} (hm : s.meant? chip = some inside) (h : Joined inside d c a b) :
    s.bitsAsked BitRange.extent ⟨chip, span, c.inner, c.outer.range⟩ =
      c.outer.leastWidth b.width := by
  have hw := h.sameWidth
  obtain ⟨i, hi⟩ := h.inner.named
  unfold bitsAsked Reference.leastWidth
  dsimp only
  cases hr : c.outer.range with
  | none =>
    rw [Reference.widthOn, Reference.widthOn, hr] at hw
    simpa [hm, hi, Reference.widthOn] using hw
  | some range =>
    refine if_pos ?_
    rcases h.reaches range hr with hfits | ⟨hwrap, -⟩
    · exact BitRange.isOrdered_of_fits hfits
    · exact hwrap.isOrdered

theorem leastWidth_le_of_joined {inside : Definition} {c : Connection} {a b : Pin}
    (h : Joined inside d c a b) : c.outer.leastWidth b.width ≤ b.width := by
  unfold Reference.leastWidth
  cases hr : c.outer.range with
  | none => exact Nat.le_refl _
  | some range =>
    exact BitRange.extent_le ((h.reaches range hr).imp BitRange.fits_iff.1 And.left)

theorem meant?_of_lookup? {name : String} {child : Nat} {inside : Definition}
    (hl : s.lookup? name = some child) (hi : s.definition? child = some inside) :
    s.meant? name = some inside := by
  rw [Session.meant?, hl]
  exact hi

/-- **A tight net is as wide as the widest reference to it.** -/
theorem width_eq_netBits (hs : Pins.Sound d.pins) (hb : ∀ p ∈ d.parts, s.PartBound d p) {q : Pin}
    (hq : q ∈ d.pins) (ht : d.Tight q) : q.width = s.netBits BitRange.extent d q.key := by
  -- what a mention asks for, in terms of its range and of the width of the net
  have hasks : ∀ m ∈ d.mentions q.key, s.bitsAsked BitRange.extent m ≤ q.width ∧
      ((∀ range, m.range = some range → range.extent = q.width) →
        s.bitsAsked BitRange.extent m = q.width) := by
    intro m hm
    obtain ⟨p, hp, c, hc, hkey, rfl⟩ := Definition.mem_mentions.1 hm
    obtain ⟨child, inside, -, hl, hi, hall⟩ := hb p hp
    obtain ⟨a, b, hj⟩ := hall c hc
    obtain ⟨j, hbj⟩ := hj.outer
    obtain ⟨hpin, hbkey⟩ := Definition.of_pinNamed? hbj
    obtain rfl : b = q := hs.eq_of_key (Array.mem_of_getElem? hpin) hq (hbkey.trans hkey)
    rw [bitsAsked_of_joined (meant?_of_lookup? hl hi) hj]
    refine ⟨leastWidth_le_of_joined hj, fun hlast => ?_⟩
    unfold Reference.leastWidth
    cases hr : c.outer.range with
    | none => rfl
    | some range => exact hlast range hr
  obtain ⟨m, hm, htight⟩ := ht
  refine Nat.le_antisymm ?_ (netBits_le fun m hm => (hasks m hm).1)
  rw [← (hasks m hm).2 htight]
  exact bitsAsked_le_netBits hm

/-! ## Nets -/

/-- Linking made these nets for the chip `d`, and nothing else of its pins is new. -/
structure Netted (s : Session) (d d' : Definition) (nets : List Pin) : Prop extends d.Grows d' where
  added : d'.pins.toList = d.pins.toList ++ nets
  keys : nets.map Pin.key = newKeys d.names d.outerNames
  spelled : ∀ q ∈ nets, d.outerNames.find? (fun n => foldCase n == q.key) = some q.name
  internal : ∀ q ∈ nets, q.kind = .internal
  width : ∀ q ∈ nets, q.width = s.netBits BitRange.extent d q.key
  bounds : ∀ q ∈ nets, 1 ≤ q.width ∧ q.width ≤ 64
  /-- The widths pass over no reference. -/
  bound : ∀ p ∈ d'.parts, s.PartBound d' p

/-- What a chip gains when it links. -/
theorem exists_netted (hs : s.Sound) (hw : s.DrawnAs g) (ht : s.Titled) (hf : s.Finished id)
    (hd : s.definition? id = some d') (hg : d.Gains d.outerNames d') :
    ∃ nets, s.Netted d d' nets := by
  obtain ⟨nets, hpins, hnets⟩ := hg.nets
  have hpinsSound := (hs.sane_definition hd).pins
  have hbound : ∀ p ∈ d'.parts, s.PartBound d' p := fun p hp => hw.partBound ht hf hd hp
  have hmem : ∀ q ∈ nets, q ∈ d'.pins := fun q hq => by
    rw [← Array.mem_toList_iff, hpins]
    exact List.mem_append_right _ hq
  have hnames : d'.names = d.names ++ nets.map Pin.name := by
    rw [Definition.names, hpins, List.map_append, Definition.names]
  refine ⟨nets, hg.toGrows, hpins, ?_, fun q hq => ?_, fun q hq => (hnets q hq).1, fun q hq => ?_,
    fun q hq => ⟨hpinsSound.width_pos q (hmem q hq), hpinsSound.width_le q (hmem q hq)⟩, hbound⟩
  · -- the keys
    have hkeys := map_foldCase_foldl_meet d.names d.outerNames
    rw [← hg.names, hnames, List.map_append, List.append_cancel_left_eq, List.map_map] at hkeys
    exact hkeys
  · -- the spelling
    have hname : q.name ∈ d.outerNames.foldl meet d.names := by
      rw [← hg.names, hnames]
      exact List.mem_append_right _ (List.mem_map_of_mem hq)
    rcases mem_foldl_meet hname with hold | ⟨-, hfind⟩
    · obtain ⟨p, hp, hk⟩ := Definition.mem_names_iff.1 ⟨q.name, hold, rfl⟩
      have hnodup := hpinsSound.nodup
      rw [hpins, List.map_append, List.nodup_append] at hnodup
      have hmemp := List.mem_map_of_mem (f := Pin.key) (Array.mem_toList_iff.2 hp)
      exact absurd hk (hnodup.2.2 _ hmemp _ (List.mem_map_of_mem hq))
    · exact hfind
  · -- the width
    obtain ⟨m, hm, hr⟩ := (hnets q hq).2
    rw [netBits, ← hg.toGrows.mentions]
    exact width_eq_netBits hpinsSound hbound (hmem q hq) ⟨m, by rwa [hg.toGrows.mentions], hr⟩

/-- **A net has all bits that are referred to exactly if no reference to it wraps around.** -/
theorem Netted.width_eq_reach_iff {nets : List Pin} (h : s.Netted d d' nets) {q : Pin}
    (hq : q ∈ nets) : q.width = s.netBits BitRange.reach d q.key ↔
      ∀ r ∈ d.outers, r.key = q.key → ¬ r.WrapsAround := by
  rw [h.width q hq]
  refine ⟨fun he r hr hk hwrap => ?_, netBits_extent⟩
  obtain ⟨range, hrange, hwrap⟩ := hwrap
  obtain ⟨p, hp, c, hc, rfl⟩ := Definition.mem_outers.1 hr
  -- the reference asks for more bits than any pin has
  have hasked : s.bitsAsked BitRange.reach ⟨p.chip, p.span, c.inner, c.outer.range⟩ = 2 ^ 32 := by
    unfold bitsAsked
    simp [hrange, hwrap.isOrdered, BitRange.reach, hwrap.2, max32]
  have hle : s.bitsAsked BitRange.reach ⟨p.chip, p.span, c.inner, c.outer.range⟩ ≤
      s.netBits BitRange.reach d q.key :=
    bitsAsked_le_netBits (Definition.mem_mentions.2 ⟨p, hp, c, hc, hk, rfl⟩)
  have hwidth := (h.bounds q hq).2
  rw [h.width q hq] at hwidth
  omega

/-! ## The order of the parts -/

/-- What is asked of a net does not depend on the order of the parts, nor on places. -/
theorem netBits_of_perm {o : Definition}
    (h : (o.parts.toList.map Part.bare).Perm (d.parts.toList.map Part.bare)) (key : String) :
    s.netBits BitRange.extent o key = s.netBits BitRange.extent d key := by
  have hbare : ∀ d : Definition, (d.mentions key).map (s.bitsAsked BitRange.extent) =
      (d.parts.toList.map Part.bare).flatMap fun p =>
        (p.connections.filter (·.outer.key == key)).map fun c =>
          s.bitsAsked BitRange.extent ⟨p.chip, p.span, c.inner, c.outer.range⟩ := by
    intro d
    rw [Definition.mentions, List.map_flatMap, List.flatMap_map]
    refine List.flatMap_congr fun p _ => ?_
    simp only [Part.bare, List.map_map, List.filter_map]
    rfl
  rw [netBits, netBits, hbare, hbare]
  exact (h.flatMap_right _).foldr_eq 0

/-- A name of the same bare chip asks for the same width. -/
theorem bitsAsked_of_bare {m : Mention} {inside : Definition} {a : Pin} (ht : t.Sound)
    (hm : s.meant? m.chip = some inside) (ho : inside.Offers m.inner a)
    (h : (t.meant? m.chip).map Definition.bare = (s.meant? m.chip).map Definition.bare) :
    t.bitsAsked BitRange.extent m = s.bitsAsked BitRange.extent m := by
  rw [hm, Option.map_some] at h
  obtain ⟨inside', hm', hbare⟩ := Option.map_eq_some_iff.1 h
  obtain ⟨i, hi⟩ := ho.named
  obtain ⟨hpin, hk⟩ := Definition.of_pinNamed? hi
  obtain ⟨j, b, hj, hb⟩ := Definition.exists_pinNamed?_of_bare hbare (ht.sane_of_meant? hm').pins
    (Array.mem_of_getElem? hpin) ho.terminal
  rw [hk] at hj
  have hwidth : b.width = a.width := (Pin.bare_eq_bare_iff.1 hb).2.1
  unfold bitsAsked
  cases hr : m.range with
  | some range => rfl
  | none => simp [hm, hm', hi, hj, hwidth]

/-- **The widths of nets do not depend on the order of the parts.** -/
theorem Netted.width_eq {o o' : Definition} {nets nets' : List Pin} (h : s.Netted d d' nets)
    (h' : t.Netted o o' nets') (ht : t.Sound)
    (hp : (o.parts.toList.map Part.bare).Perm (d.parts.toList.map Part.bare))
    (hsame : ∀ p ∈ d.parts,
      (t.meant? p.chip).map Definition.bare = (s.meant? p.chip).map Definition.bare)
    {q r : Pin} (hq : q ∈ nets) (hr : r ∈ nets') (hk : q.key = r.key) : q.width = r.width := by
  have hasked : ∀ m ∈ d.mentions q.key,
      s.bitsAsked BitRange.extent m = t.bitsAsked BitRange.extent m := by
    intro m hm
    obtain ⟨p, hpart, _, _, _, hchip⟩ := Definition.mem_mentions.1 hm
    have hname : m.chip = p.chip := congrArg Mention.chip hchip
    have hbare : (t.meant? m.chip).map Definition.bare = (s.meant? m.chip).map Definition.bare := by
      rw [hname]
      exact hsame p hpart
    -- the mention as one of the linked chip
    rw [← h.toGrows.mentions] at hm
    obtain ⟨p', hpart', c, hc, -, he⟩ := Definition.mem_mentions.1 hm
    obtain ⟨child, inside, -, hl, hi, hall⟩ := h.bound p' hpart'
    obtain ⟨a, b, hj⟩ := hall c hc
    have hmeant : s.meant? m.chip = some inside := by
      rw [he]
      exact meant?_of_lookup? hl hi
    have hoffers : inside.Offers m.inner a := by
      rw [he]
      exact hj.inner
    exact (bitsAsked_of_bare ht hmeant hoffers hbare).symm
  rw [h.width q hq, h'.width r hr, ← hk, netBits_of_perm hp, netBits, netBits,
    List.map_congr_left hasked]

/-! ## Chips of a session -/

theorem Reachable.drawnAs_any (h : s.Reachable) : s.DrawnAs .any :=
  (lasting_drawnAs fun _ _ _ _ hd => hd).reachable (fun disk library => .start rfl disk library) h

/-- Seen from now, a chip is as it is, and if it has linked it has gained its nets. -/
theorem DrawnAs.since (h : s.DrawnAs .any) : s.DrawnAs (.since s) where
  sound := h.sound
  floor := Nat.le_refl _
  draft id e he _ d₀ hd₀ := Option.some.inj (hd₀.symm.trans (definition?_of_entry he))
  laid id e he hst := by
    have hlaid := h.laid id e he hst
    have hf := h.sound.finished id (by rw [status?_of_entry he, hst])
    have hd := definition?_of_entry he
    refine ⟨fun d hd₁ d₀ hd₀ => ?_, hlaid.parts⟩
    obtain rfl : d₀ = d := Option.some.inj (hd₀.symm.trans hd₁)
    refine .of_pins (.refl d₀) rfl (foldl_meet_of_known fun n hn => ?_)
    -- each reference of a linked chip is to a pin
    obtain ⟨r, hr, rfl⟩ := List.mem_map.1 hn
    obtain ⟨p, hp, c, hc, rfl⟩ := Definition.mem_outers.1 hr
    obtain ⟨link, -, hwired⟩ := h.exists_wired hf hd₀ hp
    obtain ⟨w, -, inside, outer, a, b, -, ho, -, hb, -⟩ := forall₂_of_mem_right hwired hc
    obtain rfl : d₀ = outer := Option.some.inj (hd₀.symm.trans ho)
    obtain ⟨hpin, hk⟩ := Definition.of_pinNamed? hb
    exact Definition.mem_names_iff.2 ⟨b, Array.mem_of_getElem? hpin, hk⟩

/-- A chip twice, with the parts in another order. The net `w` is read at one bit and driven as a
whole.
-/
def widened : Session :=
  (Session.addSource { disk := .empty } "W.hdl"
    ("CHIP Pair\x7bIN a,b;OUT o[2];PARTS:Not(in=a,out=o[0]);Not(in=b,out=o[1]);\x7d" ++
      "CHIP T\x7bIN a,b;OUT o;PARTS:Not(in=w[1],out=o);Pair(a=a,b=b,o=w);\x7d" ++
      "CHIP U\x7bIN a,b;OUT o;PARTS:Pair(a=a,b=b,o=w);Not(in=w[1],out=o);\x7d")).2

theorem reachable_widened : widened.Reachable := .addSource _ _ (.start .empty none)

/-- The chip of `wrapped` with the parts in the other order. -/
def turned : Session :=
  (Session.addSource { disk := .empty } "T.hdl"
    "CHIP T\x7bIN a;OUT o;PARTS:Not(in=n[0],out=o);Not(in=a,out=n[4294967295]);\x7d").2

end Session

end ChipLogic
