import ChipLogic.Proofs.Chip.Pieces
import ChipLogic.Proofs.Session.Valid
import Mathlib.Data.List.Nodup

/-!
# The layout of a chip

The pins of a chip that linked are no accident: they are the pins that it had, and then a net for
each new name on the outer sides of its connections, in the order of the connections (`meet`). A net
is no wider than it has to be (`Definition.Tight`): one reference to it is without a range, and then
the other side tells the width, or one ends at its last bit. `Definition.Gains` says so of a list of
names. A reference that wraps around fits no net that is there, so it is the first to its name
(`WrapsFirst`).

Here is what one connection adds to the table of pins, and which pins its wire joins
(`Session.layout_connectAll`).
-/

namespace ChipLogic

/-! ## Tables of names -/

/-- Adds a name to a table, unless it is there in some spelling. -/
def meet (names : List String) (name : String) : List String :=
  if names.any fun n => foldCase n == foldCase name then names else names ++ [name]

theorem meet_of_mem {names : List String} {n name : String} (hn : n ∈ names)
    (hk : foldCase n = foldCase name) : meet names name = names :=
  if_pos (List.any_eq_true.2 ⟨n, hn, by simpa using hk⟩)

theorem meet_of_new {names : List String} {name : String}
    (h : ∀ n ∈ names, foldCase n ≠ foldCase name) : meet names name = names ++ [name] :=
  if_neg (by simpa using h)

theorem prefix_meet (names : List String) (name : String) : names <+: meet names name := by
  unfold meet
  split
  · exact List.prefix_refl _
  · exact List.prefix_append _ _

theorem exists_mem_meet {names : List String} {name key : String} :
    (∃ n ∈ meet names name, foldCase n = key) ↔
      (∃ n ∈ names, foldCase n = key) ∨ foldCase name = key := by
  by_cases hold : ∃ n ∈ names, foldCase n = foldCase name
  · obtain ⟨n, hn, he⟩ := hold
    rw [meet_of_mem hn he, eq_comm, iff_self_or]
    rintro rfl
    exact ⟨n, hn, he⟩
  · rw [meet_of_new fun n hn he => hold ⟨n, hn, he⟩]
    simp [or_and_right, exists_or]

theorem exists_mem_foldl_meet {names added : List String} {key : String} :
    (∃ n ∈ added.foldl meet names, foldCase n = key) ↔
      (∃ n ∈ names, foldCase n = key) ∨ ∃ n ∈ added, foldCase n = key := by
  induction added generalizing names with
  | nil => simp
  | cons name added ih => simp [ih, exists_mem_meet, or_assoc]

theorem prefix_foldl_meet (names added : List String) : names <+: added.foldl meet names := by
  induction added generalizing names with
  | nil => exact List.prefix_refl _
  | cons name added ih => exact (prefix_meet names name).trans (ih _)

/-- A name of a table was known, or it is new and spelled as it is where it comes first. -/
theorem mem_foldl_meet {known names : List String} {n : String} (hn : n ∈ names.foldl meet known) :
    n ∈ known ∨ (∀ m ∈ known, foldCase m ≠ foldCase n) ∧
      names.find? (fun m => foldCase m == foldCase n) = some n := by
  induction names generalizing known with
  | nil => exact .inl hn
  | cons a names ih =>
    by_cases hold : ∃ m ∈ known, foldCase m = foldCase a
    · obtain ⟨m, hm, he⟩ := hold
      rw [List.foldl_cons, meet_of_mem hm he] at hn
      refine (ih hn).imp_right fun ⟨hnew, hfind⟩ => ⟨hnew, ?_⟩
      rwa [List.find?_cons_of_neg (by simpa [← he] using hnew m hm)]
    · have hnew : ∀ m ∈ known, foldCase m ≠ foldCase a := fun m hm he => hold ⟨m, hm, he⟩
      rw [List.foldl_cons, meet_of_new hnew] at hn
      rcases ih hn with hmem | ⟨hother, hfind⟩
      · rcases List.mem_append.1 hmem with hmem | hmem
        · exact .inl hmem
        · obtain rfl := List.mem_singleton.1 hmem
          exact .inr ⟨hnew, List.find?_cons_of_pos (by simp)⟩
      · refine .inr ⟨fun m hm => hother m (List.mem_append_left _ hm), ?_⟩
        have ha := hother a (List.mem_append_right _ (List.mem_singleton_self a))
        rwa [List.find?_cons_of_neg (by simpa using ha)]

/-- **The spelling does not matter.** If each name is replaced by what stands in the table for it,
the table is the same. -/
theorem foldl_meet_respelled {names added added' : List String}
    (hn : ((added.foldl meet names).map foldCase).Nodup)
    (h : List.Forall₂ (fun n n' => n' ∈ added.foldl meet names ∧ foldCase n' = foldCase n)
      added added') :
    added'.foldl meet names = added.foldl meet names := by
  generalize ht : added.foldl meet names = table at hn h
  induction h generalizing names with
  | nil => exact ht
  | @cons n n' added added' hnn _ ih =>
    obtain ⟨hmem, hk⟩ := hnn
    have hsame : meet names n' = meet names n := by
      by_cases hold : ∃ m ∈ names, foldCase m = foldCase n
      · obtain ⟨m, hm, hmn⟩ := hold
        rw [meet_of_mem hm hmn, meet_of_mem hm (hmn.trans hk.symm)]
      · -- the table has the name as it is written here, and no other spelling of it
        have hnew : ∀ m ∈ names, foldCase m ≠ foldCase n := fun m hm he => hold ⟨m, hm, he⟩
        have hin : n ∈ table := by
          rw [← ht]
          refine (prefix_foldl_meet (meet names n) added).subset ?_
          rw [meet_of_new hnew]
          exact List.mem_append_right _ (List.mem_singleton_self n)
        rw [List.inj_on_of_nodup_map hn hmem hin hk]
    rw [List.foldl_cons, hsame]
    exact ih ht

/-! ## References that wrap around -/

/-- A reference that wraps around is the first to its name: neither a name of the table nor a
reference before it has this name. -/
def WrapsFirst (names : List String) (rs : List Reference) : Prop :=
  rs.Pairwise (fun r r' => r'.WrapsAround → r.key ≠ r'.key) ∧
    ∀ r ∈ rs, r.WrapsAround → ∀ n ∈ names, foldCase n ≠ r.key

theorem wrapsFirst_nil (names : List String) : WrapsFirst names [] :=
  ⟨.nil, List.forall_mem_nil _⟩

theorem wrapsFirst_singleton {names : List String} {r : Reference} :
    WrapsFirst names [r] ↔ (r.WrapsAround → ∀ n ∈ names, foldCase n ≠ r.key) := by
  simp [WrapsFirst]

/-- References after others find the names of the others in the table. -/
theorem wrapsFirst_append {names : List String} {rs rs' : List Reference} :
    WrapsFirst names (rs ++ rs') ↔
      WrapsFirst names rs ∧ WrapsFirst ((rs.map Reference.name).foldl meet names) rs' := by
  have hknown : ∀ key, (∀ n ∈ (rs.map Reference.name).foldl meet names, foldCase n ≠ key) ↔
      (∀ n ∈ names, foldCase n ≠ key) ∧ ∀ r ∈ rs, r.key ≠ key := by
    intro key
    have hexists := not_congr (@exists_mem_foldl_meet names (rs.map Reference.name) key)
    simpa [not_or, Reference.key] using hexists
  simp only [WrapsFirst, List.pairwise_append, List.forall_mem_append, hknown]
  constructor
  · rintro ⟨⟨hp, hp', hbetween⟩, hn, hn'⟩
    exact ⟨⟨hp, hn⟩, hp', fun r hr hw => ⟨hn' r hr hw, fun r₀ hr₀ => hbetween r₀ hr₀ r hr hw⟩⟩
  · rintro ⟨⟨hp, hn⟩, hp', hn'⟩
    exact ⟨⟨hp, hp', fun r₀ hr₀ r hr hw => (hn' r hr hw).2 r₀ hr₀⟩, hn,
      fun r hr hw => (hn' r hr hw).1⟩

theorem wrapsFirst_cons {names : List String} {r : Reference} {rs : List Reference} :
    WrapsFirst names (r :: rs) ↔ WrapsFirst names [r] ∧ WrapsFirst (meet names r.name) rs :=
  @wrapsFirst_append names [r] rs

/-- The key and the range of a reference. -/
def Reference.target (r : Reference) : String × Option BitRange := (r.key, r.range)

/-- The spelling of the references does not matter. -/
theorem WrapsFirst.congr {names : List String} {rs rs' : List Reference} (h : WrapsFirst names rs)
    (he : rs'.map Reference.target = rs.map Reference.target) : WrapsFirst names rs' := by
  -- both parts can be told from the keys and the ranges
  let wraps (t : String × Option BitRange) : Prop := ∃ range, t.2 = some range ∧ range.WrapsAround
  have hpairs : ∀ rs : List Reference,
      rs.Pairwise (fun r r' => r'.WrapsAround → r.key ≠ r'.key) ↔
        (rs.map Reference.target).Pairwise fun t t' => wraps t' → t.1 ≠ t'.1 :=
    fun rs => by rw [List.pairwise_map]; rfl
  have hnames : ∀ rs : List Reference,
      (∀ r ∈ rs, r.WrapsAround → ∀ n ∈ names, foldCase n ≠ r.key) ↔
        ∀ t ∈ rs.map Reference.target, wraps t → ∀ n ∈ names, foldCase n ≠ t.1 :=
    fun rs => by rw [List.forall_mem_map]; rfl
  rw [WrapsFirst, hpairs, hnames] at h ⊢
  rwa [he]

/-! ## Nets -/

theorem Pins.Sound.eq_of_key {pins : Array Pin} (h : Pins.Sound pins) {p q : Pin} (hp : p ∈ pins)
    (hq : q ∈ pins) (hk : p.key = q.key) : p = q :=
  List.inj_on_of_nodup_map h.nodup (Array.mem_toList_iff.2 hp) (Array.mem_toList_iff.2 hq) hk

/-- The outer sides of the connections of a part. -/
def Part.outers (p : Part) : List Reference := p.connections.map (·.outer)

namespace Definition

variable {d d' : Definition}

/-- The names of the pins. -/
def names (d : Definition) : List String := d.pins.toList.map Pin.name

/-- Some reference to a net has no range, or ends at the last bit of the net. -/
def Tight (d : Definition) (q : Pin) : Prop :=
  ∃ m ∈ d.mentions q.key, ∀ range, m.range = some range → range.extent = q.width

/-- The outer sides of all connections, in order. -/
def outers (d : Definition) : List Reference := d.parts.toList.flatMap Part.outers

/-- The names on the outer sides of all connections, in order. -/
def outerNames (d : Definition) : List String := d.outers.map Reference.name

theorem mem_outers {r : Reference} :
    r ∈ d.outers ↔ ∃ p ∈ d.parts, ∃ c ∈ p.connections, c.outer = r := by
  simp [outers, Part.outers]

/-- No net has been added. -/
def Raw (d : Definition) : Prop := d.terminals = d.pins.toList

/-- The pins are those that are declared and the nets that are needed. -/
structure LaidOut (d : Definition) : Prop where
  names : d.names = d.outerNames.foldl meet (d.terminals.map Pin.name)
  wrapsFirst : WrapsFirst (d.terminals.map Pin.name) d.outers
  tight : ∀ q ∈ d.pins, q.kind = .internal → d.Tight q

theorem raw_iff : d.Raw ↔ ∀ p ∈ d.pins, p.isTerminal = true := by
  rw [Raw, terminals, List.filter_eq_self]
  simp

theorem Grows.outers (h : d.Grows d') : d'.outers = d.outers := by
  have hwritten : ∀ d : Definition,
      d.outers = (d.parts.map Part.written).toList.flatMap Part.outers := by
    intro d
    rw [Array.toList_map, List.flatMap_map]
    rfl
  rw [hwritten d', hwritten d, h.parts]

theorem Grows.outerNames (h : d.Grows d') : d'.outerNames = d.outerNames := by
  rw [Definition.outerNames, Definition.outerNames, h.outers]

/-- The names of the terminals can be read off the bare chip. -/
theorem map_name_terminals_of_bare (h : d'.bare = d.bare) :
    d'.terminals.map Pin.name = d.terminals.map Pin.name := by
  have hnames : ∀ d : Definition,
      d.terminals.map Pin.name = (d.terminals.map Pin.bare).map Pin.name := fun d => by
    simp [Function.comp_def, Pin.bare]
  rw [hnames d', hnames d, map_bare_terminals_of_bare h]

/-- So can the references. -/
theorem map_bare_outers_of_bare (h : d'.bare = d.bare) :
    d'.outers.map Reference.bare = d.outers.map Reference.bare := by
  have houters : ∀ d : Definition, d.bare.outers = d.outers.map Reference.bare := fun d => by
    simp [outers, Part.outers, bare, Part.bare, Connection.bare, List.map_flatMap,
      List.flatMap_map, Function.comp_def]
  rw [← houters d', ← houters d, h]

theorem map_outers_of_bare {α : Type} {f : Reference → α} (hf : ∀ r, f r.bare = f r)
    (h : d'.bare = d.bare) : d'.outers.map f = d.outers.map f := by
  have hmap : ∀ d : Definition, d.outers.map f = (d.outers.map Reference.bare).map f := fun d => by
    simp [Function.comp_def, hf]
  rw [hmap d', hmap d, map_bare_outers_of_bare h]

theorem outerNames_of_bare (h : d'.bare = d.bare) : d'.outerNames = d.outerNames :=
  map_outers_of_bare (fun _ => rfl) h

/-- A terminal is there in any chip that is the same bare chip. -/
theorem exists_pin_of_bare (h : d'.bare = d.bare) {p : Pin} (hp : p ∈ d.pins)
    (ht : p.kind ≠ .internal) : ∃ q ∈ d'.pins, q.bare = p.bare := by
  have hterminals := map_bare_terminals_of_bare h
  have hterminal : p ∈ d.terminals :=
    List.mem_filter.2 ⟨Array.mem_toList_iff.2 hp, by simpa [Pin.isTerminal]⟩
  have hmem : p.bare ∈ d'.terminals.map Pin.bare := by
    rw [hterminals]
    exact List.mem_map_of_mem hterminal
  obtain ⟨q, hq, he⟩ := List.mem_map.1 hmem
  exact ⟨q, Array.mem_toList_iff.1 (List.mem_filter.1 hq).1, he⟩

theorem exists_pinNamed?_of_bare (h : d'.bare = d.bare) (hs : Pins.Sound d'.pins) {p : Pin}
    (hp : p ∈ d.pins) (ht : p.kind ≠ .internal) :
    ∃ i q, d'.pinNamed? p.key = some (i, q) ∧ q.bare = p.bare := by
  obtain ⟨q, hq, he⟩ := exists_pin_of_bare h hp ht
  obtain ⟨i, hi⟩ := Array.mem_iff_getElem?.1 hq
  have hk : q.key = p.key := congrArg foldCase (Pin.bare_eq_bare_iff.1 he).1
  exact ⟨i, q, (pinNamed?_eq_some_iff hs).2 ⟨hi, hk⟩, he⟩

theorem mem_names_iff {key : String} :
    (∃ n ∈ d.names, foldCase n = key) ↔ ∃ p ∈ d.pins, p.key = key := by
  simp [names, Pin.key]

theorem pinNamed?_eq_none_iff_names {key : String} :
    d.pinNamed? key = none ↔ ∀ n ∈ d.names, foldCase n ≠ key := by
  rw [pinNamed?_eq_none_iff]
  simpa using not_congr (@mem_names_iff d key).symm

/-- `d'` is `d` with the nets that names need, all of them tight. -/
structure Gains (d : Definition) (added : List String) (d' : Definition) : Prop extends
    d.Grows d' where
  names : d'.names = added.foldl meet d.names
  nets : ∃ nets, d'.pins.toList = d.pins.toList ++ nets ∧ ∀ q ∈ nets, q.kind = .internal ∧ d.Tight q

/-- The pins stay, and the names are there. -/
theorem Gains.of_pins {added : List String} (h : d.Grows d') (hp : d'.pins = d.pins)
    (hn : added.foldl meet d.names = d.names) : d.Gains added d' where
  toGrows := h
  names := by rw [hn, Definition.names, hp, ← Definition.names]
  nets := ⟨[], by rw [hp, List.append_nil], List.forall_mem_nil _⟩

theorem Gains.trans {d'' : Definition} {added added' : List String} (h : d.Gains added d')
    (h' : d'.Gains added' d'') : d.Gains (added ++ added') d'' where
  toGrows := h.toGrows.trans h'.toGrows
  names := by rw [h'.names, h.names, List.foldl_append]
  nets := by
    obtain ⟨nets, hp, hn⟩ := h.nets
    obtain ⟨nets', hp', hn'⟩ := h'.nets
    refine ⟨nets ++ nets', by rw [hp', hp, List.append_assoc], fun q hq => ?_⟩
    rcases List.mem_append.1 hq with hq | hq
    · exact hn q hq
    · obtain ⟨hk, m, hm, hr⟩ := hn' q hq
      exact ⟨hk, m, by rwa [← h.toGrows.mentions], hr⟩

/-- A chip of terminals is laid out when it has the nets that it needs. -/
theorem Gains.laidOut (h : d.Gains d.outerNames d') (hw : WrapsFirst d.names d.outers)
    (hraw : d.Raw) : d'.LaidOut := by
  obtain ⟨nets, hp, hn⟩ := h.nets
  have hterminals : d'.terminals = d.pins.toList := by
    have hnone : nets.filter Pin.isTerminal = [] :=
      List.filter_eq_nil_iff.2 fun q hq => by simp [Pin.isTerminal, (hn q hq).1]
    rw [terminals, hp, List.filter_append, hnone, List.append_nil]
    exact hraw
  refine ⟨?_, ?_, fun q hq hk => ?_⟩
  · rw [hterminals, h.toGrows.outerNames]
    exact h.names
  · rw [hterminals, h.toGrows.outers]
    exact hw
  · rw [← Array.mem_toList_iff, hp, List.mem_append, Array.mem_toList_iff] at hq
    rcases hq with hq | hq
    · have hterminal := raw_iff.1 hraw q hq
      simp [Pin.isTerminal, hk] at hterminal
    · obtain ⟨m, hm, hr⟩ := (hn q hq).2
      exact ⟨m, by rwa [h.toGrows.mentions], hr⟩

theorem names_eq_of_pinNamed? {r : Reference} {i : Nat} {p : Pin}
    (h : d.pinNamed? r.key = some (i, p)) : meet d.names r.name = d.names := by
  obtain ⟨hi, hk⟩ := of_pinNamed? h
  obtain ⟨n, hn, he⟩ := mem_names_iff.2 ⟨p, Array.mem_of_getElem? hi, hk⟩
  exact meet_of_mem hn he

/-- A net of a new name. -/
theorem Gains.push {r : Reference} {width : Nat} (h : d.refusal? (r.net width) = none)
    (ht : d.Tight (r.net width)) :
    d.Gains [r.name] (d.push (r.net width)) ∧ WrapsFirst d.names [r] := by
  obtain ⟨hnew, -⟩ := refusal?_eq_none_iff.1 h
  have hfresh : ∀ n ∈ d.names, foldCase n ≠ r.key := by
    intro n hn he
    obtain ⟨p, hp, hkey⟩ := mem_names_iff.1 ⟨n, hn, he⟩
    exact hnew p hp hkey
  refine ⟨⟨.push d _, ?_, [r.net width], by simp, List.forall_mem_singleton.2 ⟨rfl, ht⟩⟩,
    wrapsFirst_singleton.2 fun _ => hfresh⟩
  rw [List.foldl_cons, List.foldl_nil, meet_of_new hfresh]
  simp [Definition.names, Reference.net]

end Definition

namespace Session

variable {s s' : Session} {parent child : Nat} {d : Definition}

/-- What is asked of a net is its least width, or what some reference with a range asks for; or
there is a reference without one. -/
theorem widestMention_cases (s : Session) (width : Nat) (ms : List Mention) :
    (s.widestMention width ms).1 = width ∨
      ∃ m ∈ ms, ∀ range, m.range = some range → range.extent = (s.widestMention width ms).1 := by
  induction ms generalizing s width with
  | nil => exact .inl rfl
  | cons m ms ih =>
    cases hr : m.range with
    | none => exact .inr ⟨m, List.mem_cons_self, by simp [hr]⟩
    | some range =>
      rcases ih (s.mentionWidth m).2 (max width (s.mentionWidth m).1) with hmax | ⟨m', hm', hlast⟩
      · have hasked : (s.mentionWidth m).1 = if range.isOrdered then range.extent else 0 := by
          simp [mentionWidth, hr]
        have hresult : (s.widestMention width (m :: ms)).1 = max width (s.mentionWidth m).1 := hmax
        rw [hasked] at hresult
        by_cases hw : (s.widestMention width (m :: ms)).1 = width
        · exact .inl hw
        · refine .inr ⟨m, List.mem_cons_self, fun range' he => ?_⟩
          rw [hr, Option.some.injEq] at he
          subst he
          split at hresult
          · omega
          · omega
      · exact .inr ⟨m', List.mem_cons_of_mem _ hm', hlast⟩

/-! ## Connections -/

/-- The wire joins the pins that the connection names. -/
def Wired (s : Session) (parent child : Nat) (c : Connection) (w : Wire) : Prop :=
  ∃ inner outer p q, s.definition? child = some inner ∧ s.definition? parent = some outer ∧
    inner.pinNamed? c.inner.key = some (w.inner, p) ∧
    outer.pinNamed? c.outer.key = some (w.outer, q) ∧
    w.innerRange = c.inner.range ∧ w.outerRange = c.outer.range

theorem Wired.mono {work : Option Nat} {c : Connection} {w : Wire} (h : s.Wired parent child c w)
    (ha : Advances work s s') (hs : s'.Sound) : s'.Wired parent child c w := by
  obtain ⟨inner, outer, p, q, hi, ho, hp, hq, hranges⟩ := h
  obtain ⟨inner', hi', hgi⟩ := ha.definition? hi
  obtain ⟨outer', ho', hgo⟩ := ha.definition? ho
  exact ⟨inner', outer', p, q, hi', ho', hgi.pinNamed? (hs.sane_definition hi') hp,
    hgo.pinNamed? (hs.sane_definition ho') hq, hranges⟩

/-- The chip `parent` got the nets that the references in `added` need, which come in time. -/
def Extends (parent : Nat) (added : List Reference) (s s' : Session) : Prop :=
  ∀ d, s.definition? parent = some d → ∃ d', s'.definition? parent = some d' ∧
    d.Gains (added.map Reference.name) d' ∧ WrapsFirst d.names added

theorem Extends.of_definition? (h : s'.definition? parent = s.definition? parent) :
    Extends parent [] s s' :=
  fun d hd => ⟨d, h.trans hd, .of_pins (.refl d) rfl rfl, wrapsFirst_nil _⟩

theorem Extends.trans {s'' : Session} {added added' : List Reference} (h : Extends parent added s s')
    (h' : Extends parent added' s' s'') : Extends parent (added ++ added') s s'' := by
  intro d hd
  obtain ⟨d', hd', hg, hw⟩ := h d hd
  obtain ⟨d'', hd'', hg', hw'⟩ := h' d' hd'
  refine ⟨d'', hd'', ?_, wrapsFirst_append.2 ⟨hw, hg.names ▸ hw'⟩⟩
  rw [List.map_append]
  exact hg.trans hg'

/-- Steps that work on no chip leave the one in progress alone. -/
theorem Advances.extends (h : Advances none s s') (hs : s.status? parent = some .inProgress) :
    Extends parent [] s s' :=
  .of_definition? (h.definition?_inProgress hs (by simp))

/-- A tight net that is added. -/
theorem extends_addPinTo (hd : s.definition? parent = some d) {r : Reference} {width i : Nat}
    (ht : d.Tight (r.net width)) (h : (s.addPinTo parent (r.net width)).1 = some i) :
    Extends parent [r] s (s.addPinTo parent (r.net width)).2 ∧
      ∃ d', (s.addPinTo parent (r.net width)).2.definition? parent = some d' ∧
        d'.pins[i]? = some (r.net width) := by
  refine ⟨fun d₀ hd₀ => ?_, definition?_of_addPinTo h⟩
  obtain rfl : d = d₀ := Option.some.inj (hd.symm.trans hd₀)
  rcases s.addPinTo_cases parent (r.net width) with
    ⟨-, hadd⟩ | ⟨d₁, refusal, -, -, hadd⟩ | ⟨d₁, hd₁, hr, hadd⟩
  · rw [hadd] at h
    cases h
  · rw [hadd] at h
    cases h
  · obtain rfl : d = d₁ := Option.some.inj (hd.symm.trans hd₁)
    exact hadd ▸ ⟨_, definition?_modifyDefinition hd _ _, Definition.Gains.push hr ht⟩

/-- The net that is made for a reference is tight. -/
theorem tight_net (hd : s.definition? parent = some d) {r : Reference} (width : Nat)
    (hm : ∃ m ∈ d.mentions r.key, m.range = r.range) :
    d.Tight (r.net (s.netWidth parent r.key (r.leastWidth width)).1) := by
  have hcases := widestMention_cases s (r.leastWidth width) (s.mentions parent r.key)
  rw [mentions_eq hd] at hcases
  rw [netWidth, mentions_eq hd]
  rcases hcases with hleast | htight
  · obtain ⟨m, hmem, hrange⟩ := hm
    refine ⟨m, hmem, fun range he => ?_⟩
    rw [hrange] at he
    rw [hleast, Reference.leastWidth, he]
    rfl
  · exact htight

theorem extends_addNet (hs : s.status? parent = some .inProgress)
    (hd : s.definition? parent = some d) {r : Reference} {width i : Nat} {q : Pin}
    (hm : ∃ m ∈ d.mentions r.key, m.range = r.range)
    (h : (s.addNet parent r width).1 = some (i, q)) :
    Extends parent [r] s (s.addNet parent r width).2 ∧
      ∃ d', (s.addNet parent r width).2.definition? parent = some d' ∧
        d'.pins[i]? = some q ∧ q.key = r.key := by
  rw [addNet_eq] at h ⊢
  have ha : Advances none s (s.netWidth parent r.key (r.leastWidth width)).2 :=
    advances_widestMention s _ _ none
  have ht := tight_net hd width hm
  generalize s.netWidth parent r.key (r.leastWidth width) = net at h ha ht ⊢
  obtain ⟨bits, s₁⟩ := net
  dsimp only at h ha ht ⊢
  have hd₁ : s₁.definition? parent = some d := (ha.definition?_inProgress hs (by simp)).trans hd
  obtain ⟨j, hj, he⟩ := Option.map_eq_some_iff.1 h
  obtain ⟨rfl, rfl⟩ := Prod.mk.inj he
  obtain ⟨hext, d', hd', hq⟩ := extends_addPinTo hd₁ ht hj
  exact ⟨(ha.extends hs).trans hext, d', hd', hq, rfl⟩

theorem extends_outerPin (hs : s.status? parent = some .inProgress)
    (hd : s.definition? parent = some d) (hsane : d.Sane) {r : Reference} {width i : Nat} {q : Pin}
    (hm : ∃ m ∈ d.mentions r.key, m.range = r.range)
    (h : (s.outerPin parent r width).1 = some (i, q)) :
    Extends parent [r] s (s.outerPin parent r width).2 ∧
      ∃ d', (s.outerPin parent r width).2.definition? parent = some d' ∧
        d'.pins[i]? = some q ∧ q.key = r.key := by
  -- a name that is there adds nothing
  have hold : ∀ j p, d.pinNamed? r.key = some (j, p) →
      (∀ range, r.range = some range → range.fits p.width) → Extends parent [r] s s := by
    intro j p hp hfits d₀ hd₀
    obtain rfl : d = d₀ := Option.some.inj (hd.symm.trans hd₀)
    have hle := hsane.pins.width_le p (Array.mem_of_getElem? (Definition.of_pinNamed? hp).1)
    refine ⟨d, hd, .of_pins (.refl d) rfl (Definition.names_eq_of_pinNamed? hp), ?_⟩
    exact wrapsFirst_singleton.2 fun hwrap => absurd hwrap (Reference.not_wrapsAround hle hfits)
  have hcase := s.outerRun_outerPin parent r width
  generalize s.outerPin parent r width = outer at hcase h ⊢
  cases hcase with
  | @found d' j p hd' hp hfits =>
    obtain rfl : d = d' := Option.some.inj (hd.symm.trans hd')
    cases h
    exact ⟨hold _ _ hp hfits, d, hd, Definition.of_pinNamed? hp⟩
  | misfit | reversed => cases h
  | made => exact extends_addNet hs hd hm h

theorem ends_of_join {c : Connection} {inner outer : Nat × Pin} {w : Wire}
    (h : join c inner outer = .ok w) : w.inner = inner.1 ∧ w.outer = outer.1 ∧
      w.innerRange = c.inner.range ∧ w.outerRange = c.outer.range := by
  unfold join at h
  dsimp only at h
  generalize (if inner.2.kind = .input then Direction.drive else .sense) = direction at h
  split at h
  · cases h
  · split at h
    · cases h
    · cases h
      exact ⟨rfl, rfl, rfl, rfl⟩

/-- **A connection adds one reference**, and its wire joins the pins that it names. -/
theorem layout_connect (hs : s.status? parent = some .inProgress) (hsound : s.Sound)
    (hd : s.definition? parent = some d) {c : Connection} {w : Wire}
    (hm : ∃ m ∈ d.mentions c.outer.key, m.range = c.outer.range)
    (h : (s.connect parent child c).1 = some w) :
    Extends parent [c.outer] s (s.connect parent child c).2 ∧
      (s.connect parent child c).2.Wired parent child c w := by
  have hsound' := (connects_connect child hs c).sound hsound
  have hcase := s.connectRun_connect parent child c
  generalize s.connect parent child c = r at hcase h hsound' ⊢
  cases hcase with
  | noInner | noOuter | apart => cases h
  | @wire inner outer _ hi ho hj =>
    cases h
    obtain ⟨i, p⟩ := inner
    obtain ⟨j, q⟩ := outer
    obtain ⟨inside, hinside, hp, -⟩ := innerPin_eq_ok hi
    have ha := connects_outerPin hs c.outer (c.inner.widthOn p.width)
    obtain ⟨hext, d', hd', hq, hk⟩ := extends_outerPin hs hd (hsound.sane_definition hd) hm ho
    obtain ⟨inside', hinside', hg⟩ := ha.definition? hinside
    obtain ⟨rfl, rfl, hranges⟩ := ends_of_join hj
    refine ⟨hext, inside', d', p, q, hinside', hd', ?_, ?_, hranges⟩
    · exact hg.pinNamed? (hsound'.sane_definition hinside') hp
    · exact (Definition.pinNamed?_eq_some_iff (hsound'.sane_definition hd').pins).2 ⟨hq, hk⟩

/-- **The connections of a part add their references in order.** -/
theorem layout_connectAll (child : Nat) (hs : s.status? parent = some .inProgress)
    (hsound : s.Sound) (hd : s.definition? parent = some d) {cs : List Connection}
    (hm : ∀ c ∈ cs, ∃ m ∈ d.mentions c.outer.key, m.range = c.outer.range)
    (h : (s.connectAll parent child cs).1.all Option.isSome) :
    Extends parent (cs.map (·.outer)) s (s.connectAll parent child cs).2 ∧
      List.Forall₂ ((s.connectAll parent child cs).2.Wired parent child) cs
        ((s.connectAll parent child cs).1.filterMap id) := by
  induction cs generalizing s d with
  | nil => exact ⟨.of_definition? rfl, .nil⟩
  | cons c cs ih =>
    obtain ⟨hc, hcs⟩ := List.forall_mem_cons.1 hm
    have hsplit : (s.connect parent child c).1.isSome ∧
        ((s.connect parent child c).2.connectAll parent child cs).1.all Option.isSome := by
      simpa [connectAll] using h
    obtain ⟨w, hw⟩ := Option.isSome_iff_exists.1 hsplit.1
    obtain ⟨hext, hwired⟩ := layout_connect hs hsound hd hc hw
    have hstep := connects_connect child hs c
    have hs' := hstep.status_inProgress hs
    obtain ⟨d', hd', hg⟩ := hstep.definition? hd
    have hsound' := hstep.sound hsound
    obtain ⟨hext', hall⟩ := ih hs' hsound' hd' (fun c hc => by rw [hg.mentions]; exact hcs c hc)
      hsplit.2
    have hrest := connects_connectAll child hs' cs
    have hwires : (s.connectAll parent child (c :: cs)).1.filterMap id =
        w :: ((s.connect parent child c).2.connectAll parent child cs).1.filterMap id := by
      simp [connectAll, hw]
    rw [hwires]
    exact ⟨hext.trans hext', .cons (hwired.mono hrest.toAdvances (hrest.sound hsound')) hall⟩

end Session

end ChipLogic
