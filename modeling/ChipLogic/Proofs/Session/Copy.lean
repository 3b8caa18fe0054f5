import ChipLogic.Proofs.Netlist.Mirror
import ChipLogic.Proofs.Session.Canonical
import ChipLogic.Proofs.Session.Later

/-!
# Freezing makes a faithful copy

A finished chip has the form of a chip of a netlist, with parts that lead to chips of the session
(`Session.view?`). A frozen netlist is a copy of just what is inside the frozen chip, in these forms
(`Session.Frozen.copyOf`). The list of chips met is the image of the copy. **It is the list of the
chip itself and of the chips of the parts of all chips in it, in order and without repetition**
(`Session.Frozen.breadthFirst`), which is to say that chips are numbered level by level, and by
their first use within a level.

**Frozen chips are linked, and linked chips do not change.** So a copy stays a copy of the session
whatever is called afterwards (`Session.Frozen.later`), and freezing the chip again gives the same
netlist (`Session.Frozen.unique`), and freezing a chip inside it a copy of a part of it.

**Theorem (`Session.Reachable.freeze_faithful`).** All this holds for every netlist that is frozen
in a reachable session, and chips inside may be frozen before or after.
-/

namespace ChipLogic

/-! ## Chips of a session in the form of a netlist -/

/-- The part, leading to a chip of the session. There is none if the part has no chip yet. -/
def Part.view? (p : Part) : Option Instance :=
  p.resolved.map fun child => ⟨child, p.chip, p.wires, p.span⟩

/-- The part with the number that it carries. -/
def Part.viewSlot? (slot : Numbered Part) : Option (Numbered Instance) :=
  slot.item.view?.map fun i => ⟨slot.index, i⟩

def Definition.view? (d : Definition) : Option Chip :=
  (d.partSlots.toList.mapM Part.viewSlot?).map fun parts =>
    ⟨d.name, match d.gate with
      | some g => .gate g
      | none => .composite, d.pinTable.slots, parts.toArray⟩

namespace Session

variable {s s' : Session} {order order' : List Nat} {net net' : Netlist} {top id x : Nat}

/-- A chip of the session in the form of a netlist. -/
def view? (s : Session) (id : Nat) : Option Chip := (s.definition? id).bind Definition.view?

/-- The chips of the parts of a chip, in order. -/
def partChips (s : Session) (id : Nat) : List Nat :=
  ((s.definition? id).map fun d => d.parts.toList.filterMap Part.resolved).getD []

theorem mem_partChips {a b : Nat} : b ∈ s.partChips a ↔ s.Contains a b := by
  cases hd : s.definition? a with
  | none => simp [partChips, Contains, target?, part?, hd]
  | some d =>
    simp only [partChips, Contains, target?, part?, hd, Option.map_some, Option.getD_some,
      Option.bind_some, List.mem_filterMap]
    constructor
    · rintro ⟨p, hp, hb⟩
      obtain ⟨i, hi⟩ := List.mem_iff_getElem?.1 hp
      exact ⟨i, by rw [← Array.getElem?_toList, hi]; exact hb⟩
    · rintro ⟨i, hi⟩
      obtain ⟨p, hp, hb⟩ := Option.bind_eq_some_iff.1 hi
      exact ⟨p, Array.mem_toList_iff.2 (Array.mem_of_getElem? hp), hb⟩

/-- The chips of parts, in the form in which the walk takes the parts. -/
theorem filterMap_resolved_partSlots (s : Session) (id : Nat) :
    ((s.definition? id).getD default).partSlots.toList.filterMap (·.item.resolved) =
      s.partChips id := by
  rw [partChips]
  cases s.definition? id with
  | none => rfl
  | some d =>
    rw [Option.getD_some, Option.map_some, Option.getD_some, Definition.parts,
      Numbered.toList_items, List.filterMap_map]
    rfl

theorem map_chip_of_mapM_viewSlot? {ps : List (Numbered Part)} {qs : List (Numbered Instance)}
    (h : ps.mapM Part.viewSlot? = some qs) :
    ps.filterMap (·.item.resolved) = qs.map (·.item.chip) := by
  induction ps generalizing qs with
  | nil =>
    cases h
    rfl
  | cons p ps ih =>
    rw [List.mapM_cons] at h
    obtain ⟨q, hq, h⟩ := Option.bind_eq_some_iff.1 h
    obtain ⟨qs', hqs, h⟩ := Option.bind_eq_some_iff.1 h
    cases h
    obtain ⟨i, hi, rfl⟩ := Option.map_eq_some_iff.1 hq
    obtain ⟨child, hchild, rfl⟩ := Option.map_eq_some_iff.1 hi
    rw [List.filterMap_cons, hchild, ih hqs]
    rfl

/-- A chip in the form of a netlist has the parts that it has in the session. -/
theorem contains_iff_of_view? {a : Nat} {v : Chip} (h : s.view? a = some v) (b : Nat) :
    s.Contains a b ↔ ∃ q ∈ v.parts, q.chip = b := by
  obtain ⟨d, hd, hv⟩ := Option.bind_eq_some_iff.1 h
  obtain ⟨qs, hqs, rfl⟩ := Option.map_eq_some_iff.1 hv
  rw [← mem_partChips, ← s.filterMap_resolved_partSlots, hd, Option.getD_some,
    map_chip_of_mapM_viewSlot? hqs]
  constructor
  · intro hb
    obtain ⟨slot, hslot, rfl⟩ := List.mem_map.1 hb
    exact ⟨slot.item, Numbered.mem_items hslot, rfl⟩
  · rintro ⟨q, hq, rfl⟩
    obtain ⟨slot, hslot, rfl⟩ := Numbered.exists_slot hq
    exact List.mem_map_of_mem hslot

/-! ## Copies mirror -/

theorem mirrors_of_copyPart {p : Part} {i : Instance} (h : copyPart order p = .ok i) :
    ∃ q, p.view? = some q ∧ i.Mirrors order q := by
  obtain ⟨link, hlink, horder, hwires⟩ := copyPart_eq_ok h
  have hspan : i.span = p.span := by
    unfold copyPart at h
    split at h
    · cases h
    · cases h
      rfl
  refine ⟨⟨link.chip, p.chip, p.wires, p.span⟩, by rw [Part.view?, Part.resolved, hlink]; rfl, ?_⟩
  exact ⟨name_of_copyPart h, hwires.trans (by rw [Part.wires, hlink]), hspan, horder⟩

theorem mirrors_of_copySlot {slot : Numbered Part} {part : Numbered Instance}
    (h : copySlot order slot = .ok part) :
    ∃ q, Part.viewSlot? slot = some q ∧ Instance.MirrorsSlot order part q := by
  obtain ⟨hindex, hpart⟩ := copySlot_eq_ok h
  obtain ⟨q, hq, hm⟩ := mirrors_of_copyPart hpart
  exact ⟨⟨slot.index, q⟩, by rw [Part.viewSlot?, hq]; rfl, hindex, hm⟩

theorem mirrors_of_copySlots {ps : List (Numbered Part)} {is : List (Numbered Instance)}
    (h : List.Forall₂ (fun p i => copySlot order p = .ok i) ps is) :
    ∃ qs, ps.mapM Part.viewSlot? = some qs ∧ List.Forall₂ (Instance.MirrorsSlot order) is qs := by
  induction h with
  | nil => exact ⟨[], rfl, .nil⟩
  | cons hp _ ih =>
    obtain ⟨q, hq, hm⟩ := mirrors_of_copySlot hp
    obtain ⟨qs, hqs, hall⟩ := ih
    exact ⟨q :: qs, by rw [List.mapM_cons, hq, hqs]; rfl, .cons hm hall⟩

theorem mirrors_of_copyChip {d : Definition} {c : Chip} (h : copyChip order d = .ok c) :
    ∃ v, d.view? = some v ∧ c.Mirrors order v := by
  obtain ⟨hpins, hgate, hparts⟩ := slots_of_copyChip h
  obtain ⟨qs, hqs, hall⟩ := mirrors_of_copySlots hparts
  refine ⟨_, by rw [Definition.view?, hqs]; rfl, name_of_copyChip h, ?_, hpins, hall⟩
  rw [← hgate]
  cases c.kind <;> rfl

/-! ## The list of chips met -/

theorem eraseDups_concat (xs : List Nat) (x : Nat) :
    (xs ++ [x]).eraseDups =
      if xs.eraseDups.contains x then xs.eraseDups else xs.eraseDups ++ [x] := by
  rw [List.eraseDups_append]
  by_cases h : x ∈ xs <;> simp [List.removeAll, h, List.eraseDups_cons]

theorem meetAll_eraseDups {name : String} {xs met : List Nat} {slots : List (Numbered Part)}
    (h : meetAll name xs.eraseDups slots = .ok met) :
    met = (xs ++ slots.filterMap (·.item.resolved)).eraseDups := by
  induction slots generalizing xs with
  | nil =>
    cases h
    simp
  | cons slot slots ih =>
    unfold meetAll at h
    split at h
    · cases h
    · next child hchild =>
      rw [← eraseDups_concat] at h
      have hcons : (slot :: slots).filterMap (·.item.resolved) =
          child :: slots.filterMap (·.item.resolved) :=
        List.filterMap_cons_some hchild
      rw [ih h, hcons, List.append_assoc]
      rfl

/-- What is met are the chips of the parts of the chips gone through, each once. -/
theorem reach_breadthFirst {fuel next : Nat} {met : List Nat}
    (h : s.reach fuel met next = .ok order)
    (hmet : met = (top :: (met.take next).flatMap s.partChips).eraseDups)
    (hfuel : order.length ≤ fuel + next) :
    order = (top :: order.flatMap s.partChips).eraseDups := by
  induction fuel generalizing met next with
  | zero =>
    cases h
    rwa [List.take_of_length_le (by omega)] at hmet
  | succ fuel ih =>
    unfold reach at h
    split at h
    · next hnone =>
      cases h
      rwa [List.take_of_length_le (List.getElem?_eq_none_iff.1 hnone)] at hmet
    · next id hid =>
      dsimp only at h
      split at h
      · cases h
      · next met' hmeet =>
        have hmet' : met' = (top :: (met.take next).flatMap s.partChips ++
            s.partChips id).eraseDups := by
          rw [← s.filterMap_resolved_partSlots id]
          exact meetAll_eraseDups (by rw [← hmet]; exact hmeet)
        have htake : met'.take (next + 1) = met.take next ++ [id] := by
          obtain ⟨more, rfl⟩ := (meetAll_spec hmeet).1
          have hlt := (List.getElem?_eq_some_iff.1 hid).1
          rw [List.take_append_of_le_length (by omega), List.take_add_one, hid]
          rfl
        refine ih h ?_ (by omega)
        rw [htake, List.flatMap_append, List.flatMap_singleton]
        exact hmet'

/-- What is met is inside. -/
theorem inside_of_reach {fuel next : Nat} {met : List Nat} (h : s.reach fuel met next = .ok order)
    (hmet : ∀ x ∈ met, s.Inside top x) : ∀ x ∈ order, s.Inside top x := by
  induction fuel generalizing met next with
  | zero =>
    cases h
    exact hmet
  | succ fuel ih =>
    unfold reach at h
    split at h
    · cases h
      exact hmet
    · next id hid =>
      dsimp only at h
      split at h
      · cases h
      · next met' hmeet =>
        refine ih h fun x hx => ?_
        rcases (meetAll_spec hmeet).2 x hx with hx | ⟨p, hp, hx⟩
        · exact hmet x hx
        · refine (hmet id (List.mem_of_getElem? hid)).tail (mem_partChips.1 ?_)
          rw [← s.filterMap_resolved_partSlots id]
          exact List.mem_filterMap.2 ⟨p, hp, hx⟩

/-! ## Frozen chips -/

/-- The netlist is what freezing the chip gives, and `order` is the list of chips met. -/
structure Frozen (s : Session) (top : Nat) (order : List Nat) (net : Netlist) : Prop where
  copies : s.Copies order net
  nodup : order.Nodup
  first : order[0]? = some top
  ordered : net.Ordered

theorem Sound.exists_frozen (hs : s.Sound) (h : (s.freeze top).1 = .ok (some net)) :
    ∃ order, (s.freeze top).2.Frozen top order net := by
  obtain ⟨hlink, hcopy⟩ := freeze_eq_some h
  obtain ⟨order, hreach, ⟨rest, rfl⟩, hcopies⟩ :=
    exists_reach_of_copyFrom hcopy (finished_of_link hs hlink)
  have hn := nodup_of_reach hreach (List.nodup_singleton top)
  rw [freeze_snd]
  exact ⟨_, hcopies, hn, rfl, hcopies.ordered hn hreach rfl⟩

namespace Frozen

/-- The chips would be met in this order in any session that holds them. -/
theorem reach_eq (h : s.Frozen top order net) : s.reach s.chips.size [top] 0 = .ok order := by
  obtain ⟨order', hreach, hall⟩ := reach_follows (Copies.biUnique h.nodup) h.copies.follows
    s.chips.size (.cons h.first .nil : List.Forall₂ _ [0] [top]) 0
  have hlen := length_le_of_finished h.nodup h.copies.finished
  rw [h.ordered.visit_eq (h.copies.size_eq ▸ hlen)] at hall
  have hlength : order'.length = order.length := by
    rw [← hall.length_eq, List.length_range, h.copies.size_eq]
  have hsame : order' = order := by
    refine List.ext_getElem hlength fun k hk hk' => ?_
    obtain ⟨i, hi, hx⟩ := getElem?_of_forall₂ hall (List.getElem?_eq_getElem hk)
    rw [List.getElem?_range (h.copies.size_eq ▸ hk'), Option.some.injEq] at hi
    subst hi
    rw [List.getElem?_eq_getElem hk', Option.some.injEq] at hx
    exact hx.symm
  rw [hreach, hsame]

theorem breadthFirst (h : s.Frozen top order net) :
    order = (top :: order.flatMap s.partChips).eraseDups := by
  have hlen := length_le_of_finished h.nodup h.copies.finished
  exact reach_breadthFirst h.reach_eq rfl (by omega)

theorem mem_iff (h : s.Frozen top order net) : x ∈ order ↔ s.Inside top x := by
  constructor
  · refine inside_of_reach h.reach_eq (fun y hy => ?_) x
    rw [List.mem_singleton.1 hy]
    exact .refl
  · intro hx
    induction hx with
    | refl => exact List.mem_of_getElem? h.first
    | @tail y z _ hyz ih =>
      rw [h.breadthFirst, List.mem_eraseDups]
      exact List.mem_cons_of_mem _ (List.mem_flatMap.2 ⟨y, ih, mem_partChips.2 hyz⟩)

/-- **A frozen netlist is a copy of what is inside the chip.** -/
theorem copyOf (h : s.Frozen top order net) : net.CopyOf s.view? s.Contains top order where
  top := h.copies.top
  first := h.first
  nodup := h.nodup
  size := h.copies.size_eq
  mem _ := h.mem_iff
  chip k x hx := by
    obtain ⟨c, hc⟩ := h.copies.chip?_of_mem_order hx
    obtain ⟨y, e, hy, -, he, hcopy⟩ := h.copies.entry hc
    rw [hx, Option.some.injEq] at hy
    subst hy
    obtain ⟨v, hv, hm⟩ := mirrors_of_copyChip hcopy
    exact ⟨c, v, hc, by rw [Session.view?, definition?_of_entry he]; exact hv, hm⟩

/-- A frozen netlist stays a copy, since linked chips do not change. -/
theorem later (h : s.Frozen top order net) (hl : Later s s') : s'.Frozen top order net where
  copies := by
    have hsame : ∀ x ∈ order, s'.definition? x = s.definition? x := by
      intro x hx
      cases h.copies.finished x hx with
      | @intro _ e entry status =>
        exact definition?_congr (hl.linked (by rw [status?_of_entry entry, status]))
    refine ⟨h.copies.top, fun x hx => (h.copies.finished x hx).mono fun _ => hl.linked, ?_⟩
    refine List.forall₂_iff_zip.2 ⟨h.copies.chips.length_eq, fun {x c} hxc => ?_⟩
    rw [hsame x (List.of_mem_zip hxc).1]
    exact List.forall₂_zip h.copies.chips hxc
  nodup := h.nodup
  first := h.first
  ordered := h.ordered

/-- **There is one netlist for a chip.** -/
theorem unique (h : s.Frozen top order net) (h' : s.Frozen top order' net') : net' = net := by
  have horder : order' = order := by
    have hreach := h'.reach_eq
    rw [h.reach_eq, Except.ok.injEq] at hreach
    exact hreach.symm
  subst horder
  have hchips : net'.chips.toList = net.chips.toList :=
    List.right_unique_forall₂' (fun _ _ _ hc hc' => Except.ok.inj (hc.symm.trans hc'))
      h'.copies.chips h.copies.chips
  obtain ⟨chips, top'⟩ := net
  obtain ⟨chips', top''⟩ := net'
  obtain rfl : top' = 0 := h.copies.top
  obtain rfl : top'' = 0 := h'.copies.top
  obtain rfl : chips' = chips := Array.toList_inj.1 hchips
  rfl

/-- A chip inside is frozen as a copy of a part of the netlist. -/
theorem part (h : s.Frozen top order net) (h' : s.Frozen x order' net') {i : Nat}
    (hi : order[i]? = some x) :
    ∃ positions, net'.CopyOf net.chip? net.Instantiates i positions :=
  h.copyOf.within (fun _ _ hv => contains_iff_of_view? hv) h'.copyOf hi

end Frozen

/-! ## Freezing in a session -/

theorem later_freeze (s : Session) (top : Nat) : Later s (s.freeze top).2 :=
  .single (.freeze s top)

/-- **Freezing makes a faithful copy.** The netlist is a copy of what is inside the frozen chip,
which comes first, in the order of the first use. Freezing the chip again at any later time gives
the same netlist. Freezing a chip inside it, later or before, gives a copy of what is inside that
chip's copy. -/
theorem Reachable.freeze_faithful (h : s.Reachable) (hf : (s.freeze top).1 = .ok (some net)) :
    ∃ order, net.CopyOf (s.freeze top).2.view? (s.freeze top).2.Contains top order ∧
      order = (top :: order.flatMap (s.freeze top).2.partChips).eraseDups ∧
      (∀ s', Later (s.freeze top).2 s' → ∀ net', (s'.freeze top).1 = .ok (some net') →
        net' = net) ∧
      ∀ i x : Nat, order[i]? = some x → ∀ (s' : Session) (net' : Netlist),
        (s'.freeze x).1 = .ok (some net') →
        Later (s.freeze top).2 s' ∨ s'.Reachable ∧ Later (s'.freeze x).2 s →
        ∃ positions, net'.CopyOf net.chip? net.Instantiates i positions := by
  obtain ⟨order, hfrozen⟩ := h.sound.exists_frozen hf
  refine ⟨order, hfrozen.copyOf, hfrozen.breadthFirst, fun s' hl net' hf' => ?_,
    fun i x hx s' net' hf' hwhen => ?_⟩
  · obtain ⟨order', hfrozen'⟩ := ((h.freeze top).later hl).sound.exists_frozen hf'
    exact (hfrozen.later (hl.trans (later_freeze s' top))).unique hfrozen'
  · rcases hwhen with hl | ⟨hr, hl⟩
    · obtain ⟨order', hfrozen'⟩ := ((h.freeze top).later hl).sound.exists_frozen hf'
      exact (hfrozen.later (hl.trans (later_freeze s' x))).part hfrozen' hx
    · obtain ⟨order', hfrozen'⟩ := hr.sound.exists_frozen hf'
      exact hfrozen.part (hfrozen'.later (hl.trans (later_freeze s top))) hx

/-- The crossed design is frozen, and then another chip that uses a chip of it. -/
def reused : Session :=
  let more := (crossed.freeze 0).2.addSource "Z.hdl" "CHIP Z\x7bIN x;OUT y;PARTS:K(x=x,y=y);\x7d"
  (more.2.freeze 3).2

theorem later_reused : Later (crossed.freeze 0).2 reused :=
  (Relation.ReflTransGen.single (.addSource _ _ _)).tail (.freeze _ _)

/-- The design is frozen again as it was, and the chip in the middle as a part of it. -/
theorem Reachable.freeze_faithful_crossed :
    (reused.freeze 0).1 = .ok (some crossedNet) ∧
      ∃ inner i positions, (reused.freeze 1).1 = .ok (some inner) ∧
        inner.CopyOf crossedNet.chip? crossedNet.Instantiates i positions := by
  have hruns : (reused.freeze 0).1.toOption.join.isSome ∧
      (reused.freeze 1).1.toOption.join.isSome ∧ (crossed.freeze 0).2.target? 0 0 = some 1 := by
    decide +kernel
  obtain ⟨hagain, hinner, htarget⟩ := hruns
  obtain ⟨order, hcopy, -, hsame, hinside⟩ := reachable_crossed.freeze_faithful freeze_crossed
  obtain ⟨net', hnet'⟩ := exists_netlist_of_isSome hagain
  obtain ⟨inner, hinner⟩ := exists_netlist_of_isSome hinner
  have hmem : 1 ∈ order := (hcopy.mem 1).2 (.single ⟨0, htarget⟩)
  obtain ⟨i, hi⟩ := List.mem_iff_getElem?.1 hmem
  obtain ⟨positions, hpart⟩ := hinside i 1 hi reused inner hinner (.inl later_reused)
  exact ⟨hsame reused later_reused net' hnet' ▸ hnet', inner, i, positions, hinner, hpart⟩

end Session

end ChipLogic
