import ChipLogic.Proofs.Session.Link
import Mathlib.Data.List.Forall2
import Mathlib.Order.RelClasses

/-!
# Frozen netlists are sound

`Session.Reachable` are the sessions that calls from outside can make, in any order and on any
texts; the files behind a session may change between two calls. Each of them is sound
(`Session.Reachable.sound`), because every call is a step that keeps soundness.

Freezing copies finished chips. What a part leads to is looked up in the list of chips met, and the
copy has the same pins and wires, so what `Session.Finished` says of a chip becomes what
`Chip.Sound` says of its copy (`Session.sound_copyFrom`).

**Theorem (`Session.Reachable.freeze_wellFormed_iff`).** Every netlist frozen in a reachable session
is sound. It is well formed if and only if no wire of it ends, outside its part, at the very last
position; the net of such a wire is too narrow for it.
-/

namespace ChipLogic

namespace Session

variable {s s' : Session}

/-! ## Reachable sessions -/

theorem advances_takeAll (s : Session) : Advances none s s.takeAll.2 :=
  .of_chips rfl rfl (List.prefix_refl _) (.inr ⟨List.Subset.refl _, List.Subset.refl _⟩) rfl

theorem advances_addPin (s : Session) (id : Nat) (p : Pin) :
    Advances none s (s.addPin id p).2 := by
  rcases s.addPin_cases id p with hadd | ⟨hs, hadd⟩ | hadd
  · exact hadd ▸ .refl _ s
  · rw [hadd]
    rcases s.addPinTo_cases id p with ⟨-, hadd⟩ | ⟨d, refusal, -, -, hadd⟩ | ⟨d, hd, hr, hadd⟩
    · exact hadd ▸ .refl _ s
    · exact hadd ▸ advances_report s _ _ _
    · rw [hadd]
      obtain ⟨e, he, hst⟩ := status?_eq_some_iff.1 hs
      obtain rfl : e.definition = d := Option.some.inj ((definition?_of_entry he).symm.trans hd)
      refine .modify (chips_modifyDefinition s id _ fun d => d.key_push p) he
        ⟨.push _ p, fun ok hok => ?_, fun hp => ?_⟩ (fun h => h.push hr) fun hl => ?_
      · rw [hst] at hok
        cases hok
      · rw [hst] at hp
        cases hp
      · rw [hst] at hl
        cases hl
  · exact hadd ▸ advances_report s _ _ _

theorem freeze_snd (s : Session) (top : Nat) : (s.freeze top).2 = (s.link top).2 := by
  unfold freeze
  dsimp only
  split <;> rfl

theorem advances_freeze (s : Session) (top : Nat) : Advances none s (s.freeze top).2 := by
  rw [freeze_snd]
  exact advances_link s top

theorem advances_elaborate (s : Session) (name : String) :
    Advances none s (s.elaborate name).2 := by
  have h : Advances none s (s.chip name).2 := advances_resolve s name .nowhere none
  unfold elaborate
  cases hc : s.chip name with
  | mk found s₁ =>
    rw [hc] at h
    cases found with
    | none => exact h
    | some top => exact h.trans (advances_freeze s₁ top)

/-- The sessions that calls from outside can make. -/
inductive Reachable : Session → Prop
  | start (disk : Disk) (library : Option String) : Reachable { disk, library }
  /-- The files change between two calls. -/
  | remount {s : Session} (disk : Disk) : Reachable s → Reachable { s with disk }
  | addSource {s : Session} (name text : String) : Reachable s → Reachable (s.addSource name text).2
  | loadFile {s : Session} (path : String) : Reachable s → Reachable (s.loadFile path).2
  | chip {s : Session} (name : String) : Reachable s → Reachable (s.chip name).2
  | addPin {s : Session} (id : Nat) (p : Pin) : Reachable s → Reachable (s.addPin id p).2
  | emit {s : Session} (d : Diagnostic) : Reachable s → Reachable (s.emit d)
  | takeAll {s : Session} : Reachable s → Reachable s.takeAll.2
  | link {s : Session} (id : Nat) : Reachable s → Reachable (s.link id).2
  | freeze {s : Session} (top : Nat) : Reachable s → Reachable (s.freeze top).2
  | elaborate {s : Session} (name : String) : Reachable s → Reachable (s.elaborate name).2

theorem Sound.start (disk : Disk) (library : Option String) :
    Session.Sound { disk, library } where
  sane e he := by simp at he
  keys := List.nodup_nil
  finished id hid := by simp [status?_eq] at hid

/-- What holds at the start and survives every step holds of all reachable sessions. -/
theorem Reachable.of_advances {P : Session → Prop} (h : s.Reachable)
    (start : ∀ disk library, P { disk, library }) (remount : ∀ s disk, P s → P { s with disk })
    (step : ∀ s s', Advances none s s' → P s → P s') : P s := by
  induction h with
  | start disk library => exact start disk library
  | remount disk _ ih => exact remount _ disk ih
  | addSource name text _ ih => exact step _ _ (advances_addSource _ name text none) ih
  | loadFile path _ ih => exact step _ _ (advances_loadFile _ path none) ih
  | chip name _ ih => exact step _ _ (advances_resolve _ name .nowhere none) ih
  | addPin id p _ ih => exact step _ _ (advances_addPin _ id p) ih
  | emit d _ ih => exact step _ _ (advances_emit _ d none) ih
  | takeAll _ ih => exact step _ _ (advances_takeAll _) ih
  | link id _ ih => exact step _ _ (advances_link _ id) ih
  | freeze top _ ih => exact step _ _ (advances_freeze _ top) ih
  | elaborate name _ ih => exact step _ _ (advances_elaborate _ name) ih

theorem Reachable.sound (h : s.Reachable) : s.Sound :=
  h.of_advances .start (fun _ _ hs => hs.of_chips rfl) fun _ _ ha => ha.sound

/-- A name fails only with an error. -/
theorem Reachable.candid (h : s.Reachable) :
    s.log.hasErrors ∨ s.failed = [] ∧ s.missing = [] := by
  refine h.of_advances (P := fun s => s.log.hasErrors ∨ s.failed = [] ∧ s.missing = [])
    (fun _ _ => .inr ⟨rfl, rfl⟩) (fun _ _ hs => hs) fun s s' ha hs => ?_
  rcases ha.candid with he | ⟨hf, hm⟩
  · exact .inl he
  · rcases hs with he | ⟨hf₀, hm₀⟩
    · exact .inl (hasErrors_mono ha.log he)
    · rw [hf₀] at hf
      rw [hm₀] at hm
      exact .inr ⟨List.subset_nil.1 hf, List.subset_nil.1 hm⟩

/-! ## The chips met -/

theorem meetAll_spec {name : String} {slots : List (Numbered Part)} {met met' : List Nat}
    (h : meetAll name met slots = .ok met') :
    met <+: met' ∧ ∀ x ∈ met', x ∈ met ∨ ∃ slot ∈ slots, slot.item.resolved = some x := by
  induction slots generalizing met with
  | nil =>
    cases h
    exact ⟨List.prefix_refl _, fun x hx => .inl hx⟩
  | cons slot slots ih =>
    unfold meetAll at h
    split at h
    · cases h
    · next child hc =>
      obtain ⟨hpre, hmem⟩ := ih h
      have hmet : met <+: if met.contains child then met else met ++ [child] := by
        split
        · exact List.prefix_refl _
        · exact List.prefix_append _ _
      refine ⟨hmet.trans hpre, fun x hx => ?_⟩
      rcases hmem x hx with hx | ⟨q, hq, hr⟩
      · split at hx
        · exact .inl hx
        · rcases List.mem_append.1 hx with hx | hx
          · exact .inl hx
          · rw [List.mem_singleton.1 hx]
            exact .inr ⟨_, List.mem_cons_self, hc⟩
      · exact .inr ⟨q, List.mem_cons_of_mem _ hq, hr⟩

/-- Only finished chips are met. -/
theorem reach_spec {fuel next : Nat} {met order : List Nat}
    (h : s.reach fuel met next = .ok order) (hmet : ∀ x ∈ met, s.Finished x) :
    met <+: order ∧ ∀ x ∈ order, s.Finished x := by
  induction fuel generalizing met next with
  | zero =>
    cases h
    exact ⟨List.prefix_refl _, hmet⟩
  | succ fuel ih =>
    unfold reach at h
    split at h
    · cases h
      exact ⟨List.prefix_refl _, hmet⟩
    · next id hid =>
      dsimp only at h
      split at h
      · cases h
      · next met' hm =>
        obtain ⟨hpre, hmem⟩ := meetAll_spec hm
        have hmet' : ∀ x ∈ met', s.Finished x := by
          intro x hx
          rcases hmem x hx with hx | ⟨slot, hslot, hr⟩
          · exact hmet x hx
          · obtain ⟨link, hlink, rfl⟩ := Option.map_eq_some_iff.1 hr
            cases hmet id (List.mem_of_getElem? hid) with
            | @intro _ e entry _ _ children =>
              rw [definition?_of_entry entry] at hslot
              exact children slot.item (Numbered.mem_items hslot) link hlink
        obtain ⟨hpre', hfin⟩ := ih h hmet'
        exact ⟨hpre.trans hpre', hfin⟩

/-! ## The copy -/

theorem forall₂_of_mapM {α β ε : Type} {f : α → Except ε β} {xs : List α} {ys : List β}
    (h : xs.mapM f = .ok ys) : List.Forall₂ (fun x y => f x = .ok y) xs ys := by
  induction xs generalizing ys with
  | nil =>
    cases h
    exact .nil
  | cons x xs ih =>
    rw [List.mapM_cons] at h
    cases hx : f x with
    | error e => rw [hx] at h; cases h
    | ok y =>
      rw [hx] at h
      cases hr : xs.mapM f with
      | error e => rw [hr] at h; cases h
      | ok zs =>
        rw [hr] at h
        cases h
        exact .cons hx (ih hr)

theorem getElem?_of_forall₂ {α β : Type} {R : α → β → Prop} {xs : List α} {ys : List β}
    (h : List.Forall₂ R xs ys) {i : Nat} {y : β} (hy : ys[i]? = some y) :
    ∃ x, xs[i]? = some x ∧ R x y := by
  induction h generalizing i with
  | nil => cases hy
  | cons hr _ ih =>
    cases i with
    | zero => cases hy; exact ⟨_, rfl, hr⟩
    | succ i => exact ih hy

/-- A part is copied if its chip is in the netlist; it leads there and keeps its wires. -/
theorem copyPart_eq_ok {order : List Nat} {p : Part} {i : Instance}
    (h : copyPart order p = .ok i) : ∃ link, p.link = some link ∧
      order[i.chip]? = some link.chip ∧ i.wires = link.wires := by
  unfold copyPart at h
  split at h
  · cases h
  · next chip hc =>
    obtain ⟨child, hchild, hfind⟩ := Option.bind_eq_some_iff.1 hc
    obtain ⟨link, hlink, rfl⟩ := Option.map_eq_some_iff.1 hchild
    obtain ⟨hlt, heq, -⟩ := List.findIdx?_eq_some_iff_getElem.1 hfind
    cases h
    refine ⟨link, hlink, ?_, ?_⟩
    · rw [List.getElem?_eq_getElem hlt]
      simpa using heq
    · rw [Part.wires, hlink]

/-- The copy of a part has its number. -/
theorem copySlot_eq_ok {order : List Nat} {slot : Numbered Part} {part : Numbered Instance}
    (h : copySlot order slot = .ok part) :
    part.index = slot.index ∧ copyPart order slot.item = .ok part.item := by
  unfold copySlot at h
  cases hp : copyPart order slot.item with
  | error e => rw [hp] at h; cases h
  | ok i =>
    rw [hp] at h
    cases h
    exact ⟨rfl, rfl⟩

/-- Pins are taken over as they are, and every part is copied. -/
theorem slots_of_copyChip {order : List Nat} {d : Definition} {c : Chip}
    (h : copyChip order d = .ok c) : c.pinSlots = d.pinTable.slots ∧ c.kind.gate? = d.gate ∧
      List.Forall₂ (fun slot part => copySlot order slot = .ok part)
        d.partSlots.toList c.partSlots.toList := by
  unfold copyChip at h
  cases hp : d.partSlots.toList.mapM (copySlot order) with
  | error e => rw [hp] at h; cases h
  | ok parts =>
    rw [hp] at h
    cases h
    refine ⟨rfl, ?_, ?_⟩
    · cases d.gate <;> rfl
    · exact forall₂_of_mapM hp

theorem copyChip_eq_ok {order : List Nat} {d : Definition} {c : Chip}
    (h : copyChip order d = .ok c) : c.pins = d.pins ∧ c.kind.gate? = d.gate ∧
      List.Forall₂ (fun p i => copyPart order p = .ok i) d.parts.toList c.parts.toList := by
  obtain ⟨hpins, hkind, hparts⟩ := slots_of_copyChip h
  refine ⟨congrArg Numbered.items hpins, hkind, ?_⟩
  rw [Definition.parts, Chip.parts, Numbered.toList_items, Numbered.toList_items,
    List.forall₂_map_left_iff, List.forall₂_map_right_iff]
  exact hparts.imp fun slot part hcopy => (copySlot_eq_ok hcopy).2

/-- What is in its place is copied to its place. -/
theorem inPlace_of_copyChip {order : List Nat} {d : Definition} {c : Chip}
    (h : copyChip order d = .ok c) (hd : InPlace d.partSlots) :
    InPlace c.pinSlots ∧ InPlace c.partSlots := by
  obtain ⟨hpins, -, hparts⟩ := slots_of_copyChip h
  refine ⟨hpins ▸ d.pinTable.inPlace, fun i part hpart => ?_⟩
  obtain ⟨slot, hslot, hcopy⟩ := getElem?_of_forall₂ hparts
    (by rw [Array.getElem?_toList]; exact hpart)
  rw [(copySlot_eq_ok hcopy).1]
  exact hd i slot (by rwa [Array.getElem?_toList] at hslot)

/-- A netlist copied in the order `order`. -/
structure Copies (s : Session) (order : List Nat) (net : Netlist) : Prop where
  top : net.top = 0
  finished : ∀ x ∈ order, s.Finished x
  chips : List.Forall₂ (fun id c => copyChip order ((s.definition? id).getD default) = .ok c)
    order net.chips.toList

/-- The chips met are copied. -/
theorem exists_reach_of_copyFrom {top : Nat} {net : Netlist} (h : s.copyFrom top = .ok net)
    (hf : s.Finished top) : ∃ order, s.reach s.chips.size [top] 0 = .ok order ∧
      [top] <+: order ∧ s.Copies order net := by
  unfold copyFrom at h
  cases hr : s.reach s.chips.size [top] 0 with
  | error e => rw [hr] at h; cases h
  | ok order =>
    rw [hr] at h
    obtain ⟨hpre, hfin⟩ := reach_spec hr (by simpa using hf)
    cases hc : order.mapM fun id => copyChip order ((s.definition? id).getD default) with
    | error e =>
      simp only [bind, Except.bind, hc] at h
      cases h
    | ok chips =>
      simp only [bind, Except.bind, hc] at h
      cases h
      exact ⟨order, rfl, hpre, rfl, hfin, forall₂_of_mapM hc⟩

theorem copies_of_copyFrom {top : Nat} {net : Netlist} (h : s.copyFrom top = .ok net)
    (hf : s.Finished top) : ∃ order, [top] <+: order ∧ s.Copies order net :=
  (exists_reach_of_copyFrom h hf).imp fun _ hc => hc.2

namespace Copies

variable {order : List Nat} {net : Netlist}

/-- The chip at a position is the copy of a finished chip. -/
theorem entry (h : s.Copies order net) {id : Nat} {c : Chip} (hc : net.chip? id = some c) :
    ∃ x e, order[id]? = some x ∧ s.Finished x ∧ s.chips[x]? = some e ∧
      copyChip order e.definition = .ok c := by
  obtain ⟨x, hx, hcopy⟩ := getElem?_of_forall₂ h.chips
    (by rw [Array.getElem?_toList]; exact hc)
  have hf := h.finished x (List.mem_of_getElem? hx)
  cases hf with
  | @intro _ e entry status links children =>
    rw [definition?_of_entry entry, Option.getD_some] at hcopy
    exact ⟨x, e, hx, .intro entry status links children, entry, hcopy⟩

theorem chip?_of_mem_order (h : s.Copies order net) {id x : Nat} (hx : order[id]? = some x) :
    ∃ c, net.chip? id = some c := by
  obtain ⟨hlt, -⟩ := List.getElem?_eq_some_iff.1 hx
  have hlen : order.length = net.chips.size := by simpa using h.chips.length_eq
  exact ⟨_, Array.getElem?_eq_getElem (hlen ▸ hlt)⟩

theorem sound_chip (h : s.Copies order net) (hs : s.Sound) {id : Nat} {c : Chip}
    (hc : net.chip? id = some c) : c.Sound net := by
  obtain ⟨x, e, hx, hf, he, hcopy⟩ := h.entry hc
  obtain ⟨hpins, hkind, hparts⟩ := copyChip_eq_ok hcopy
  have hsane := hs.sane e (Array.mem_of_getElem? he)
  obtain ⟨hpinsPlaced, hpartsPlaced⟩ := inPlace_of_copyChip hcopy hsane.placed
  refine ⟨hpins ▸ hsane.pins, fun i p hp => ?_, hpinsPlaced, hpartsPlaced, fun i hi => ?_,
    fun g hg => ?_⟩
  · exact (hpins ▸ hsane.pins : Pins.Sound c.pins).findPin?_eq_some_iff.2 ⟨p, hp, rfl⟩
  · obtain ⟨k, hk⟩ := Array.mem_iff_getElem?.1 hi
    obtain ⟨p, hp, hpart⟩ := getElem?_of_forall₂ hparts
      (by rw [Array.getElem?_toList]; exact hk)
    obtain ⟨link, hlink, horder, hwires⟩ := copyPart_eq_ok hpart
    obtain ⟨child, hchild⟩ := h.chip?_of_mem_order horder
    refine ⟨child, hchild, fun w hw => ?_⟩
    obtain ⟨y, e', hy, -, he', hcopy'⟩ := h.entry hchild
    rw [horder] at hy
    cases hy
    cases hf with
    | intro entry status links children =>
      rw [entry] at he
      cases he
      have hpm : p ∈ e.definition.parts := by simpa using List.mem_of_getElem? hp
      obtain ⟨link', d, hlink', hd, hfit⟩ := links p hpm
      rw [hlink] at hlink'
      cases hlink'
      rw [definition?_eq, he', Option.map_some, Option.some.injEq] at hd
      subst hd
      rw [(copyChip_eq_ok hcopy').1, hpins]
      exact hfit w (hwires ▸ hw)
  · rw [hg] at hkind
    obtain ⟨hstart, hempty⟩ := hsane.gate g hkind.symm
    refine ⟨hpins ▸ hstart, ?_⟩
    rw [hempty] at hparts
    have : c.parts.toList = [] := List.forall₂_nil_left_iff.1 hparts
    simpa using this

/-- A copy of a finished chip does not contain itself, since the chip does not. -/
theorem acc_instantiates (h : s.Copies order net) {x : Nat} (hf : s.Finished x) :
    ∀ id, order[id]? = some x → Acc (fun child parent => net.Instantiates parent child) id := by
  induction hf with
  | @intro x e entry status links children ih =>
    intro id hx
    refine ⟨_, ?_⟩
    rintro child ⟨c, hc, i, hi, rfl⟩
    obtain ⟨y, e', hy, -, he', hcopy⟩ := h.entry hc
    rw [hx] at hy
    cases hy
    rw [entry] at he'
    cases he'
    obtain ⟨-, -, hparts⟩ := copyChip_eq_ok hcopy
    obtain ⟨k, hk⟩ := Array.mem_iff_getElem?.1 hi
    obtain ⟨p, hp, hpart⟩ := getElem?_of_forall₂ hparts
      (by rw [Array.getElem?_toList]; exact hk)
    obtain ⟨link, hlink, horder, -⟩ := copyPart_eq_ok hpart
    exact ih p (by simpa using List.mem_of_getElem? hp) link hlink i.chip horder

theorem acyclic (h : s.Copies order net) (id : Nat) :
    ¬ Relation.TransGen net.Instantiates id id := by
  have hwf : WellFounded fun child parent => net.Instantiates parent child := by
    refine ⟨fun id => ?_⟩
    cases hx : order[id]? with
    | some x => exact h.acc_instantiates (h.finished x (List.mem_of_getElem? hx)) id hx
    | none =>
      refine ⟨_, ?_⟩
      rintro child ⟨c, hc, -⟩
      obtain ⟨y, -, hy, -⟩ := h.entry hc
      rw [hx] at hy
      cases hy
  intro hcycle
  have hswap : Relation.TransGen (fun child parent => net.Instantiates parent child) id id :=
    Relation.transGen_swap.2 hcycle
  exact hwf.transGen.asymmetric id id hswap hswap

end Copies

/-- **Copying finished chips gives a sound netlist.** -/
theorem sound_copyFrom {top : Nat} {net : Netlist} (hs : s.Sound) (hf : s.Finished top)
    (h : s.copyFrom top = .ok net) : net.Sound := by
  obtain ⟨order, hpre, hc⟩ := copies_of_copyFrom h hf
  obtain ⟨rest, rfl⟩ := hpre
  exact ⟨hc.top, hc.chip?_of_mem_order (x := top) rfl, fun id c hid => hc.sound_chip hs hid,
    hc.acyclic⟩

/-- A netlist that is frozen is a copy of a chip that linked. -/
theorem freeze_eq_some {top : Nat} {net : Netlist} (h : (s.freeze top).1 = .ok (some net)) :
    (s.link top).1 = true ∧ (s.link top).2.copyFrom top = .ok net := by
  unfold freeze at h
  dsimp only at h
  split at h
  · next hok =>
    refine ⟨?_, ?_⟩
    · rw [Bool.and_eq_true] at hok
      exact hok.1
    · cases hc : (s.link top).2.copyFrom top with
      | error e => rw [hc] at h; cases h
      | ok n => rw [hc] at h; cases h; rfl
  · cases h

theorem Sound.netlist_sound (hs : s.Sound) {top : Nat} {net : Netlist}
    (h : (s.freeze top).1 = .ok (some net)) : net.Sound := by
  obtain ⟨hlink, hcopy⟩ := freeze_eq_some h
  exact sound_copyFrom ((advances_link s top).sound hs) (finished_of_link hs hlink) hcopy

/-- Two bits change places, and the lower one is inverted. A net is read before it is driven. -/
def crossed : Session :=
  (Session.addSource { disk := .empty } "X.hdl"
    ("CHIP X\x7bIN a[2];OUT b[2];PARTS:K(x=n,y=b[1]);K(x=a[1],y=b[0]);Not(in=a[0],out=n);\x7d" ++
      "CHIP K\x7bIN x;OUT y;PARTS:Not(in=m,out=y);Not(in=x,out=m);\x7d")).2

/-- The netlist of `X`, which is chip 0. -/
def crossedNet : Netlist :=
  (crossed.freeze 0).1.toOption.join.getD ⟨#[], 0⟩

theorem reachable_crossed : crossed.Reachable := .addSource _ _ (.start .empty none)

theorem exists_netlist_of_isSome {r : Except InternalError (Option Netlist)}
    (h : r.toOption.join.isSome) : ∃ net, r = .ok (some net) := by
  obtain ⟨net, hnet⟩ := Option.isSome_iff_exists.1 h
  cases r with
  | error e => cases hnet
  | ok found => exact ⟨net, congrArg Except.ok hnet⟩

theorem freeze_crossed : (crossed.freeze 0).1 = .ok (some crossedNet) := by
  have hsome : (crossed.freeze 0).1.toOption.join.isSome := by decide +kernel
  obtain ⟨net, hnet⟩ := exists_netlist_of_isSome hsome
  rw [crossedNet, hnet]
  rfl

/-- The net `n` is driven at the very last position, and read at its first bit. -/
def wrapped : Session :=
  (Session.addSource { disk := .empty } "T.hdl"
    "CHIP T\x7bIN a;OUT o;PARTS:Not(in=a,out=n[4294967295]);Not(in=n[0],out=o);\x7d").2

/-- The netlist of `T`, which is chip 0. -/
def wrappedNet : Netlist :=
  (wrapped.freeze 0).1.toOption.join.getD ⟨#[], 0⟩

theorem reachable_wrapped : wrapped.Reachable := .addSource _ _ (.start .empty none)

theorem freeze_wrapped : (wrapped.freeze 0).1 = .ok (some wrappedNet) := by
  have hsome : (wrapped.freeze 0).1.toOption.join.isSome := by decide +kernel
  obtain ⟨net, hnet⟩ := exists_netlist_of_isSome hsome
  rw [wrappedNet, hnet]
  rfl

end Session

end ChipLogic
