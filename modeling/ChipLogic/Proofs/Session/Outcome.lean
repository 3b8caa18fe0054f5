import ChipLogic.Proofs.Session.Later
import Mathlib.Data.List.Perm.Subperm

/-!
# What freezing comes to

Freezing ends in one of two ways (`Session.Conclusive`): with a netlist and no error in the log, or
with no netlist and an error.

**Never a broken promise.** Every part of a finished chip has a chip, so going from chip to chip
(`Session.reach`) never stops at a part without one. A chip is met at most once, so as many steps as
there are chips are enough to go through all that are met (`Session.reach_ok`). The chip of each
part is then in the list, and the part is copied (`Session.Finished.exists_copyFrom`).

**Never in silence.** Where there is no netlist, a name led nowhere or a chip did not link, and that
has left an error behind (`Session.Answers`). Errors stay in the log, so from then on nothing is
frozen.

**Theorem (`Session.Reachable.no_silent_failure`).** In a reachable session every freeze of a
registered chip and every elaboration of a name is conclusive; whatever does not resolve or link has
left an error behind; and after an error no freeze gives a netlist.
-/

namespace ChipLogic

namespace Session

variable {s s' : Session} {id : Nat}

/-! ## The chips met -/

/-- The chip of each part of a chip has been met. -/
def Expanded (s : Session) (met : List Nat) (id : Nat) : Prop :=
  ∀ d, s.definition? id = some d → ∀ p ∈ d.parts, ∃ child ∈ met, p.resolved = some child

/-- A chip that is met for the second time is not added again. -/
theorem nodup_meet {met : List Nat} (hn : met.Nodup) (child : Nat) :
    (if met.contains child then met else met ++ [child]).Nodup ∧
      child ∈ if met.contains child then met else met ++ [child] := by
  split
  · next hin => exact ⟨hn, by simpa using hin⟩
  · next hout =>
    have hfresh : ∀ x ∈ met, x ≠ child := by
      rintro x hx rfl
      exact hout (by simpa using hx)
    refine ⟨List.nodup_append.2 ⟨hn, List.pairwise_singleton _ _, ?_⟩, by simp⟩
    simpa using hfresh

/-- Where every part has a chip, all chips of parts are met, each once. -/
theorem meetAll_ok (name : String) {met : List Nat} {slots : List (Numbered Part)}
    (h : ∀ slot ∈ slots, ∃ child, slot.item.resolved = some child) (hn : met.Nodup) :
    ∃ met', meetAll name met slots = .ok met' ∧ met'.Nodup ∧
      ∀ slot ∈ slots, ∃ child ∈ met', slot.item.resolved = some child := by
  induction slots generalizing met with
  | nil => exact ⟨met, rfl, hn, fun p hp => by cases hp⟩
  | cons slot slots ih =>
    obtain ⟨child, hchild⟩ := h slot List.mem_cons_self
    have hps : ∀ q ∈ slots, ∃ child, q.item.resolved = some child :=
      fun q hq => h q (List.mem_cons_of_mem _ hq)
    obtain ⟨hnext, hmem⟩ := nodup_meet hn child
    obtain ⟨met', hmeet, hn', hall⟩ := ih hps hnext
    have hpre := (meetAll_spec hmeet).1
    refine ⟨met', ?_, hn', fun q hq => ?_⟩
    · rw [meetAll, hchild]
      exact hmeet
    · rcases List.mem_cons.1 hq with rfl | hq
      · exact ⟨child, hpre.subset hmem, hchild⟩
      · exact hall q hq

theorem Finished.exists_entry (h : s.Finished id) : ∃ e, s.chips[id]? = some e ∧
    ∀ p ∈ e.definition.parts, ∃ child, p.resolved = some child ∧ s.Finished child := by
  cases h with
  | intro entry status links children =>
    refine ⟨_, entry, fun p hp => ?_⟩
    obtain ⟨link, -, hlink, -⟩ := links p hp
    exact ⟨link.chip, by rw [Part.resolved, hlink]; rfl, children p hp link hlink⟩

theorem Finished.lt_size (h : s.Finished id) : id < s.chips.size := by
  obtain ⟨e, he, -⟩ := h.exists_entry
  exact (Array.getElem?_eq_some_iff.1 he).1

/-- Finished chips without repetition are not more than there are chips. -/
theorem length_le_of_finished {met : List Nat} (hn : met.Nodup) (hmet : ∀ x ∈ met, s.Finished x) :
    met.length ≤ s.chips.size := by
  have hsub : met ⊆ List.range s.chips.size :=
    fun x hx => List.mem_range.2 (hmet x hx).lt_size
  simpa using (List.subperm_of_subset hn hsub).length_le

/-- Going through a finished chip. -/
theorem Finished.meetAll {d : Definition} (h : s.Finished id) (hd : s.definition? id = some d)
    {met : List Nat} (hn : met.Nodup) (hmet : ∀ x ∈ met, s.Finished x) :
    ∃ met', Session.meetAll d.name met d.partSlots.toList = .ok met' ∧ met <+: met' ∧
      met'.Nodup ∧ (∀ x ∈ met', s.Finished x) ∧ s.Expanded met' id := by
  obtain ⟨e, he, hparts⟩ := h.exists_entry
  rw [definition?_of_entry he, Option.some.injEq] at hd
  subst hd
  have hpart : ∀ slot ∈ e.definition.partSlots.toList, ∃ child,
      slot.item.resolved = some child ∧ s.Finished child :=
    fun slot hslot => hparts slot.item (Numbered.mem_items hslot)
  obtain ⟨met', hmeet, hn', hall⟩ := meetAll_ok e.definition.name
    (fun slot hslot => (hpart slot hslot).imp fun _ hc => hc.1) hn
  obtain ⟨hpre, hmem⟩ := meetAll_spec hmeet
  refine ⟨met', hmeet, hpre, hn', fun x hx => ?_, fun d' hd' p hp => ?_⟩
  · rcases hmem x hx with hx | ⟨slot, hslot, hr⟩
    · exact hmet x hx
    · obtain ⟨child, hchild, hfin⟩ := hpart slot hslot
      rw [hr, Option.some.injEq] at hchild
      exact hchild ▸ hfin
  · rw [definition?_of_entry he, Option.some.injEq] at hd'
    subst hd'
    obtain ⟨slot, hslot, rfl⟩ := Numbered.exists_slot hp
    exact hall slot hslot

theorem expanded_of_length_le {next : Nat} {met : List Nat} (hle : met.length ≤ next)
    (hdone : ∀ i < next, ∀ x, met[i]? = some x → s.Expanded met x) :
    ∀ x ∈ met, s.Expanded met x := by
  intro x hx
  obtain ⟨i, hlt, hi⟩ := List.mem_iff_getElem.1 hx
  exact hdone i (by omega) x (List.getElem?_eq_some_iff.2 ⟨hlt, hi⟩)

theorem Expanded.mono {met met' : List Nat} (h : s.Expanded met id) (hsub : met ⊆ met') :
    s.Expanded met' id := fun d hd p hp => (h d hd p hp).imp fun _ hc => ⟨hsub hc.1, hc.2⟩

/-- **All chips inside are met.** What comes before `next` has been gone through. -/
theorem reach_ok {fuel next : Nat} {met : List Nat} (hn : met.Nodup)
    (hmet : ∀ x ∈ met, s.Finished x) (hfuel : s.chips.size ≤ fuel + next)
    (hdone : ∀ i < next, ∀ x, met[i]? = some x → s.Expanded met x) :
    ∃ order, s.reach fuel met next = .ok order ∧ ∀ x ∈ order, s.Expanded order x := by
  induction fuel generalizing met next with
  | zero =>
    have hle := length_le_of_finished hn hmet
    exact ⟨met, rfl, expanded_of_length_le (by omega) hdone⟩
  | succ fuel ih =>
    unfold reach
    cases hx : met[next]? with
    | none => exact ⟨met, rfl, expanded_of_length_le (List.getElem?_eq_none_iff.1 hx) hdone⟩
    | some x =>
      obtain ⟨hlt, -⟩ := List.getElem?_eq_some_iff.1 hx
      have hfin := hmet x (List.mem_of_getElem? hx)
      obtain ⟨e, he, -⟩ := hfin.exists_entry
      have hd := definition?_of_entry he
      obtain ⟨met', hmeet, hpre, hn', hmet', hexp⟩ := hfin.meetAll hd hn hmet
      dsimp only
      rw [hd, Option.getD_some, hmeet]
      refine ih hn' hmet' (by omega) fun i hi y hy => ?_
      have hy' : met[i]? = some y := by
        rw [← hy, List.prefix_iff_getElem?.1 hpre i (by omega), List.getElem?_eq_getElem]
      rcases Nat.lt_succ_iff_lt_or_eq.1 hi with hi | rfl
      · exact (hdone i hi y hy').mono hpre.subset
      · rw [hx] at hy'
        cases hy'
        exact hexp

/-! ## The copy -/

theorem mapM_ok {α β ε : Type} {f : α → Except ε β} {xs : List α}
    (h : ∀ x ∈ xs, ∃ y, f x = .ok y) : ∃ ys, xs.mapM f = .ok ys := by
  induction xs with
  | nil => exact ⟨[], rfl⟩
  | cons x xs ih =>
    obtain ⟨y, hy⟩ := h x List.mem_cons_self
    obtain ⟨ys, hys⟩ := ih fun x' hx' => h x' (List.mem_cons_of_mem _ hx')
    exact ⟨y :: ys, by rw [List.mapM_cons, hy, hys]; rfl⟩

/-- A part of a chip in the netlist is copied. -/
theorem copyPart_ok {order : List Nat} {p : Part} {child : Nat} (hp : p.resolved = some child)
    (hc : child ∈ order) : ∃ i, copyPart order p = .ok i := by
  have hfind : (order.findIdx? (· == child)).isSome := by
    rw [List.findIdx?_isSome, List.any_eq_true]
    exact ⟨child, hc, beq_self_eq_true child⟩
  obtain ⟨i, hi⟩ := Option.isSome_iff_exists.1 hfind
  refine ⟨⟨i, p.chip, p.wires, p.span⟩, ?_⟩
  unfold copyPart
  rw [hp, Option.bind_some, hi]

theorem copyChip_ok {order : List Nat} {d : Definition} (hd : s.definition? id = some d)
    (h : s.Expanded order id) : ∃ c, copyChip order d = .ok c := by
  have hslots : ∀ slot ∈ d.partSlots.toList, ∃ part, copySlot order slot = .ok part := by
    intro slot hslot
    obtain ⟨child, hc, hchild⟩ := h d hd slot.item (Numbered.mem_items hslot)
    obtain ⟨i, hi⟩ := copyPart_ok hchild hc
    exact ⟨⟨slot.index, i⟩, by rw [copySlot, hi]; rfl⟩
  obtain ⟨parts, hparts⟩ := mapM_ok hslots
  unfold copyChip
  rw [hparts]
  exact ⟨_, rfl⟩

/-- **A finished chip is copied.** -/
theorem Finished.exists_copyFrom {top : Nat} (h : s.Finished top) :
    ∃ net, s.copyFrom top = .ok net := by
  have hall : ∃ order, s.reach s.chips.size [top] 0 = .ok order ∧ ∀ x ∈ order, s.Expanded order x :=
    reach_ok (List.pairwise_singleton _ top) (by simpa using h) (by omega) fun i hi => by omega
  obtain ⟨order, hreach, hexp⟩ := hall
  obtain ⟨-, hfin⟩ := reach_spec hreach (by simpa using h)
  have hcopy : ∀ x ∈ order, ∃ c, copyChip order ((s.definition? x).getD default) = .ok c := by
    intro x hx
    obtain ⟨e, he, -⟩ := (hfin x hx).exists_entry
    have hd := definition?_of_entry he
    rw [hd, Option.getD_some]
    exact copyChip_ok hd (hexp x hx)
  obtain ⟨chips, hchips⟩ := mapM_ok hcopy
  unfold copyFrom
  rw [hreach]
  exact ⟨⟨chips.toArray, 0⟩, by simp only [bind, Except.bind, hchips, pure, Except.pure]⟩

/-! ## The outcome of a call -/

/-- There is a netlist and no error, or no netlist and an error; never a broken promise. -/
def Conclusive (r : Except InternalError (Option Netlist) × Session) : Prop :=
  ∃ found, r.1 = .ok found ∧ (found.isSome ↔ r.2.log.errorCount = 0)

theorem Reachable.errorCount_pos (h : s.Reachable) {ok : Bool} (ha : Answers ok s s')
    (hok : ok = false) : 0 < s'.log.errorCount :=
  s'.log.hasErrors_iff.1 (ha.failed h.accounted hok)

theorem freeze_fst (s : Session) (top : Nat) : (s.freeze top).1 =
    if (s.link top).1 && !(s.link top).2.log.hasErrors then ((s.link top).2.copyFrom top).map some
    else .ok none := by
  unfold freeze
  dsimp only
  split <;> rfl

theorem freeze_eq_none_of_hasErrors {top : Nat} (h : (s.link top).2.log.hasErrors) :
    (s.freeze top).1 = .ok none := by
  rw [freeze_fst, h, Bool.not_true, Bool.and_false, if_neg Bool.false_ne_true]

theorem Reachable.conclusive_freeze (h : s.Reachable) {top : Nat} {d : Definition}
    (hd : s.definition? top = some d) : Conclusive (s.freeze top) := by
  have hfailed := h.errorCount_pos (answers_link (h.idle top) hd)
  have herrors := (s.link top).2.log.hasErrors_iff
  unfold Conclusive
  rw [freeze_snd]
  cases hlog : (s.link top).2.log.hasErrors with
  | true =>
    have hpos := herrors.1 hlog
    exact ⟨none, freeze_eq_none_of_hasErrors hlog, by simp; omega⟩
  | false =>
    -- without an error the chip has linked
    have hnone : ¬ 0 < (s.link top).2.log.errorCount := by simp [← herrors, hlog]
    have hok : (s.link top).1 = true := by
      by_contra hfalse
      exact hnone (hfailed (by simpa using hfalse))
    obtain ⟨net, hnet⟩ := (finished_of_link h.sound hok).exists_copyFrom
    refine ⟨some net, ?_, by simpa using hnone⟩
    rw [freeze_fst, hok, hlog, Bool.not_false, Bool.and_true, if_pos rfl, hnet]
    rfl

theorem Reachable.conclusive_elaborate (h : s.Reachable) (name : String) :
    Conclusive (s.elaborate name) := by
  have hfailed := h.errorCount_pos (answers_resolve s name .nowhere)
  have hfound : ∀ id, (s.resolve name .nowhere).1 = some id →
      ∃ d, (s.resolve name .nowhere).2.definition? id = some d :=
    fun _ => exists_definition_of_resolve
  have hr : (s.resolve name .nowhere).2.Reachable := h.chip name
  unfold Session.elaborate Session.chip
  generalize s.resolve name .nowhere = resolved at hfailed hfound hr ⊢
  obtain ⟨found, s'⟩ := resolved
  cases found with
  | none =>
    have hpos : 0 < s'.log.errorCount := hfailed rfl
    exact ⟨none, rfl, by simp; omega⟩
  | some top =>
    obtain ⟨d, hd⟩ := hfound top rfl
    exact hr.conclusive_freeze hd

/-- Nothing is frozen after an error. -/
theorem Later.freeze_eq_none (h : Later s s') (he : 0 < s.log.errorCount) (top : Nat) :
    (s'.freeze top).1 = .ok none := by
  have hlog : s.log.history <+: (s'.link top).2.log.history :=
    h.answers.log.trans (advances_link s' top).log
  exact freeze_eq_none_of_hasErrors (hasErrors_mono hlog (s.log.hasErrors_iff.2 he))

theorem Later.elaborate_eq_none (h : Later s s') (he : 0 < s.log.errorCount) (name : String) :
    (s'.elaborate name).1 = .ok none := by
  have hchip : Later s (s'.chip name).2 := h.tail (.chip s' name)
  unfold Session.elaborate
  cases hc : s'.chip name with
  | mk found s₁ =>
    rw [hc] at hchip
    cases found with
    | none => rfl
    | some top => exact hchip.freeze_eq_none he top

theorem status_of_linkResult? {ok : Bool} (h : s.linkResult? id = some ok) :
    s.status? id = some (.linked ok) := by
  unfold linkResult? at h
  split at h
  · next hs => cases h; exact hs
  · cases h

/-- **No failure is silent, and none is a broken promise.** -/
theorem Reachable.no_silent_failure (h : s.Reachable) :
    (∀ top d, s.definition? top = some d → Conclusive (s.freeze top)) ∧
      (∀ name, Conclusive (s.elaborate name)) ∧
      (∀ name span, (s.resolve name span).1 = none →
        0 < (s.resolve name span).2.log.errorCount) ∧
      (∀ id d, s.definition? id = some d → (s.link id).1 = false →
        0 < (s.link id).2.log.errorCount) ∧
      (∀ id, s.linkResult? id = some false → 0 < s.log.errorCount) ∧
      (0 < s.log.errorCount → ∀ s', Later s s' →
        (∀ top, (s'.freeze top).1 = .ok none) ∧ ∀ name, (s'.elaborate name).1 = .ok none) := by
  refine ⟨fun top d hd => h.conclusive_freeze hd, h.conclusive_elaborate,
    fun name span hnone => ?_, fun id d hd hfalse => ?_, fun id hfalse => ?_, fun he s' hl => ?_⟩
  · exact h.errorCount_pos (answers_resolve s name span) (by rw [hnone]; rfl)
  · exact h.errorCount_pos (answers_link (h.idle id) hd) hfalse
  · exact h.errorCount_pos (.of_linked (status_of_linkResult? hfalse)) rfl
  · exact ⟨hl.freeze_eq_none he, hl.elaborate_eq_none he⟩

/-- A chip with a part that nothing provides. -/
def lacking : Session :=
  (Session.addSource { disk := .empty } "L.hdl" "CHIP L\x7bIN x;OUT y;PARTS:Q(a=x,b=y);\x7d").2

theorem reachable_lacking : lacking.Reachable := .addSource _ _ (.start .empty none)

/-- The crossed design is frozen without an error. The other one leaves an error, and taking the
diagnostics out does not help. -/
theorem Reachable.no_silent_failure_lacking :
    (crossed.freeze 0).1 = .ok (some crossedNet) ∧ (crossed.freeze 0).2.log.errorCount = 0 ∧
      (lacking.link 0).1 = false ∧ 0 < (lacking.link 0).2.log.errorCount ∧
      ((lacking.link 0).2.takeAll.2.freeze 0).1 = .ok none := by
  have hruns : (crossed.definition? 0).isSome ∧ (lacking.definition? 0).isSome ∧
      (lacking.link 0).1 = false := by decide +kernel
  obtain ⟨hcrossed, hlacking, hfalse⟩ := hruns
  obtain ⟨d, hd⟩ := Option.isSome_iff_exists.1 hcrossed
  obtain ⟨found, hfound, hcount⟩ := reachable_crossed.no_silent_failure.1 0 d hd
  rw [freeze_crossed] at hfound
  cases hfound
  obtain ⟨l, hl⟩ := Option.isSome_iff_exists.1 hlacking
  have hpos := reachable_lacking.no_silent_failure.2.2.2.1 0 l hl hfalse
  have hlater := (reachable_lacking.link 0).no_silent_failure.2.2.2.2.2 hpos _
    (.single (.takeAll _))
  exact ⟨freeze_crossed, hcount.1 rfl, hfalse, hpos, hlater.1 0⟩

end Session

end ChipLogic
