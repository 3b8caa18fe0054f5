import ChipLogic.Proofs.Session.Layout

/-!
# Linkable chips

Linking counts in 32 bits, where no number comes after the last position. So what it asks of a chip
is not quite validity (`Session.Valid`):

* a net gets the greatest width that is asked for as it comes out in 32 bits, and a reference that
  ends at the last position asks for no bit;
* such a reference fits no net that is there, so it has to be the first to its name (`WrapsFirst`).

A chip is **linkable** (`Session.Linkable`) if its parts fit in these widths, its references are in
such an order, and the chips of its parts are linkable. Where no reference wraps around, this is
validity (`Session.linkable_iff_valid`).
-/

namespace ChipLogic

namespace Session

variable {s : Session} {d : Definition}

/-- A chip that links. -/
inductive Linkable (s : Session) : Definition → Prop
  | gate {d : Definition} (gate : d.gate.isSome) : Linkable s d
  | composite {d : Definition} (parts : ∀ p ∈ d.parts, s.PartFits BitRange.extent d p)
      (wrapsFirst : WrapsFirst d.names d.outers)
      (children : ∀ p ∈ d.parts, ∀ child, s.meant? p.chip = some child → Linkable s child) :
      Linkable s d

/-- A part that links, as far as the order of references lets it. -/
def PartLinkable (s : Session) (d : Definition) (p : Part) : Prop :=
  s.PartFits BitRange.extent d p ∧ ∀ child, s.meant? p.chip = some child → s.Linkable child

theorem linkable_iff (hd : d.gate = none) : s.Linkable d ↔
    (∀ p ∈ d.parts, s.PartLinkable d p) ∧ WrapsFirst d.names d.outers := by
  refine ⟨fun h => ?_, fun ⟨hparts, hfirst⟩ =>
    .composite (fun p hp => (hparts p hp).1) hfirst fun p hp => (hparts p hp).2⟩
  cases h with
  | gate hg => rw [hd] at hg; cases hg
  | composite parts wrapsFirst children =>
    exact ⟨fun p hp => ⟨parts p hp, children p hp⟩, wrapsFirst⟩

theorem Linkable.acc (h : s.Linkable d) : Acc (fun child d => s.Uses d child) d := by
  induction h with
  | gate hg => exact acc_uses_gate hg
  | composite _ _ _ ih => exact acc_uses_composite ih

/-- **A chip inside itself is not linkable.** -/
theorem Linkable.not_uses_self (h : s.Linkable d) : ¬ Relation.TransGen s.Uses d d :=
  not_uses_self_of_acc h.acc

/-! ## Without references that wrap around -/

theorem wrapsFirst_of_none {names : List String} {rs : List Reference}
    (h : ∀ r ∈ rs, ¬ r.WrapsAround) : WrapsFirst names rs := by
  refine ⟨?_, fun r hr hw => absurd hw (h r hr)⟩
  exact List.pairwise_of_forall_mem_list fun _ _ r hr hw => absurd hw (h r hr)

/-- A net is as wide in 32 bits as otherwise. -/
theorem netBits_extent {key : String} (h : ∀ r ∈ d.outers, r.key = key → ¬ r.WrapsAround) :
    s.netBits BitRange.extent d key = s.netBits BitRange.reach d key := by
  refine congrArg (List.foldr max 0) (List.map_congr_left fun m hm => ?_)
  obtain ⟨p, hp, c, hc, hk, rfl⟩ := Definition.mem_mentions.1 hm
  have hno := h c.outer (Definition.mem_outers.2 ⟨p, hp, c, hc, rfl⟩) hk
  unfold bitsAsked
  dsimp only
  cases hr : c.outer.range with
  | none => rfl
  | some range =>
    dsimp only
    split
    · next ho => exact BitRange.extent_eq_reach ho fun hw => hno ⟨range, hr, hw⟩
    · rfl

theorem Takes.congr {count count' : BitRange → Nat} {r : Reference} {q : Pin}
    (h : s.Takes count d r q) (he : s.netBits count' d r.key = s.netBits count d r.key) :
    s.Takes count' d r q := by
  cases h with
  | declared named range => exact .declared named range
  | net undeclared kind width width_pos width_le range =>
    exact .net undeclared kind (width.trans he.symm) width_pos width_le range

theorem PartFits.congr {count count' : BitRange → Nat} {p : Part} (h : s.PartFits count d p)
    (hp : p ∈ d.parts)
    (he : ∀ r ∈ d.outers, s.netBits count' d r.key = s.netBits count d r.key) :
    s.PartFits count' d p := by
  obtain ⟨child, hm, hcs⟩ := h
  refine ⟨child, hm, fun c hc => ?_⟩
  obtain ⟨a, b, ha, hb, hfits⟩ := hcs c hc
  exact ⟨a, b, ha, hb.congr (he _ (Definition.mem_outers.2 ⟨p, hp, c, hc, rfl⟩)), hfits⟩

/-- **Where no reference wraps around, a chip is linkable exactly if it is valid.** -/
theorem linkable_iff_valid
    (hall : ∀ name d, s.meant? name = some d → ∀ r ∈ d.outers, ¬ r.WrapsAround)
    (hd : ∀ r ∈ d.outers, ¬ r.WrapsAround) : s.Linkable d ↔ s.Valid d := by
  have hsame {d : Definition} (hd : ∀ r ∈ d.outers, ¬ r.WrapsAround) (r : Reference) :
      s.netBits BitRange.extent d r.key = s.netBits BitRange.reach d r.key :=
    netBits_extent fun r' hr' _ => hd r' hr'
  constructor
  · intro h
    induction h with
    | gate hg => exact .gate hg
    | composite parts _ _ ih =>
      exact .composite (fun p hp => (parts p hp).congr hp fun r _ => (hsame hd r).symm)
        fun p hp child hm => ih p hp child hm (hall p.chip child hm)
  · intro h
    induction h with
    | gate hg => exact .gate hg
    | composite parts _ ih =>
      exact .composite (fun p hp => (parts p hp).congr hp fun r _ => hsame hd r)
        (wrapsFirst_of_none hd) fun p hp child hm => ih p hp child hm (hall p.chip child hm)

end Session

end ChipLogic
