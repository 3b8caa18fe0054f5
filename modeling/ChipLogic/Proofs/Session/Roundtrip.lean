import ChipLogic.Proofs.Session.Restored
import ChipLogic.Proofs.Session.Silence

/-!
# Netlists are read back

All that a netlist says is in the texts of its chips, if it was frozen where all chips come from
texts. A new session that loads the texts and elaborates the top chip gives the same netlist
(`Session.netlist_roundtrip`).

* The netlist is canonical (`Session.canonical_of_freeze`), and the new session is stocked with it
  (`Session.stocked_after`).
* The top chip links, since it is valid, and there is no error (`Session.Linking.errorCount_link`).
  All chips inside are restored (`Session.Restored.parts`).
* The freeze meets the restored chips in the order of the netlist
  (`Session.Relinked.restoredAt_order`), so the copies are its chips (`Session.Relinked.bare_eq`).
-/

namespace ChipLogic

theorem ChipKind.gate?_inj {k k' : ChipKind} (h : k.gate? = k'.gate?) : k = k' := by
  cases k <;> cases k' <;> simp_all [ChipKind.gate?]

/-- A chip may be called by its own name. -/
theorem Netlist.Canonical.called_name {n : Netlist} (hn : n.Canonical) {id : Nat} {c : Chip}
    (hc : n.chip? id = some c) : c.Called c.name :=
  ⟨rfl, fun g hg => congrArg Definition.name (hn.gate id c g hc hg)⟩

namespace Session

variable {n net : Netlist} {s₀ s : Session} {order : List Nat} {i x : Nat} {c : Chip}
  {d₀ d : Definition}

namespace Relinked

/-! ## The order of the chips -/

/-- A chip of the netlist is restored at one place, and nowhere two of them. -/
theorem biUnique (h : Relinked n s₀ s) : Relator.BiUnique (RestoredAt n s₀ s) := by
  constructor
  · rintro i j x ⟨c, _, d, hi⟩ ⟨c', _, d', hj⟩
    obtain rfl : d = d' := Option.some.inj (hi.definition.symm.trans hj.definition)
    have hname : c.name = c'.name := (hi.name h).symm.trans (hj.name h)
    exact h.canonical.keys i j c c' hi.chip hj.chip (congrArg foldCase hname)
  · rintro i x y ⟨c, _, d, hx⟩ ⟨c', _, d', hy⟩
    obtain rfl : c = c' := Option.some.inj (hx.chip.symm.trans hy.chip)
    have hkey : d.key = d'.key := congrArg foldCase ((hx.name h).trans (hy.name h).symm)
    have hfind := h.drawn.sound.find?_eq hx.definition
    rw [hkey, h.drawn.sound.find?_eq hy.definition, Option.some.injEq] at hfind
    exact hfind.symm

theorem follows (h : Relinked n s₀ s) : Follows n s (RestoredAt n s₀ s) := by
  rintro i x ⟨c, d₀, d, hc⟩
  refine ⟨d, hc.definition, ?_⟩
  rw [Netlist.chipAt_eq hc.chip]
  refine (hc.parts h).flip.imp fun inst p hpart => ?_
  obtain ⟨link, hlink, -, -, hat⟩ := hpart
  exact ⟨link.chip, by rw [Part.resolved, hlink, Option.map_some], hat⟩

/-- **The restored chips are met in the order of the netlist.** -/
theorem restoredAt_order (h : Relinked n s₀ s) {top : Nat} (htop : RestoredAt n s₀ s 0 top)
    (hreach : s.reach s.chips.size [top] 0 = .ok order) :
    List.Forall₂ (RestoredAt n s₀ s) (List.range n.size) order := by
  obtain ⟨order', hreach', hall⟩ := reach_follows h.biUnique h.follows s.chips.size
    (.cons htop .nil : List.Forall₂ _ [0] [top]) 0
  rw [hreach, Except.ok.injEq] at hreach'
  subst hreach'
  -- the session has chips enough, so more fuel does not matter
  have hfinished : ∀ x ∈ order, s.Finished x := by
    obtain ⟨c, _, _, hc⟩ := htop
    exact (reach_spec hreach (List.forall_mem_singleton.2 hc.finished)).2
  have hle := length_le_of_finished (nodup_of_reach hreach (List.nodup_singleton top)) hfinished
  have hlen : (n.visit s.chips.size [0] 0).length ≤ s.chips.size := hall.length_eq.trans_le hle
  rwa [← Netlist.visit_add hlen n.size, h.canonical.ordered.visit_eq (Nat.le_add_left _ _)] at hall

/-! ## The copy -/

/-- The copy of a restored chip is the chip. -/
theorem chip_eq (h : Relinked n s₀ s)
    (horder : ∀ id x, order[id]? = some x → RestoredAt n s₀ s id x)
    (hc : Restored n s₀ s i c x d₀ d) {copy : Chip} (hcopy : s.CopiedFrom order copy x d)
    (hsound : copy.Sound net) : copy.bare = c.bare := by
  have hname : copy.name = c.name := hcopy.name.trans (hc.name h)
  have hkind : copy.kind = c.kind := ChipKind.gate?_inj (hcopy.gate.trans (hc.gate h))
  have hpins : copy.pins.map Pin.bare = c.pins.map Pin.bare := by rw [hcopy.pins, hc.pins h]
  have hparts : copy.parts.map Instance.bare = c.parts.map Instance.bare := by
    apply Array.toList_inj.1
    rw [Array.toList_map, Array.toList_map, map_eq_map_iff_forall₂]
    refine (forall₂_comp hcopy.parts.flip (hc.parts h)).imp fun j inst hcommon => ?_
    obtain ⟨p, hpart, link, hlink, hchip, hwires, hat⟩ := hcommon
    obtain ⟨link', hlink', hj, hjwires⟩ := copyPart_eq_ok hpart
    rw [hlink, Option.some.injEq] at hlink'
    subst hlink'
    have hsame : j.chip = inst.chip := h.biUnique.1 (horder _ _ hj) hat
    simp [Instance.bare, hsame, hjwires.trans hwires, (name_of_copyPart hpart).trans hchip]
  exact (h.canonical.sound.chips i c hc.chip).bare_congr hsound hname hkind hpins hparts

/-- **The copy is the netlist.** -/
theorem bare_eq (h : Relinked n s₀ s)
    (hall : List.Forall₂ (RestoredAt n s₀ s) (List.range n.size) order)
    (hcopies : s.Copies order net) : net.bare = n.bare := by
  have horder : ∀ id x, order[id]? = some x → RestoredAt n s₀ s id x := by
    intro id x hx
    obtain ⟨i, hi, hat⟩ := getElem?_of_forall₂ hall hx
    obtain ⟨hlt, rfl⟩ := List.getElem?_eq_some_iff.1 hi
    rwa [List.getElem_range] at hat
  have hsize : net.size = n.size := by
    rw [hcopies.size_eq, ← hall.length_eq, List.length_range]
  have hchips : net.chips.map Chip.bare = n.chips.map Chip.bare := by
    refine Array.ext (by rwa [Array.size_map, Array.size_map]) fun id hlt hlt' => ?_
    rw [Array.size_map] at hlt hlt'
    have hid : net.chip? id = some net.chips[id] := Array.getElem?_eq_getElem hlt
    obtain ⟨x, d, hx, hcopy⟩ := hcopies.copied hid
    obtain ⟨c, d₀, d', hc⟩ := horder id x hx
    obtain rfl : d = d' := Option.some.inj (hcopy.definition.symm.trans hc.definition)
    obtain rfl : n.chips[id] = c :=
      Option.some.inj ((Array.getElem?_eq_getElem hlt').symm.trans hc.chip)
    rw [Array.getElem_map, Array.getElem_map]
    exact h.chip_eq horder hc hcopy (hcopies.sound_chip h.drawn.sound hid)
  rw [Netlist.bare, Netlist.bare, hchips, hcopies.top, h.canonical.sound.top]

end Relinked

/-! ## Elaboration -/

/-- **A session that is stocked with a netlist elaborates it**, and reports no error. -/
theorem Stocked.elaborate (h : s₀.Stocked n) (hn : n.Canonical) (hd : s₀.Drawn) (ht : s₀.Titled)
    (hlog : s₀.log.history = []) (hc : n.chip? 0 = some c) :
    ∃ net, (s₀.elaborate c.name).1 = .ok (some net) ∧
      (s₀.elaborate c.name).2.log.errorCount = 0 ∧ net.bare = n.bare := by
  obtain ⟨d₀, hmeant, hdeclares⟩ := h.means 0 c hc c.name (hn.called_name hc)
  -- the top chip is found
  obtain ⟨hlinking, top, htop, hstems⟩ := h.fresh.linking.resolve h.fresh hmeant .nowhere
  have hsilent := h.fresh.linking.log_resolve h.fresh hmeant .nowhere
  have hd₁ := hd.errands (errands_resolve s₀ c.name .nowhere)
  have ht₁ := ht.moves (errands_resolve s₀ c.name .nowhere).moves
  unfold Session.elaborate Session.chip
  generalize s₀.resolve c.name .nowhere = found at hlinking htop hstems hsilent hd₁ ht₁ ⊢
  obtain ⟨found, s⟩ := found
  cases htop
  dsimp only at hlinking hstems hsilent hd₁ ht₁ ⊢
  -- it links
  obtain ⟨hlinked, hlinkable⟩ := hlinking.link h.fresh hstems
  have hok := hlinkable.2 (h.linkable hn hc hdeclares (h.sane hmeant))
  have hcount : (s.link top).2.log.errorCount = 0 := by
    rw [hlinking.errorCount_link h.fresh hstems hok, hsilent, Log.errorCount, hlog]
    rfl
  have hr : Relinked n s₀ (s.link top).2 :=
    ⟨hn, h, hlinked, hd₁.link top, ht₁.moves (moves_link s top)⟩
  have hfinished := finished_of_link hd₁.sound hok
  have hrestored : RestoredAt n s₀ (s.link top).2 0 top := by
    obtain ⟨d, hd, hm⟩ := hstems.mono (advances_link s top)
    exact ⟨c, d₀, d, hc, hfinished, hd, hm, hdeclares⟩
  -- and is copied
  obtain ⟨net, hnet⟩ := hfinished.exists_copyFrom
  obtain ⟨order, hreach, -, hcopies⟩ := exists_reach_of_copyFrom hnet hfinished
  have horder := hr.restoredAt_order hrestored hreach
  refine ⟨net, ?_, freeze_snd s top ▸ hcount, hr.bare_eq horder hcopies⟩
  have hclean : (s.link top).2.log.hasErrors = false := by
    rw [← Bool.not_eq_true, Log.hasErrors_iff, hcount]
    exact Nat.lt_irrefl 0
  rw [freeze_fst, hok, hclean, Bool.not_false, Bool.and_true, if_pos rfl, hnet]
  rfl

/-- **Printing and reading a netlist give the netlist.** It was frozen where all chips come from
texts, and its parts call gates by their exact names. Then each of its chips can be printed. A new
session that loads the texts of all chips but the gates, in any order and under any names,
elaborates the top chip without an error, and the netlist that it gives is the same one up to
places. -/
theorem netlist_roundtrip {disk : Disk} {library : Option String} {script : List Action}
    (hscript : ∀ id p, .addPin id p ∉ script) {top : Nat}
    (hf : ((Session.after { disk, library } script).freeze top).1 = .ok (some n))
    (hexact : ∀ id c, n.chip? id = some c → ∀ p ∈ c.parts, ∀ d g, n.chip? p.chip = some d →
      d.kind = .gate g → p.name = g.name) :
    (∀ id < n.size, (n.render? id).isSome) ∧
      ∀ (disk' : Disk) (files : List (String × Nat)), (files.map Prod.snd).Perm n.composites →
        ∃ c net, n.topChip? = some c ∧
          ((Session.after { disk := disk' } (n.loads files)).elaborate c.name).1 = .ok (some net) ∧
          ((Session.after { disk := disk' } (n.loads files)).elaborate c.name).2.log.errorCount = 0 ∧
          net.bare = n.bare := by
  have hn := canonical_of_freeze hscript hf hexact
  refine ⟨fun id hlt => ?_, fun disk' files hfiles => ?_⟩
  · rw [hn.sound.render?_eq (Array.getElem?_eq_getElem hlt)]
    rfl
  · obtain ⟨c, hc⟩ := hn.sound.topChip
    obtain ⟨hstocked, hdrawn, hlog⟩ := stocked_after hn disk' hfiles
    have htitled := (reachable_after disk' none (n.loads files)).titled
    obtain ⟨net, helaborate⟩ := hstocked.elaborate hn hdrawn htitled hlog hc
    exact ⟨c, net, by rw [Netlist.topChip?, hn.sound.top, hc], helaborate⟩

/-- The crossed design is read back from two texts, the inner chip first. -/
theorem netlist_roundtrip_crossed :
    (crossed.freeze 0).1 = .ok (some crossedNet) ∧ crossedNet.size = 3 ∧
      crossedNet.composites = [0, 1] ∧ (∀ id < 3, (crossedNet.render? id).isSome) ∧
      ∃ c net, crossedNet.topChip? = some c ∧
        ((Session.after { disk := .empty } (crossedNet.loads [("K.hdl", 1), ("X.hdl", 0)])).elaborate
          c.name).1 = .ok (some net) ∧
        ((Session.after { disk := .empty } (crossedNet.loads [("K.hdl", 1), ("X.hdl", 0)])).elaborate
          c.name).2.log.errorCount = 0 ∧
        net.bare = crossedNet.bare := by
  have hchecks : crossedNet.size = 3 ∧ crossedNet.composites = [0, 1] ∧
      ∀ c ∈ crossedNet.chips, ∀ p ∈ c.parts, ∀ d ∈ crossedNet.chip? p.chip, ∀ g ∈ d.kind.gate?,
        p.name = g.name := by decide +kernel
  obtain ⟨hsize, hcomposites, hexact⟩ := hchecks
  obtain ⟨text, hf⟩ : ∃ text, ((Session.after { disk := .empty }
      [.addSource "X.hdl" text]).freeze 0).1 = .ok (some crossedNet) := ⟨_, freeze_crossed⟩
  have hround := netlist_roundtrip (by simp) hf fun id c hc p hp d g hd hg =>
    hexact c (Array.mem_of_getElem? hc) p hp d hd g (hg ▸ rfl)
  have hfiles : ([("K.hdl", 1), ("X.hdl", 0)].map Prod.snd).Perm crossedNet.composites := by
    rw [hcomposites]
    exact .swap 0 1 []
  exact ⟨freeze_crossed, hsize, hcomposites, hsize ▸ hround.1, hround.2 .empty _ hfiles⟩

end Session

end ChipLogic
