import ChipLogic.Proofs.Session.Decide

/-!
# Linking well reports no error

In the middle of linking chips whose parts all have names that mean something (`Session.Linking`),
the search for a name reports nothing. All other errors come with a bad result. So a link that goes
well adds warnings to the log at most (`Session.Linking.errorCount_link`). The induction follows the
walk, as for `Session.decides_linkWithin`.
-/

namespace ChipLogic

namespace Session

variable {s₀ s : Session} {path : List Nat} {d inside : Definition} {parent child : Nat}

namespace Linking

/-! ## Names and nets -/

theorem log_resolve (h₀ : s₀.Fresh) (h : Linking s₀ path s) {name : String}
    (hd : s₀.meant? name = some d) (span : Span) : (s.resolve name span).2.log = s.log := by
  cases hl : s.lookup? name with
  | some id => rw [Session.resolve, hl]
  | none =>
    obtain ⟨g, -, -, -, hgate⟩ := h.resolve_gate h₀ hd hl span
    rw [hgate]
    rfl

theorem log_mentionWidth (h₀ : s₀.Fresh) (h : Linking s₀ path s) {m : Mention}
    (hm : s₀.meant? m.chip = some inside) : (s.mentionWidth m).2.log = s.log := by
  have hlog := h.log_resolve h₀ hm m.span
  unfold Session.mentionWidth
  split
  · rfl
  · split <;> next he => rw [he] at hlog; exact hlog

theorem log_widestMention (h₀ : s₀.Fresh) (h : Linking s₀ path s) (width : Nat) {ms : List Mention}
    (hms : ∀ m ∈ ms, ∃ inside, s₀.meant? m.chip = some inside) :
    (s.widestMention width ms).2.log = s.log := by
  induction ms generalizing s width with
  | nil => rfl
  | cons m ms ih =>
    obtain ⟨⟨inside, hm⟩, hms⟩ := List.forall_mem_cons.1 hms
    exact (ih (h.mentionWidth h₀ hm).1 _ hms).trans (h.log_mentionWidth h₀ hm)

theorem log_netWidth (h₀ : s₀.Fresh) (h : Linking s₀ path s) (hd : Stems s₀ s parent d) (key : String)
    (width : Nat) : (s.netWidth parent key width).2.log = s.log := by
  obtain ⟨hm, hnamed⟩ := h.named_mentions h₀ hd key
  unfold Session.netWidth
  rw [hm]
  exact h.log_widestMention h₀ width hnamed

theorem log_addNet (h₀ : s₀.Fresh) (h : Linking s₀ path s) (hd : Stems s₀ s parent d) {r : Reference}
    {width : Nat} (hok : (s.addNet parent r width).1.isSome) :
    (s.addNet parent r width).2.log = s.log := by
  have hlog := h.log_netWidth h₀ hd r.key (r.leastWidth width)
  rw [addNet_eq] at hok ⊢
  dsimp only at hok ⊢
  rw [Option.isSome_map] at hok
  rw [log_addPinTo hok, hlog]

/-! ## Connections -/

theorem log_outerPin (h₀ : s₀.Fresh) (h : Linking s₀ path s) (hd : Stems s₀ s parent d) {r : Reference}
    {width : Nat} (hok : (s.outerPin parent r width).1.isSome) :
    (s.outerPin parent r width).2.log = s.log := by
  have hcase := s.outerRun_outerPin parent r width
  generalize s.outerPin parent r width = outer at hcase hok ⊢
  cases hcase with
  | found => rfl
  | misfit | reversed => cases hok
  | made => exact h.log_addNet h₀ hd hok

theorem log_connect (h₀ : s₀.Fresh) (h : Linking s₀ path s) (hd : Stems s₀ s parent d) {c : Connection}
    (hok : (s.connect parent child c).1.isSome) : (s.connect parent child c).2.log = s.log := by
  have hcase := s.connectRun_connect parent child c
  generalize s.connect parent child c = r at hcase hok ⊢
  cases hcase with
  | noInner | noOuter | apart => cases hok
  | wire _ ho _ => exact h.log_outerPin h₀ hd (ho ▸ rfl)

theorem log_connectAll (h₀ : s₀.Fresh) (h : Linking s₀ path s) (hp : parent ∈ path)
    (hd : Stems s₀ s parent d) (hc : Stems s₀ s child inside) {part : Part} (hpart : part ∈ d.parts)
    (hm : s₀.meant? part.chip = some inside) {cs : List Connection}
    (hcs : ∀ c ∈ cs, c ∈ part.connections)
    (hok : (s.connectAll parent child cs).1.all Option.isSome) :
    (s.connectAll parent child cs).2.log = s.log := by
  induction cs generalizing s with
  | nil => rfl
  | cons c cs ih =>
    obtain ⟨hmem, hcs⟩ := List.forall_mem_cons.1 hcs
    have hboth : (s.connect parent child c).1.isSome ∧
        ((s.connect parent child c).2.connectAll parent child cs).1.all Option.isSome := by
      simpa [Session.connectAll] using hok
    obtain ⟨now, hnow, -⟩ := h.definition? h₀ hd
    have hfirst := h.connect h₀ hp hd hc hpart hm hnow hmem
    have ha := (connects_connect child ((h.inProgress parent).2 hp) c).toAdvances
    exact (ih hfirst.linking (hd.mono ha) (hc.mono ha) hcs hboth.2).trans
      (h.log_connect h₀ hd hboth.1)

end Linking

/-! ## Parts -/

theorem errorCount_emitAll_of_warnings {ds : List Diagnostic} (h : ∀ d ∈ ds, d.isError = false)
    (s : Session) : (s.emitAll ds).log.errorCount = s.log.errorCount := by
  have hnone : ds.countP Diagnostic.isError = 0 := List.countP_eq_zero.2 fun d hd => by simp [h d hd]
  exact (s.log.errorCount_emitAll ds).trans (by rw [hnone, Nat.add_zero])

theorem errorCount_warnUnfed (s : Session) (child : Nat) (wires : List Wire) (span : Span) :
    (s.warnUnfed child wires span).log.errorCount = s.log.errorCount := by
  refine errorCount_emitAll_of_warnings (fun d hd => ?_) s
  obtain ⟨p, -, rfl⟩ := List.mem_map.1 hd
  rfl

theorem errorCount_warnUndriven (s : Session) (id : Nat) :
    (s.warnUndriven id).log.errorCount = s.log.errorCount := by
  refine errorCount_emitAll_of_warnings (fun d hd => ?_) s
  obtain ⟨p, -, rfl⟩ := List.mem_map.1 hd
  rfl

/-- A linker of the chips at the end of a path that reports no error if it goes well. -/
def Silent (s₀ : Session) (path : List Nat) (linkChild : ChildLinker) : Prop :=
  ∀ child inside name span s, Linking s₀ path s → Stems s₀ s child inside →
    Leads s₀ path inside → (linkChild child name span s).1 = true →
      (linkChild child name span s).2.log.errorCount = s.log.errorCount

namespace Linking

theorem errorCount_linkPart (h₀ : s₀.Fresh) (h : Linking s₀ path s) (hp : parent ∈ path)
    (hd : Stems s₀ s parent d) (hlead : ∀ inside, s₀.Uses d inside → Leads s₀ path inside)
    (hg : d.gate = none) {linkChild : ChildLinker} (hl : Links linkChild)
    (hdec : Decides s₀ path linkChild) (hsil : Silent s₀ path linkChild) {index : Nat} {part : Part}
    (hpart : d.parts[index]? = some part)
    (hok : (Session.linkPart linkChild parent index s).1 = true) :
    (Session.linkPart linkChild parent index s).2.log.errorCount = s.log.errorCount := by
  have hmem : part ∈ d.parts := Array.mem_of_getElem? hpart
  have hrun := partRun_linkPart linkChild parent index s
  generalize Session.linkPart linkChild parent index s = r at hrun hok ⊢
  cases hrun with
  | absent => cases hok
  | unresolved => cases hok
  | @steps now child ok good wires s₁ s₂ s₃ s₄ hsteps =>
    have hin := (h.inProgress parent).2 hp
    obtain ⟨now', inside, hnow, hchip, hconn, hm⟩ := h.part_meant h₀ hd hpart
    rw [hsteps.found, Option.some.injEq] at hnow
    subst hnow
    rw [← hchip] at hm
    -- the chip that the name means
    have hlog := h.log_resolve h₀ hm now.span
    obtain ⟨h₁, child', hchild, hstem⟩ := h.resolve h₀ hm now.span
    rw [hsteps.resolved] at hlog h₁ hchild hstem
    cases hchild
    have huse := hlead inside ⟨hg, part, hmem, hchip ▸ hm⟩
    obtain ⟨h₂, -⟩ := hdec child inside now.chip now.span s₁ h₁ hstem huse
    have hcount := hsil child inside now.chip now.span s₁ h₁ hstem huse
    have hadvances := hl.advances child now.chip now.span s₁
    rw [hsteps.linked] at h₂ hcount hadvances
    -- its wires
    have hwires := h₂.log_connectAll h₀ hp (hd.mono (hsteps.advances hl)) (hstem.mono hadvances)
      hmem (hchip ▸ hm) fun c hc => hconn ▸ hc
    rw [hsteps.connected] at hwires
    have hboth := hsteps.verdict
    rw [show good = true from hok, Bool.and_eq_true] at hboth
    have hwarned := hsteps.warned
    rw [show good = true from hok, if_pos rfl] at hwarned
    show s₄.log.errorCount = _
    rw [hwarned, errorCount_warnUnfed, hwires hboth.2, hcount hboth.1, hlog]

theorem errorCount_linkParts (h₀ : s₀.Fresh) (h : Linking s₀ path s) (hp : parent ∈ path)
    (hd : Stems s₀ s parent d) (hlead : ∀ inside, s₀.Uses d inside → Leads s₀ path inside)
    (hg : d.gate = none) {linkChild : ChildLinker} (hl : Links linkChild)
    (hdec : Decides s₀ path linkChild) (hsil : Silent s₀ path linkChild) {indices : List Nat}
    (hi : ∀ index ∈ indices, index < d.parts.size)
    (hok : (Session.linkParts linkChild parent indices s).1 = true) :
    (Session.linkParts linkChild parent indices s).2.log.errorCount = s.log.errorCount := by
  induction indices generalizing s with
  | nil => rfl
  | cons index indices ih =>
    obtain ⟨hlt, hi⟩ := List.forall_mem_cons.1 hi
    have hpart := Array.getElem?_eq_getElem hlt
    obtain ⟨now, hnow, -⟩ := h.definition? h₀ hd
    have hfirst := h.linkPart h₀ hp hd hlead hg hl hdec hpart hnow
    have ha := (linksPart_linkPart hl index ((h.inProgress parent).2 hp)).advances
    unfold Session.linkParts at hok ⊢
    rw [Bool.and_eq_true] at hok
    exact (ih hfirst.linking (hd.mono ha) hi hok.2).trans
      (h.errorCount_linkPart h₀ hp hd hlead hg hl hdec hsil hpart hok.1)

/-! ## Chips -/

theorem errorCount_linkFresh (h₀ : s₀.Fresh) (h : Linking s₀ path s)
    (hs : s.status? parent = some .unlinked) (hd : Stems s₀ s parent d) (hlead : Leads s₀ path d)
    {linkChild : ChildLinker} (hl : Links linkChild) (hdec : Decides s₀ (parent :: path) linkChild)
    (hsil : Silent s₀ (parent :: path) linkChild)
    (hok : (Session.linkFresh linkChild parent s).1 = true) :
    (Session.linkFresh linkChild parent s).2.log.errorCount = s.log.errorCount := by
  have hrun := freshRun_linkFresh linkChild hs
  generalize Session.linkFresh linkChild parent s = r at hrun hok ⊢
  cases hrun with
  | gate => rfl
  | @parts now ok s₁ s₂ found composite run warned =>
    obtain rfl : ok = true := hok
    obtain rfl : d = now := Option.some.inj ((h.definition?_unlinked hs hd).symm.trans found)
    have hlead₁ : ∀ inside, s₀.Uses d inside → Leads s₀ (parent :: path) inside :=
      fun inside => hlead.cons (h.definition?_start h₀ hd composite)
    have hcount := (h.start h₀ hs hd).errorCount_linkParts h₀ List.mem_cons_self
      (hd.mono (advances_start hs)) hlead₁ composite hl hdec hsil
      (fun index hm => List.mem_range.1 hm) (congrArg Prod.fst run)
    rw [run] at hcount
    rw [if_pos rfl] at warned
    show s₂.log.errorCount = _
    rw [warned, errorCount_warnUndriven, hcount]
    rfl

end Linking

theorem silent_linkWithin (h₀ : s₀.Fresh) (depth : Nat) {path : List Nat} (hn : path.Nodup)
    (hdepth : s₀.chips.size < depth + path.length) : Silent s₀ path (linkWithin depth) := by
  induction depth generalizing path with
  | zero => exact fun child inside name span s _ _ _ hok => by cases hok
  | succ depth ih =>
    intro child inside name span s h hd hlead hok
    unfold linkWithin at hok ⊢
    split at hok
    · rfl
    · next hst =>
      have hnew : child ∉ path := by
        rw [← h.inProgress child, hst]
        simp
      have hdeep : s₀.chips.size < depth + (child :: path).length := by
        rw [List.length_cons]
        omega
      have hn' := List.nodup_cons.2 ⟨hnew, hn⟩
      exact h.errorCount_linkFresh h₀ hst hd hlead (links_linkWithin depth)
        (decides_linkWithin h₀ depth hn' hdeep) (ih hn' hdeep) hok
    · cases hok

/-- **A link that goes well reports no error.** -/
theorem Linking.errorCount_link (h₀ : s₀.Fresh) (h : Linking s₀ [] s) (hd : Stems s₀ s parent d)
    (hok : (s.link parent).1 = true) : (s.link parent).2.log.errorCount = s.log.errorCount := by
  unfold Session.link at hok ⊢
  split at hok
  · rfl
  · next hst =>
    have hdeep : s₀.chips.size < s.chipBound + [parent].length := by
      have hle := h.size_le
      unfold chipBound
      rw [List.length_singleton]
      omega
    have hn : [parent].Nodup := by simp
    exact h.errorCount_linkFresh h₀ hst hd (fun a ha => by cases ha) (links_linkWithin _)
      (decides_linkWithin h₀ _ hn hdeep) (silent_linkWithin h₀ _ hn hdeep) hok
  · cases hok

end Session

end ChipLogic
