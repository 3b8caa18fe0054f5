import ChipLogic.Proofs.Session.Loading
import ChipLogic.Proofs.Session.LinkPhases

/-!
# What gives no warnings

W200 and W201 warn of nets that nothing drives and of inputs that nothing feeds. They come from
`Session.warnUndriven` and `Session.warnUnfed` only. Whatever else a link does is **quiet**: the
warnings of the session (`Session.warnings`) stay as they are while a name is searched for, in the
library too (`Session.warnings_resolve`), and while the connections of a part are made
(`Session.warnings_connectAll`). What the searches load may be faulty, but faults of texts, and
refused chips and pins, have codes of their own.
-/

namespace ChipLogic

/-! ## Codes -/

/-- The codes W200 and W201. -/
def Diagnostic.isConnectivity (d : Diagnostic) : Bool :=
  d.code == ⟨.warning, 200⟩ || d.code == ⟨.warning, 201⟩

/-- The problem is a pin that nothing drives or feeds. -/
def Problem.isLoose : Problem → Bool
  | .undriven .. | .unconnected .. => true
  | _ => false

theorem Problem.isLoose_of_isSearch {p : Problem} (h : p.isSearch) : p.isLoose = false := by
  cases p with
  | undriven | unconnected => cases h
  | _ => rfl

theorem Problem.isConnectivity_report (p : Problem) (span : Span) :
    (p.report span).isConnectivity = p.isLoose := by
  cases p with
  | pinRefused chip pin refusal => cases refusal <;> rfl
  | _ => rfl

theorem Hdl.AllFaults.isConnectivity {ds : List Diagnostic} (h : Hdl.AllFaults ds) :
    ∀ d ∈ ds, d.isConnectivity = false := by
  intro d hd
  obtain ⟨f, span, rfl⟩ := h d hd
  cases f <;> rfl

theorem Definition.isConnectivity_ofDocument (doc : Hdl.Document) :
    ∀ e ∈ (ofDocument doc).faults, e.isConnectivity = false := by
  intro e he
  obtain ⟨chip, pin, refusal, span, rfl⟩ := exists_refusal_of_mem_ofDocument he
  exact Problem.isConnectivity_report _ span

namespace Session

variable {s s' : Session}

/-- The warnings of nets and inputs, in order. -/
def warnings (s : Session) : List Diagnostic :=
  s.log.history.filter Diagnostic.isConnectivity

theorem warnings_emitAll (s : Session) (ds : List Diagnostic) :
    (s.emitAll ds).warnings = s.warnings ++ ds.filter Diagnostic.isConnectivity :=
  List.filter_append ..

theorem warnings_emitAll_of_not {ds : List Diagnostic} (h : ∀ d ∈ ds, d.isConnectivity = false)
    (s : Session) : (s.emitAll ds).warnings = s.warnings := by
  have hnil : ds.filter Diagnostic.isConnectivity = [] :=
    List.filter_eq_nil_iff.2 fun d hd => by simp [h d hd]
  rw [warnings_emitAll, hnil, List.append_nil]

theorem warnings_report {p : Problem} (h : p.isLoose = false) (s : Session) (span : Span) :
    (s.report p span).warnings = s.warnings :=
  warnings_emitAll_of_not
    (List.forall_mem_singleton.2 ((p.isConnectivity_report span).trans h)) s

/-! ## Searches -/

theorem warnings_register (s : Session) (d : Definition) :
    (s.register d).2.warnings = s.warnings := by
  unfold register
  split
  · exact warnings_report rfl s _
  · rfl

theorem warnings_registerAll (s : Session) (ds : List Definition) :
    (s.registerAll ds).2.warnings = s.warnings := by
  induction ds generalizing s with
  | nil => rfl
  | cons d ds ih => exact (ih _).trans (warnings_register s d)

theorem warnings_loadSource (s : Session) (path text : String) :
    (s.loadSource path text).2.warnings = s.warnings := by
  unfold loadSource
  dsimp only
  generalize hp : Hdl.parse (some s.sources.size) text = parsed
  generalize hb : (if parsed.faults.isEmpty then Definition.ofDocument parsed.document
    else ⟨[], []⟩) = built
  split
  · exact warnings_registerAll _ built.definitions
  · refine warnings_emitAll_of_not (List.forall_mem_append.2 ⟨?_, ?_⟩) _
    · rw [← hp]
      exact (Hdl.allFaults_parse _ _).isConnectivity
    · rw [← hb]
      split
      · exact Definition.isConnectivity_ofDocument _
      · exact List.forall_mem_nil _

theorem Seek.warnings (h : Seek s s') : s'.warnings = s.warnings := by
  cases h with
  | load path _ => exact warnings_loadSource s path _
  | gate g => exact warnings_register s g.definition
  | ask | giveUp => rfl
  | report search span => exact warnings_report (Problem.isLoose_of_isSearch search) s span

theorem Seeks.warnings (h : Seeks s s') : s'.warnings = s.warnings := by
  induction h with
  | refl => rfl
  | tail _ h ih => exact h.warnings.trans ih

/-- **To search for a name gives no warnings.** -/
theorem warnings_resolve (s : Session) (name : String) (span : Span) :
    (s.resolve name span).2.warnings = s.warnings :=
  (seeks_resolve s name span).warnings

theorem Searched.warnings (h : Searched s s') : s'.warnings = s.warnings := by
  induction h with
  | refl => rfl
  | tail _ hstep ih =>
    obtain ⟨name, span, rfl⟩ := hstep
    exact (warnings_resolve _ name span).trans ih

/-! ## Connections -/

theorem warnings_addPinTo (s : Session) (id : Nat) (p : Pin) :
    (s.addPinTo id p).2.warnings = s.warnings := by
  rcases s.addPinTo_cases id p with ⟨-, hadd⟩ | ⟨d, refusal, -, -, hadd⟩ | ⟨d, -, -, hadd⟩
  · rw [hadd]
  · exact hadd ▸ warnings_report rfl s _
  · exact hadd ▸ rfl

theorem warnings_addNet (s : Session) (parent : Nat) (r : Reference) (width : Nat) :
    (s.addNet parent r width).2.warnings = s.warnings := by
  rw [addNet_eq]
  exact (warnings_addPinTo _ parent _).trans (searched_netWidth s parent r.key _).warnings

theorem warnings_outerPin (s : Session) (parent : Nat) (r : Reference) (width : Nat) :
    (s.outerPin parent r width).2.warnings = s.warnings := by
  have hcase := s.outerRun_outerPin parent r width
  generalize s.outerPin parent r width = outer at hcase ⊢
  cases hcase with
  | found => rfl
  | misfit | reversed => exact warnings_report rfl s _
  | made => exact warnings_addNet s parent r width

theorem isLoose_of_innerPin {child : Nat} {r : Reference} {p : Problem}
    (h : s.innerPin child r = .error p) : p.isLoose = false := by
  rcases innerPin_eq_error h with ⟨_, rfl⟩ | ⟨_, rfl⟩ | ⟨_, _, rfl⟩ <;> rfl

theorem isLoose_of_join {c : Connection} {inner outer : Nat × Pin} {p : Problem}
    (h : join c inner outer = .error p) : p.isLoose = false := by
  rcases join_eq_error h with ⟨_, _, rfl⟩ | rfl <;> rfl

theorem warnings_connect (s : Session) (parent child : Nat) (c : Connection) :
    (s.connect parent child c).2.warnings = s.warnings := by
  have houter := warnings_outerPin s parent c.outer
  have hcase := s.connectRun_connect parent child c
  generalize s.connect parent child c = r at hcase ⊢
  cases hcase with
  | noInner hi => exact warnings_report (isLoose_of_innerPin hi) s _
  | noOuter | wire => exact houter _
  | apart _ _ hj => exact (warnings_report (isLoose_of_join hj) _ _).trans (houter _)

/-- **To connect the pins of a part gives no warnings.** -/
theorem warnings_connectAll (s : Session) (parent child : Nat) (cs : List Connection) :
    (s.connectAll parent child cs).2.warnings = s.warnings := by
  induction cs generalizing s with
  | nil => rfl
  | cons c cs ih => exact (ih _).trans (warnings_connect s parent child c)

end Session

end ChipLogic
