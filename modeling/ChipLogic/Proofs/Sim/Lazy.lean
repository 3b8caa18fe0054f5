import ChipLogic.Proofs.Sim.Alike

/-!
# States of parts are made unseen

The state of a part is made when somebody asks for it, and an evaluation asks for those that it
comes by. So two users who did the same can hold different trees, one with more states made than the
other. **No operation tells them apart.**

**Operations** (`State.Operation`). A user reads and writes pins by position, by range and by name,
copies a wire, settles, starts over, or asks for the state of a part and goes on there. Each has a
reply, a value or a failure, and leaves a state (`State.Operation.run`). From twins every operation
has the same reply and leaves twins (`State.Operation.respects_run`), by induction on how deep it
goes into the parts.

**Asking.** An operation that only asks, at any depth, leaves a twin of the state it started from
(`State.Operation.twins_of_asks`). So it may be put into a row of operations anywhere, or left out:
the replies of the others stay the same (`State.Twins.script`).

**Theorem (`State.Twins.operations_agree`).** For states of a frozen netlist, whether the state of a
part is made early, late or never makes no difference to any reply.
-/

namespace ChipLogic

namespace State

variable {net : Netlist} {s t : State} {id part : Nat}

/-! ## Writing to twins -/

theorem Twins.setRange (h : Twins net id s t) (pin : Nat) (value : UInt64) (range : BitRange) :
    (s.setRange net pin value range).1 = (t.setRange net pin value range).1 ∧
      Twins net id (s.setRange net pin value range).2 (t.setRange net pin value range).2 := by
  unfold State.setRange
  rw [h.pin?, h.alike.get]
  split
  · exact h.write _ _
  · exact ⟨rfl, h⟩

theorem Twins.pinNamed (h : Twins net id s t) (name : String) :
    s.pinNamed net name = t.pinNamed net name := by
  rw [State.pinNamed, State.pinNamed, h.chipIn]

theorem respects_setNamed (net : Netlist) (id : Nat) (name : String) (value : UInt64) :
    Respects net id fun s => s.setNamed net name value := by
  intro s t h
  dsimp only
  unfold State.setNamed
  rw [h.pinNamed, h.chipIn]
  cases t.pinNamed net name with
  | error e => exact ⟨rfl, h⟩
  | ok pin =>
    dsimp only
    split
    · exact ⟨rfl, h⟩
    · obtain ⟨hchanged, htwins⟩ := h.set pin value
      exact ⟨congrArg Except.ok hchanged, htwins⟩

/-- After starting over there is no state of a part, and all is zero. -/
theorem cellAt_reset (s : State) (path : List Nat) (pin : Nat) : s.reset.cellAt path pin = 0 := by
  cases path with
  | nil =>
    simp only [cellAt_nil, State.get, State.reset, Array.getElem?_map]
    cases s.cells[pin]? <;> rfl
  | cons part path =>
    have hnone : s.reset.child? part = none := by
      simp only [child?, State.reset, Array.getElem?_map]
      cases s.children[part]? <;> rfl
    rw [cellAt_cons, hnone]
    rfl

theorem Twins.reset (h : Twins net id s t) : Twins net id s.reset t.reset where
  left := h.left.reset
  right := h.right.reset
  alike path pin := by rw [cellAt_reset, cellAt_reset]

/-- What leaves a twin of the state of a part leaves a twin of the whole state. -/
theorem twins_inPart {α : Type} {f : State → Outcome α} (wf : net.Sound)
    (hs : Framed net id s) (hf : ∀ id s, Framed net id s → Twins net id s (f s).2) :
    Twins net id s (inPart net part f s).2 := by
  cases hchild : s.childOrFresh net part with
  | error e =>
    rw [inPart, hchild]
    exact .refl hs
  | ok child =>
    obtain ⟨c, p, hc, hp, hframe⟩ := hs.of_childOrFresh wf hchild
    rw [inPart_eq hchild]
    exact (Twins.make hs wf hchild).trans
      ((Twins.refl hs).putChild hc hp (hf p.chip child hframe))

/-! ## Operations -/

/-- What a user can do with a state. -/
inductive Operation
  | get (pin : Nat)
  | getRange (pin : Nat) (range : BitRange)
  | set (pin : Nat) (value : UInt64)
  | setRange (pin : Nat) (value : UInt64) (range : BitRange)
  | setNamed (name : String) (value : UInt64)
  | assign (part : Nat) (wire : Wire)
  | evaluate (limits : Limits)
  | reset
  /-- Asks for the state of a part, and does nothing with it. -/
  | ask (part : Nat)
  /-- Asks for the state of a part, and operates on it. -/
  | inPart (part : Nat) (operation : Operation)

/-- The reply to an operation that does not fail. -/
inductive Reply
  | value (value : UInt64)
  | changed (changed : Bool)
  | done
  deriving DecidableEq

/-- The reply that tells whether something changed. -/
def replied (r : Outcome Bool) : Outcome Reply := (r.1.map .changed, r.2)

theorem Respects.replied {a : Action} (ha : Respects net id a) :
    Respects net id fun s => replied (a s) := by
  intro s t h
  obtain ⟨hresult, htwins⟩ := ha s t h
  exact ⟨congrArg (Except.map Reply.changed) hresult, htwins⟩

namespace Operation

/-- Runs an operation. -/
def run (net : Netlist) : Operation → State → Outcome Reply
  | get pin, s => (.ok (.value (s.get pin)), s)
  | getRange pin range, s => (.ok (.value (s.getRange pin range)), s)
  | set pin value, s =>
    let (changed, s) := s.set net pin value
    (.ok (.changed changed), s)
  | setRange pin value range, s =>
    let (changed, s) := s.setRange net pin value range
    (.ok (.changed changed), s)
  | setNamed name value, s => replied (s.setNamed net name value)
  | assign part wire, s => replied (State.assign net part wire s)
  | evaluate limits, s => replied (s.evaluate net limits)
  | reset, s => (.ok .done, s.reset)
  | ask part, s => State.inPart net part (fun child => (.ok .done, child)) s
  | inPart part operation, s => State.inPart net part (operation.run net) s

/-- The operation asks for the state of a part, in a part if need be, and does nothing else. -/
def asks : Operation → Bool
  | ask _ => true
  | inPart _ operation => operation.asks
  | _ => false

/-- **Twins reply the same and stay twins**, whatever is done to them. -/
theorem respects_run (wf : net.Sound) (operation : Operation) (id : Nat) :
    Respects net id (operation.run net) := by
  induction operation generalizing id with
  | get pin => exact fun s t h => ⟨by rw [run, run, h.alike.get], h⟩
  | getRange pin range =>
    exact fun s t h => ⟨by rw [run, run, State.getRange, State.getRange, h.alike.get], h⟩
  | set pin value =>
    intro s t h
    obtain ⟨hchanged, htwins⟩ := h.set pin value
    exact ⟨congrArg (Except.ok ∘ Reply.changed) hchanged, htwins⟩
  | setRange pin value range =>
    intro s t h
    obtain ⟨hchanged, htwins⟩ := h.setRange pin value range
    exact ⟨congrArg (Except.ok ∘ Reply.changed) hchanged, htwins⟩
  | setNamed name value => exact (respects_setNamed net id name value).replied
  | assign part wire => exact (respects_assign wf part wire).replied
  | evaluate limits => exact (respects_evaluate wf limits id).replied
  | reset => exact fun s t h => ⟨rfl, h.reset⟩
  | ask part => exact respects_inPart wf fun _ _ _ _ _ _ h => ⟨rfl, h⟩
  | inPart part operation ih => exact respects_inPart wf fun _ p _ _ => ih p.chip

/-- **Asking changes no value.** -/
theorem twins_of_asks (wf : net.Sound) (operation : Operation) (h : operation.asks = true)
    (hs : Framed net id s) : Twins net id s (operation.run net s).2 := by
  induction operation generalizing id s with
  | ask part => exact twins_inPart wf hs fun _ _ => Twins.refl
  | inPart part operation ih => exact twins_inPart wf hs fun _ _ hframe => ih h hframe
  | _ => cases h

/-- Runs operations in a row, also after failures, and collects the replies; asking alone is not
replied to. -/
def script (net : Netlist) : List Operation → State → List (Except SimError Reply) × State
  | [], s => ([], s)
  | operation :: rest, s =>
    let (reply, s) := operation.run net s
    let (replies, s) := script net rest s
    (if operation.asks then replies else reply :: replies, s)

end Operation

/-! ## Rows of operations -/

/-- Asking can be left out of a row of operations. -/
theorem Twins.script_filter (h : Twins net id s t) (wf : net.Sound) (ops : List Operation) :
    (Operation.script net ops s).1 = (Operation.script net (ops.filter (!·.asks)) t).1 ∧
      Twins net id (Operation.script net ops s).2
        (Operation.script net (ops.filter (!·.asks)) t).2 := by
  induction ops generalizing s t with
  | nil => exact ⟨rfl, h⟩
  | cons operation ops ih =>
    by_cases hasks : operation.asks = true
    · rw [List.filter_cons_of_neg (by simp [hasks])]
      have hasked := operation.twins_of_asks wf hasks h.left
      obtain ⟨hreplies, htwins⟩ := ih (hasked.symm.trans h)
      simp only [Operation.script, hasks, if_true]
      exact ⟨hreplies, htwins⟩
    · rw [List.filter_cons_of_pos (by simp [hasks])]
      obtain ⟨hreply, hnext⟩ := Operation.respects_run wf operation id s t h
      obtain ⟨hreplies, htwins⟩ := ih hnext
      simp only [Operation.script, hasks]
      exact ⟨congrArg₂ List.cons hreply hreplies, htwins⟩

/-- Rows of operations that differ in asking only have the same replies and end in twins. -/
theorem Twins.script (h : Twins net id s t) (wf : net.Sound) {ops ops' : List Operation}
    (heq : ops.filter (!·.asks) = ops'.filter (!·.asks)) :
    (Operation.script net ops s).1 = (Operation.script net ops' t).1 ∧
      Twins net id (Operation.script net ops s).2 (Operation.script net ops' t).2 := by
  obtain ⟨hreplies, htwins⟩ := (Twins.refl h.left).script_filter wf ops
  obtain ⟨hreplies', htwins'⟩ := h.symm.script_filter wf ops'
  rw [← heq] at hreplies' htwins'
  exact ⟨hreplies.trans hreplies'.symm, htwins.trans htwins'.symm⟩

/-- **States of parts are made unseen.** From two states of a chip of a frozen netlist that have the
same values, whatever states of parts have been made in them, each operation has the same reply and
ends in such states again; and so do rows of operations, with asking for parts put in anywhere on
either side. -/
theorem Twins.operations_agree {session : Session} (hsession : session.Reachable) {top : Nat}
    (hf : (session.freeze top).1 = .ok (some net)) (h : Twins net id s t) :
    (∀ operation : Operation, (operation.run net s).1 = (operation.run net t).1 ∧
      Twins net id (operation.run net s).2 (operation.run net t).2) ∧
    ∀ ops ops' : List Operation, ops.filter (!·.asks) = ops'.filter (!·.asks) →
      (Operation.script net ops s).1 = (Operation.script net ops' t).1 ∧
        Twins net id (Operation.script net ops s).2 (Operation.script net ops' t).2 := by
  have wf := hsession.sound.netlist_sound hf
  exact ⟨fun operation => operation.respects_run wf id s t h, fun _ _ => h.script wf⟩

/-- The first part of `X`, and the second part of it, asked for ahead of time. -/
def crossedMade : State :=
  ((Operation.inPart 0 (.ask 1)).run Session.crossedNet crossedStart).2

/-- An evaluation that runs out of passes, another one that does not, and the value of a net of a
part: it makes no difference that states were made before, nor that another one is made between. -/
theorem Twins.operations_agree_crossed :
    (crossedStart.child? 0).isNone ∧ ((crossedMade.child? 0).bind (·.child? 1)).isSome ∧
      (Operation.script Session.crossedNet
        [.evaluate ⟨1, 16⟩, .evaluate ⟨8, 16⟩, .inPart 0 (.get 2)] crossedStart).1 =
          [.error (.noConvergence 1 1), .ok (.changed true), .ok (.value 1)] ∧
      (Operation.script Session.crossedNet
        [.evaluate ⟨1, 16⟩, .inPart 1 (.ask 0), .evaluate ⟨8, 16⟩, .inPart 0 (.get 2)]
          crossedMade).1 = [.error (.noConvergence 1 1), .ok (.changed true), .ok (.value 1)] := by
  have hruns : (crossedStart.child? 0).isNone ∧
      ((crossedMade.child? 0).bind (·.child? 1)).isSome ∧
      (Operation.script Session.crossedNet
        [.evaluate ⟨1, 16⟩, .evaluate ⟨8, 16⟩, .inPart 0 (.get 2)] crossedStart).1 =
          [.error (.noConvergence 1 1), .ok (.changed true), .ok (.value 1)] := by
    decide +kernel
  have wf := Session.reachable_crossed.sound.netlist_sound Session.freeze_crossed
  have htwins : Twins Session.crossedNet 0 crossedStart crossedMade :=
    (Operation.inPart 0 (.ask 1)).twins_of_asks wf rfl (reached_crossedStart.freely.framed wf)
  obtain ⟨habsent, hmade, hreplies⟩ := hruns
  obtain ⟨-, hrows⟩ := htwins.operations_agree Session.reachable_crossed Session.freeze_crossed
  have hsame := hrows [.evaluate ⟨1, 16⟩, .evaluate ⟨8, 16⟩, .inPart 0 (.get 2)]
    [.evaluate ⟨1, 16⟩, .inPart 1 (.ask 0), .evaluate ⟨8, 16⟩, .inPart 0 (.get 2)] rfl
  exact ⟨habsent, hmade, hreplies, hsame.1.symm.trans hreplies⟩

end State

end ChipLogic
