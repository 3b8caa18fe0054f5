import ChipLogic.Hdl.Fault

/-!
# Reading tokens

A **cursor** stands before a token and remembers the span of the one before it. A **rule** reads
one construct: it gives what it read and the cursor after it, or the first fault it met and the
cursor at that fault.

No rule goes back. `Rule.Forward` says that the cursor after a rule, or at its fault, has a suffix
of the tokens that were there before, and `Rule.Consumes` that success takes at least one token.
Rules built from forward rules are forward (`Rule.Forward.bind`), and one consuming rule makes a
sequence consuming (`Rule.Consumes.bind`). The loops of the parser end for these two reasons.
-/

namespace ChipLogic.Hdl

/-- A place among tokens. -/
structure Cursor where
  /-- The span of the token before the cursor. -/
  previous : Option Span
  rest : List Token
  deriving DecidableEq, Repr

namespace Cursor

/-- The kind of the next token; after the last one, the end of the text. -/
def kind (c : Cursor) : Kind :=
  match c.rest with
  | [] => .endOfFile
  | t :: _ => t.kind

def span (c : Cursor) : Span :=
  match c.rest with
  | [] => c.previous.getD .nowhere
  | t :: _ => t.span

def text (c : Cursor) : String :=
  match c.rest with
  | [] => ""
  | t :: _ => t.text

/-- The span of the token before the cursor, or of the next one if there is none before. -/
def previousSpan (c : Cursor) : Span :=
  c.previous.getD c.span

/-- Steps over the next token. Nothing steps over the end of the text. -/
def advance (c : Cursor) : Cursor :=
  match c.rest with
  | [] => c
  | t :: rest => if t.kind = .endOfFile then c else ⟨some t.span, rest⟩

theorem rest_advance_suffix (c : Cursor) : c.advance.rest <:+ c.rest := by
  unfold advance
  split
  · exact List.suffix_refl _
  · next t rest h =>
    split
    · exact List.suffix_refl _
    · rw [h]; exact List.suffix_cons t rest

theorem length_advance {c : Cursor} (h : c.kind ≠ .endOfFile) :
    c.advance.rest.length < c.rest.length := by
  unfold kind at h
  unfold advance
  split
  · next hr => simp [hr] at h
  · next t rest hr =>
    rw [hr] at h
    rw [if_neg h, hr]
    simp

end Cursor

/-- A fault and the cursor at it. -/
structure Failure where
  fault : Fault
  cursor : Cursor

def Failure.report (f : Failure) : Diagnostic :=
  f.fault.report f.cursor.span

/-- A reader of one construct. -/
abbrev Rule (α : Type) := StateT Cursor (Except Failure) α

namespace Rule

variable {α β : Type}

/-- The next token is not what the grammar allows. -/
def unexpected (what : Expectation) : Rule α := fun c =>
  .error ⟨.expected what c.kind, c⟩

/-- A token of the given kind. -/
def token (kind : Kind) : Rule Span := fun c =>
  if c.kind = kind then .ok (c.span, c.advance) else unexpected (.token kind) c

/-- A name. -/
def name : Rule (String × Span) := fun c =>
  if c.kind = .identifier then .ok ((c.text, c.span), c.advance)
  else unexpected (.token .identifier) c

/-- The span of the token before the cursor. -/
def previousSpan : Rule Span := fun c =>
  .ok (c.previousSpan, c)

/-- Reads on with `r` if the next token has the given kind; the token itself is passed over. -/
def ifNext (kind : Kind) (r : Span → Rule α) (otherwise : Rule α) : Rule α := fun c =>
  if c.kind = kind then r c.span c.advance else otherwise c

/-- A rule never goes back. -/
structure Forward (r : Rule α) : Prop where
  ok : ∀ {c a c'}, r c = .ok (a, c') → c'.rest <:+ c.rest
  error : ∀ {c f}, r c = .error f → f.cursor.rest <:+ c.rest

/-- A rule takes at least one token when it succeeds. -/
structure Consumes (r : Rule α) : Prop where
  ok : ∀ {c a c'}, r c = .ok (a, c') → c'.rest.length < c.rest.length

theorem bind_apply (r : Rule α) (f : α → Rule β) (c : Cursor) :
    (r >>= f) c = match r c with
      | .error e => .error e
      | .ok (a, c') => f a c' := by
  show (StateT.bind r f) c = _
  unfold StateT.bind
  cases r c <;> rfl

theorem Forward.pure (a : α) : Forward (Pure.pure a : Rule α) where
  ok h := by
    obtain ⟨-, rfl⟩ := Prod.mk.inj (Except.ok.inj h)
    exact List.suffix_refl _
  error h := nomatch h

theorem Forward.bind {r : Rule α} {f : α → Rule β} (hr : Forward r) (hf : ∀ a, Forward (f a)) :
    Forward (r >>= f) where
  ok := by
    intro c b c' h
    rw [bind_apply] at h
    split at h
    · cases h
    · next a c₁ h₁ => exact ((hf a).ok h).trans (hr.ok h₁)
  error := by
    intro c e h
    rw [bind_apply] at h
    split at h
    · next e' h₁ => cases h; exact hr.error h₁
    · next a c₁ h₁ => exact ((hf a).error h).trans (hr.ok h₁)

theorem Consumes.bind {r : Rule α} {f : α → Rule β} (hr : Consumes r) (hf : ∀ a, Forward (f a)) :
    Consumes (r >>= f) where
  ok := by
    intro c b c' h
    rw [bind_apply] at h
    split at h
    · cases h
    · next a c₁ h₁ => exact Nat.lt_of_le_of_lt ((hf a).ok h).length_le (hr.ok h₁)

theorem Forward.unexpected (what : Expectation) : Forward (Rule.unexpected what : Rule α) where
  ok h := nomatch h
  error h := by cases h; exact List.suffix_refl _

theorem Forward.token (kind : Kind) : Forward (Rule.token kind) where
  ok := by
    intro c a c' h
    unfold Rule.token at h
    split at h
    · obtain ⟨-, rfl⟩ := Prod.mk.inj (Except.ok.inj h)
      exact c.rest_advance_suffix
    · cases h
  error := by
    intro c f h
    unfold Rule.token at h
    split at h
    · cases h
    · exact (Forward.unexpected _).error h

theorem Forward.name : Forward Rule.name where
  ok := by
    intro c a c' h
    unfold Rule.name at h
    split at h
    · obtain ⟨-, rfl⟩ := Prod.mk.inj (Except.ok.inj h)
      exact c.rest_advance_suffix
    · cases h
  error := by
    intro c f h
    unfold Rule.name at h
    split at h
    · cases h
    · exact (Forward.unexpected _).error h

theorem Consumes.name : Consumes Rule.name where
  ok := by
    intro c a c' h
    unfold Rule.name at h
    split at h
    · next hk =>
      obtain ⟨-, rfl⟩ := Prod.mk.inj (Except.ok.inj h)
      exact Cursor.length_advance (by rw [hk]; decide)
    · cases h

theorem Forward.previousSpan : Forward Rule.previousSpan where
  ok h := by
    obtain ⟨-, rfl⟩ := Prod.mk.inj (Except.ok.inj h)
    exact List.suffix_refl _
  error h := nomatch h

theorem Forward.ifNext {kind : Kind} {r : Span → Rule α} {otherwise : Rule α}
    (hr : ∀ s, Forward (r s)) (ho : Forward otherwise) : Forward (Rule.ifNext kind r otherwise) where
  ok := by
    intro c a c' h
    unfold Rule.ifNext at h
    split at h
    · exact ((hr _).ok h).trans c.rest_advance_suffix
    · exact ho.ok h
  error := by
    intro c f h
    unfold Rule.ifNext at h
    split at h
    · exact ((hr _).error h).trans c.rest_advance_suffix
    · exact ho.error h

end Rule

end ChipLogic.Hdl
