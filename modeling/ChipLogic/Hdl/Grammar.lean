import ChipLogic.Hdl.Cursor
import ChipLogic.Hdl.Tree
import ChipLogic.Text.Numeral

/-!
# The grammar of declarations and parts

```text
pin     ::= Name ('[' Number ']')?
ref     ::= Name ('[' Number ('..' Number)? ']')?
binding ::= ref '=' ref
part    ::= Name '(' (binding (',' binding)*)? ')' ';'
header  ::= 'CHIP' Name '{'
```

Each rule stops at its first fault. Numbers are below 2^32.
-/

namespace ChipLogic.Hdl

namespace Rule

/-- A number below 2^32. -/
def number : Rule Nat := fun c =>
  if c.kind = .number then
    match (Numeral.read? 10 c.text.toList).filter (· < UInt32.size) with
    | some n => .ok (n, c.advance)
    | none => .error ⟨.largeNumber, c⟩
  else unexpected (.token .number) c

theorem Forward.number : Forward Rule.number where
  ok := by
    intro c a c' h
    unfold Rule.number at h
    split at h
    · split at h
      · obtain ⟨-, rfl⟩ := Prod.mk.inj (Except.ok.inj h)
        exact c.rest_advance_suffix
      · cases h
    · cases h
  error := by
    intro c f h
    unfold Rule.number at h
    split at h
    · split at h
      · cases h
      · cases h; exact List.suffix_refl _
    · exact (Forward.unexpected _).error h

/-- The width of a declared pin, in brackets. -/
def width : Rule (Option Nat) :=
  ifNext .leftBracket
    (fun _ => do
      let n ← number
      let _ ← token .rightBracket
      return some n)
    (pure none)

theorem Forward.width : Forward Rule.width :=
  .ifNext (fun _ => .bind .number fun _ => .bind (.token _) fun _ => .pure _) (.pure _)

/-- A declared pin. -/
def pin : Rule PinNode := do
  let (name, start) ← name
  let width ← width
  let stop ← previousSpan
  return ⟨name, width, start.merge stop⟩

theorem Forward.pin : Forward Rule.pin :=
  .bind .name fun _ => .bind .width fun _ => .bind .previousSpan fun _ => .pure _

theorem Consumes.pin : Consumes Rule.pin :=
  .bind .name fun _ => .bind .width fun _ => .bind .previousSpan fun _ => .pure _

/-- The range of a reference, in brackets. -/
def range : Rule (Option RangeNode) :=
  ifNext .leftBracket
    (fun start => do
      let first ← number
      let last ← ifNext .dotDot (fun _ => number) (pure first)
      let stop ← token .rightBracket
      return some ⟨first, last, start.merge stop⟩)
    (pure none)

theorem Forward.range : Forward Rule.range :=
  .ifNext
    (fun _ => .bind .number fun _ =>
      .bind (.ifNext (fun _ => .number) (.pure _)) fun _ => .bind (.token _) fun _ => .pure _)
    (.pure _)

/-- A name with or without a range. -/
def ref : Rule RefNode := do
  let (name, start) ← name
  let range ← range
  let stop ← previousSpan
  return ⟨name, range, start.merge stop⟩

theorem Forward.ref : Forward Rule.ref :=
  .bind .name fun _ => .bind .range fun _ => .bind .previousSpan fun _ => .pure _

theorem Consumes.ref : Consumes Rule.ref :=
  .bind .name fun _ => .bind .range fun _ => .bind .previousSpan fun _ => .pure _

/-- A binding of a part's pin. -/
def binding : Rule BindingNode := do
  let inner ← ref
  let _ ← token .equals
  let outer ← ref
  return ⟨inner, outer, inner.span.merge outer.span⟩

theorem Forward.binding : Forward Rule.binding :=
  .bind .ref fun _ => .bind (.token _) fun _ => .bind .ref fun _ => .pure _

theorem Consumes.binding : Consumes Rule.binding :=
  .bind .ref fun _ => .bind (.token _) fun _ => .bind .ref fun _ => .pure _

/-- One or more bindings with commas between them. -/
def bindings (c : Cursor) : Except Failure (List BindingNode × Cursor) :=
  match _h : binding c with
  | .error f => .error f
  | .ok (b, c₁) =>
    if c₁.kind = .comma then
      match bindings c₁.advance with
      | .error f => .error f
      | .ok (bs, c₂) => .ok (b :: bs, c₂)
    else .ok ([b], c₁)
termination_by c.rest.length
decreasing_by
  exact Nat.lt_of_le_of_lt c₁.rest_advance_suffix.length_le (Consumes.binding.ok _h)

theorem Forward.bindings : Forward Rule.bindings where
  ok := by
    intro c a c' h
    fun_induction Rule.bindings c generalizing a c' with
    | case1 => cases h
    | case2 => cases h
    | case3 c b c₁ hb hk bs c₂ hbs ih =>
      obtain ⟨-, rfl⟩ := Prod.mk.inj (Except.ok.inj h)
      exact ((ih hbs).trans c₁.rest_advance_suffix).trans (Forward.binding.ok hb)
    | case4 c b c₁ hb =>
      obtain ⟨-, rfl⟩ := Prod.mk.inj (Except.ok.inj h)
      exact Forward.binding.ok hb
  error := by
    intro c f h
    fun_induction Rule.bindings c generalizing f with
    | case1 c e hb => cases h; exact Forward.binding.error hb
    | case2 c b c₁ hb hk e he ih =>
      cases h
      exact ((ih he).trans c₁.rest_advance_suffix).trans (Forward.binding.ok hb)
    | case3 => cases h
    | case4 => cases h

/-- The bindings of a part, which end before the closing parenthesis. -/
def arguments : Rule (List BindingNode) := fun c =>
  if c.kind = .rightParen then .ok ([], c) else bindings c

theorem Forward.arguments : Forward Rule.arguments where
  ok := by
    intro c a c' h
    unfold Rule.arguments at h
    split at h
    · obtain ⟨-, rfl⟩ := Prod.mk.inj (Except.ok.inj h)
      exact List.suffix_refl _
    · exact Forward.bindings.ok h
  error := by
    intro c f h
    unfold Rule.arguments at h
    split at h
    · cases h
    · exact Forward.bindings.error h

/-- A part. -/
def part : Rule PartNode := do
  let (chip, start) ← name
  let _ ← token .leftParen
  let bindings ← arguments
  let _ ← token .rightParen
  let stop ← token .semicolon
  return ⟨chip, bindings, start.merge stop⟩

theorem Forward.part : Forward Rule.part :=
  .bind .name fun _ => .bind (.token _) fun _ => .bind .arguments fun _ =>
    .bind (.token _) fun _ => .bind (.token _) fun _ => .pure _

theorem Consumes.part : Consumes Rule.part :=
  .bind .name fun _ => .bind (.token _) fun _ => .bind .arguments fun _ =>
    .bind (.token _) fun _ => .bind (.token _) fun _ => .pure _

/-- The start of a chip up to its brace: the span of the keyword, the name and the name's span. -/
def header : Rule (Span × String × Span) := do
  let start ← token .chip
  let (name, nameSpan) ← name
  let _ ← token .leftBrace
  return (start, name, nameSpan)

theorem Forward.header : Forward Rule.header :=
  .bind (.token _) fun _ => .bind .name fun _ => .bind (.token _) fun _ => .pure _

end Rule

end ChipLogic.Hdl
