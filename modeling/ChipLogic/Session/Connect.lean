import ChipLogic.Session.Resolve

/-!
# Connections

A connection of a part becomes a wire if its two sides fit. The inner side must be a terminal of
the part's chip. The outer side is a pin of the chip around the part; a name not declared there
becomes a new internal net. Both sides must have the same number of bits, and an output cannot
drive an input of the chip around it.

**The width of a net** does not depend on which connection names it first
(`Session.netWidth`): it is the least width that every mention of the net in the chip allows, up to
the last bit of a mention with a range, and the full width of the other side for one without. Widths
are counted in 32 bits, so a mention of the very last position asks for no bit at all
(`BitRange.extent`); such a mention then fits no net but the one that it makes itself.
-/

namespace ChipLogic

namespace Session

/-- The pin of a part's chip that a reference names, and its position. -/
def innerPin (s : Session) (child : Nat) (r : Reference) : Except Problem (Nat × Pin) :=
  let d := (s.definition? child).getD default
  match d.pinNamed? r.key with
  | none => .error (.unknownPin r.name d.name)
  | some (i, p) =>
    if !p.isTerminal then .error (.internalPin r.name d.name)
    else match r.range with
      | none => .ok (i, p)
      | some range => if range.fits p.width then .ok (i, p) else .error (.badRange r.name range p.width)

/-- A mention of a net: the chip and the place of the part, and both sides. -/
structure Mention where
  chip : String
  span : Span
  inner : Reference
  range : Option BitRange
  deriving DecidableEq, Repr

/-- All mentions of a net in the parts of a chip. -/
def mentions (s : Session) (parent : Nat) (key : String) : List Mention :=
  let parts := ((s.definition? parent).map (·.parts.toList)).getD []
  parts.flatMap fun p =>
    (p.connections.filter (·.outer.key == key)).map fun c =>
      ⟨p.chip, p.span, c.inner, c.outer.range⟩

/-- The bits of a pin that a reference to it means, if it means any. -/
def bitsMeant (pin : Option Pin) (r : Reference) : Nat :=
  match pin with
  | none => 0
  | some p =>
    match r.range with
    | none => p.width
    | some range => if range.fits p.width then range.width else 0

/-- The width that a mention asks of its net. Chips are looked up, and so may be loaded. -/
def mentionWidth (s : Session) (m : Mention) : Nat × Session :=
  match m.range with
  | some range => (if range.isOrdered then range.extent else 0, s)
  | none =>
    match s.resolve m.chip m.span with
    | (none, s) => (0, s)
    | (some child, s) =>
      let pin := (s.definition? child).bind fun d => (d.pinNamed? m.inner.key).map (·.2)
      (bitsMeant pin m.inner, s)

/-- The greatest width asked for by mentions, and at least `width`. -/
def widestMention (s : Session) (width : Nat) : List Mention → Nat × Session
  | [] => (width, s)
  | m :: ms =>
    let (asked, s) := s.mentionWidth m
    s.widestMention (max width asked) ms

/-- The width of an undeclared net, and at least `width`. -/
def netWidth (s : Session) (parent : Nat) (key : String) (width : Nat) : Nat × Session :=
  s.widestMention width (s.mentions parent key)

/-- Adds an internal net for a reference. `width` is the width of the other side. -/
def addNet (s : Session) (parent : Nat) (r : Reference) (width : Nat) : Option (Nat × Pin) × Session :=
  let least := match r.range with
    | none => width
    | some range => range.extent
  let (width, s) := s.netWidth parent r.key least
  let pin : Pin := ⟨r.name, width, .internal, r.span⟩
  match s.addPinTo parent pin with
  | (some i, s) => (some (i, pin), s)
  | (none, s) => (none, s)

/-- The pin of the chip around a part that a reference names, made now if there is none. -/
def outerPin (s : Session) (parent : Nat) (r : Reference) (width : Nat) :
    Option (Nat × Pin) × Session :=
  match (s.definition? parent).bind (·.pinNamed? r.key) with
  | some (i, p) =>
    match r.range with
    | none => (some (i, p), s)
    | some range =>
      if range.fits p.width then (some (i, p), s)
      else (none, s.report (.badRange r.name range p.width) r.span)
  | none =>
    match r.range with
    | none => s.addNet parent r width
    | some range =>
      if range.isOrdered then s.addNet parent r width
      else (none, s.report (.badRange r.name range range.extent) r.span)

/-- The wire of a connection between two pins at known positions. -/
def join (c : Connection) (inner outer : Nat × Pin) : Except Problem Wire :=
  let innerWidth := c.inner.widthOn inner.2.width
  let outerWidth := c.outer.widthOn outer.2.width
  if innerWidth ≠ outerWidth then
    .error (.widthMismatch c.inner.text innerWidth c.outer.text outerWidth)
  else
    let direction := if inner.2.kind = .input then Direction.drive else .sense
    if direction = .sense ∧ outer.2.kind = .input then
      .error (.drivesInput inner.2.name outer.2.name)
    else .ok ⟨direction, inner.1, c.inner.range, outer.1, c.outer.range⟩

/-- Makes a wire of a connection, or reports why it is none. -/
def connect (s : Session) (parent child : Nat) (c : Connection) : Option Wire × Session :=
  match s.innerPin child c.inner with
  | .error p => (none, s.report p c.inner.span)
  | .ok inner =>
    match s.outerPin parent c.outer (c.inner.widthOn inner.2.width) with
    | (none, s) => (none, s)
    | (some outer, s) =>
      match join c inner outer with
      | .error p => (none, s.report p c.span)
      | .ok wire => (some wire, s)

/-- Makes wires of connections in order. A connection that fails does not stop the others. -/
def connectAll (s : Session) (parent child : Nat) : List Connection → List (Option Wire) × Session
  | [] => ([], s)
  | c :: cs =>
    let (wire, s) := s.connect parent child c
    let (wires, s) := s.connectAll parent child cs
    (wire :: wires, s)

end Session

end ChipLogic
