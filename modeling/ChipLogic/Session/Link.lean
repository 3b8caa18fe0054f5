import ChipLogic.Session.Connect

/-!
# Linking

To link a chip is to find the chip of each part, to link that chip first, and to make wires of the
part's connections. Every part is looked at even after one failed, so one run reports all problems.
The result is kept: a chip is linked once, and never changes afterwards.

**Circles.** A part whose chip is in progress closes a circle and is reported at that part. The
walk goes down one chip at a time and each chip on the way is in progress, so it is never deeper
than there are chips. `Session.chipBound` bounds that number in advance: chips come from the session
as it is, from texts of the disk, each shorter than the text that declares it, and from the gates.
A part below that depth is on a circle too.

**Warnings** are given for a chip that linked well: W200 for an output or net that no wire drives,
W201 for an input of a part that no wire feeds.
-/

namespace ChipLogic

namespace Session

/-! ## Warnings -/

/-- The inputs of a part's chip that no wire feeds. -/
def unfed (d : Definition) (wires : List Wire) : List Pin :=
  (d.pinTable.slots.toList.filter fun slot =>
    slot.item.kind == .input && !wires.any (·.inner == slot.index)).map (·.item)

/-- The outputs and nets of a chip that no wire drives. -/
def undriven (d : Definition) : List Pin :=
  let wires := d.parts.toList.flatMap Part.wires
  (d.pinTable.slots.toList.filter fun slot =>
    slot.item.kind != .input &&
      !wires.any fun w => w.direction == .sense && w.outer == slot.index).map (·.item)

def warnUnfed (s : Session) (child : Nat) (wires : List Wire) (span : Span) : Session :=
  let d := (s.definition? child).getD default
  s.emitAll ((unfed d wires).map fun p => (Problem.unconnected p.name d.name).report span)

def warnUndriven (s : Session) (id : Nat) : Session :=
  let d := (s.definition? id).getD default
  s.emitAll ((undriven d).map fun p => (Problem.undriven p.name p.kind d.name).report p.span)

/-! ## Parts -/

/-- Records what was found out about a part. -/
def setLink (s : Session) (parent index : Nat) (link : Link) : Session :=
  s.modifyDefinition parent (·.setLink index link) fun d => d.key_setLink index link

/-- How the chip of a part is linked: its position, its name and the place of the part. -/
abbrev ChildLinker := Nat → String → Span → Session → Bool × Session

/-- Links the part at a position of a chip. -/
def linkPart (linkChild : ChildLinker) (parent index : Nat) (s : Session) : Bool × Session :=
  match (s.definition? parent).bind (·.parts[index]?) with
  | none => (false, s)
  | some part =>
    match s.resolve part.chip part.span with
    | (none, s) => (false, s)
    | (some child, s) =>
      let (ok, s) := linkChild child part.chip part.span s
      let (wires, s) := s.connectAll parent child part.connections
      let ok := ok && wires.all Option.isSome
      let wires := wires.filterMap id
      let s := if ok then s.warnUnfed child wires part.span else s
      (ok, s.setLink parent index ⟨child, wires⟩)

/-- Links parts in order; all must link for the result to be good. -/
def linkParts (linkChild : ChildLinker) (parent : Nat) : List Nat → Session → Bool × Session
  | [], s => (true, s)
  | index :: indices, s =>
    let (ok, s) := linkPart linkChild parent index s
    let (rest, s) := linkParts linkChild parent indices s
    (ok && rest, s)

/-! ## Chips -/

/-- Links a chip that was not linked before. -/
def linkFresh (linkChild : ChildLinker) (id : Nat) (s : Session) : Bool × Session :=
  let d := (s.definition? id).getD default
  if d.gate.isSome then (true, s.setStatus id (.linked true))
  else
    let s := s.setStatus id .inProgress
    let (ok, s) := linkParts linkChild id (List.range d.parts.size) s
    let s := if ok then s.warnUndriven id else s
    (ok, s.setStatus id (.linked ok))

/-- Links the chip of a part. -/
def linkWithin : Nat → ChildLinker
  | 0, _, name, span, s => (false, s.report (.circular name) span)
  | depth + 1, child, name, span, s =>
    match s.status? child with
    | some (.linked ok) => (ok, s)
    | some .unlinked => linkFresh (linkWithin depth) child s
    | _ => (false, s.report (.circular name) span)

/-- More chips than the session can ever hold while it links. -/
def chipBound (s : Session) : Nat :=
  s.chips.size + Gate.all.length + s.disk.weight

/-- Links a chip and all chips inside it. An unknown chip does not link. -/
def link (s : Session) (id : Nat) : Bool × Session :=
  match s.status? id with
  | some (.linked ok) => (ok, s)
  | some .unlinked => linkFresh (linkWithin s.chipBound) id s
  | _ => (false, s)

end Session

end ChipLogic
