import ChipLogic.Netlist.Basic
import ChipLogic.Session.Link
import ChipLogic.Slots

/-!
# Freezing

A chip that links without any error in the session is frozen into a netlist: a copy of the chip and
of every chip that its parts lead to. The chip itself comes first, the others in the order in which
they are met, level by level, parts in order; each is copied once.
-/

namespace ChipLogic

/-- A broken promise of the program itself, never the fault of a text. -/
structure InternalError where
  reason : String
  deriving DecidableEq, Repr

def InternalError.message (e : InternalError) : String :=
  s!"internal error: {e.reason}"

namespace Session

/-- Adds the chips of parts to those met so far. -/
def meetAll (name : String) (met : List Nat) :
    List (Numbered Part) → Except InternalError (List Nat)
  | [] => .ok met
  | slot :: slots =>
    match slot.item.resolved with
    | none => .error ⟨s!"part {handle slot.index} of linked chip `{name}` is unresolved"⟩
    | some child => meetAll name (if met.contains child then met else met ++ [child]) slots

/-- All chips met from those in `met`, the ones before position `next` having been gone through. -/
def reach (s : Session) : Nat → List Nat → Nat → Except InternalError (List Nat)
  | 0, met, _ => .ok met
  | fuel + 1, met, next =>
    match met[next]? with
    | none => .ok met
    | some id =>
      let d := (s.definition? id).getD default
      match meetAll d.name met d.partSlots.toList with
      | .error e => .error e
      | .ok met => s.reach fuel met (next + 1)

/-- The copy of a part; `order` lists the chips of the netlist. -/
def copyPart (order : List Nat) (p : Part) : Except InternalError Instance :=
  match p.resolved.bind fun child => order.findIdx? (· == child) with
  | none => .error ⟨"part chip missing from netlist"⟩
  | some chip => .ok ⟨chip, p.chip, p.wires, p.span⟩

/-- The copy of a part with the number that it carries. -/
def copySlot (order : List Nat) (slot : Numbered Part) :
    Except InternalError (Numbered Instance) :=
  (copyPart order slot.item).map fun part => ⟨slot.index, part⟩

/-- The copy of a chip. -/
def copyChip (order : List Nat) (d : Definition) : Except InternalError Chip := do
  let parts ← d.partSlots.toList.mapM (copySlot order)
  let kind := match d.gate with
    | some g => ChipKind.gate g
    | none => .composite
  return ⟨d.name, kind, d.pinTable.slots, parts.toArray⟩

/-- The netlist of a chip whose parts are all resolved. A chip is met at most once, so the walk
takes no more steps than there are chips. -/
def copyFrom (s : Session) (top : Nat) : Except InternalError Netlist := do
  let order ← s.reach s.chips.size [top] 0
  let chips ← order.mapM fun id => copyChip order ((s.definition? id).getD default)
  return ⟨chips.toArray, 0⟩

/-- Links a chip and copies it with all chips inside it. There is no netlist if linking fails or
any error was ever reported. -/
def freeze (s : Session) (top : Nat) : Except InternalError (Option Netlist) × Session :=
  let (ok, s) := s.link top
  if ok && !s.log.hasErrors then ((s.copyFrom top).map some, s) else (.ok none, s)

/-- Finds a chip by name and freezes it. -/
def elaborate (s : Session) (name : String) : Except InternalError (Option Netlist) × Session :=
  match s.chip name with
  | (none, s) => (.ok none, s)
  | (some top, s) => s.freeze top

end Session

end ChipLogic
