/-!
# TOML documents

The values of a TOML document and the rules by which its lines build tables.

A table remembers how it came to be (`Form`), because that decides who may add to it:

- a **defined** table has a heading of its own and gets no second one;
- an **implied** table was only passed through by a longer heading and may still get its own;
- a **dotted** table was made by the keys `a.b = …` and takes more keys of that kind, but no
  heading;
- a **sealed** table is an inline one and takes nothing.

A heading may lead through tables of any form but a sealed one; through an array of tables it leads
into the last row. No key is set twice.
-/

namespace ChipLogic.Toml

/-- How a table came to be. -/
inductive Form where
  | defined
  | implied
  | dotted
  | sealed
  deriving DecidableEq, Repr, Inhabited

/-- A value. Dates and floats are kept as they are written. -/
inductive Node where
  | text (value : String)
  | integer (value : Int)
  | boolean (value : Bool)
  | float (literal : String)
  | date (literal : String)
  | array (items : List Node)
  | table (form : Form) (entries : List (String × Node))
  /-- An array of tables, one for each heading in double brackets. -/
  | rows (tables : List (List (String × Node)))
  deriving Repr, Inhabited

/-- The keys of a table with their values. -/
abbrev Entries := List (String × Node)

/-- The entries with a new value for a key. -/
def Entries.put (entries : Entries) (name : String) (node : Node) : Entries :=
  entries.filter (·.1 != name) ++ [(name, node)]

/-- A key: the tables on the way and the name in the last of them. -/
structure Key where
  parents : List String
  name : String
  deriving DecidableEq, Repr

/-- A key with its value. -/
structure Setting where
  key : Key
  value : Node
  deriving Repr

/-- A heading and the settings under it. -/
structure Block where
  /-- A heading in double brackets adds a row to an array of tables. -/
  addsRow : Bool
  key : Key
  settings : List Setting
  deriving Repr

/-- Changes the last table of an array of tables. -/
def onLast (change : Entries → Option Entries) : List Entries → Option (List Entries)
  | [] => none
  | [row] => (change row).map ([·])
  | row :: rows => (onLast change rows).map (row :: ·)

/-- Sets a new key below the tables of a dotted key. Those that are missing are made; the last must
be a dotted one. -/
def setAt (name : String) (value : Node) : List String → Entries → Option Entries
  | [], entries =>
    if (entries.lookup name).isSome then none else some (entries.put name value)
  | parent :: parents, entries =>
    match entries.lookup parent with
    | none => (setAt name value parents []).map fun sub => entries.put parent (.table .dotted sub)
    | some (.table form sub) =>
      if form = .dotted ∨ (form = .implied ∧ parents ≠ []) then
        (setAt name value parents sub).map fun sub => entries.put parent (.table form sub)
      else none
    | some (.rows tables) =>
      if parents = [] then none
      else (onLast (setAt name value parents) tables).map fun tables =>
        entries.put parent (.rows tables)
    | some _ => none

/-- Sets keys in order. -/
def setAll (settings : List Setting) (entries : Entries) : Option Entries :=
  settings.foldlM (fun entries s => setAt s.key.name s.value s.key.parents entries) entries

/-- The inline table of some settings. -/
def inlineTable (settings : List Setting) : Option Node :=
  (setAll settings []).map (.table .sealed)

/-- Fills the table that a heading names, below its parents. -/
def defineAt (addsRow : Bool) (name : String) (fill : Entries → Option Entries) :
    List String → Entries → Option Entries
  | [], entries =>
    match addsRow, entries.lookup name with
    | true, none => (fill []).map fun row => entries.put name (.rows [row])
    | true, some (.rows tables) =>
      (fill []).map fun row => entries.put name (.rows (tables ++ [row]))
    | false, none => (fill []).map fun sub => entries.put name (.table .defined sub)
    | false, some (.table .implied sub) =>
      (fill sub).map fun sub => entries.put name (.table .defined sub)
    | _, some _ => none
  | parent :: parents, entries =>
    match entries.lookup parent with
    | none =>
      (defineAt addsRow name fill parents []).map fun sub =>
        entries.put parent (.table .implied sub)
    | some (.table form sub) =>
      if form = .sealed then none
      else (defineAt addsRow name fill parents sub).map fun sub =>
        entries.put parent (.table form sub)
    | some (.rows tables) =>
      (onLast (defineAt addsRow name fill parents) tables).map fun tables =>
        entries.put parent (.rows tables)
    | some _ => none

/-- The document of the settings before the first heading and of the parts after it. -/
def build (settings : List Setting) (parts : List Block) : Option Entries := do
  let root ← setAll settings []
  parts.foldlM
    (fun entries p => defineAt p.addsRow p.key.name (setAll p.settings) p.key.parents entries) root

end ChipLogic.Toml
