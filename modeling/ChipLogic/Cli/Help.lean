import ChipLogic.Cli.Arguments
import ChipLogic.Text.Align

/-!
# Help

What the program says about itself: its version, and how it and its commands are used (`helpText`).

Help is brief or full. Brief help has an entry in a line, with the explanations in a column of
their own. Full help has the explanation below the entry, and says what each choice of a value
means. Where there are no choices, full help is the same as brief help.
-/

namespace ChipLogic.Cli

def versionText : String := "gatesim 0.1.0\n"

/-- An option or a word, and what it means. -/
structure HelpEntry where
  spelling : String
  text : String
  /-- The value that stands when none is given. -/
  usual : Option String := none
  /-- The values that can be given, each with its meaning. -/
  choices : List (String × String) := []
  deriving DecidableEq, Repr

/-! ## What there is to say -/

/-- What a command does. -/
def Command.purpose : Command → String
  | .check => "Load and link a chip, reporting every diagnostic"
  | .render => "Print the canonical HDL of a chip"
  | .eval => "Settle a chip for one set of inputs and print its outputs"
  | .table => "Print the truth table of a chip"

def helpPurpose : String := "Print this message or the help of the given subcommand(s)"

def HelpTopic.purpose : HelpTopic → String
  | .program => "gatesim HDL engine"
  | .command c => c.purpose
  | .help => helpPurpose

/-- The words that a command takes. -/
def Command.words : Command → List HelpEntry
  | .eval =>
    [{ spelling := "<CHIP>", text := "Chip name" },
      { spelling := "[INPUTS]...",
        text := "Input assignments such as `a=1`, `sel=0b10` or `in=0xff`" }]
  | _ =>
    [{ spelling := "[CHIP]", text := "Chip name (default: `project.top` from `gatesim.toml`)" }]

def HelpTopic.words : HelpTopic → List HelpEntry
  | .program => []
  | .command c => c.words
  | .help => [{ spelling := "[COMMAND]...", text := "Print help for the subcommand(s)" }]

/-- The line that shows how a command line is put together. -/
def HelpTopic.usage : HelpTopic → String
  | .program => "gatesim [OPTIONS] <COMMAND>"
  | .command c => " ".intercalate (["gatesim", c.name, "[OPTIONS]"] ++ c.words.map (·.spelling))
  | .help => "gatesim help [COMMAND]..."

def formatChoices : List (String × String) :=
  [("text", "Human-readable terminal output"), ("json", "Machine-readable JSON output")]

def colourChoices : List (String × String) :=
  [("auto", "Detect from terminal capabilities"), ("always", "Always produce colored output"),
    ("never", "Never produce colored output")]

/-- The option for the form of a result, of the commands that have it. -/
def formatEntry (subject : String) : HelpEntry where
  spelling := "-f, --format <FORMAT>"
  text := "Output format for the " ++ subject
  usual := some "text"
  choices := formatChoices

/-- The options that may stand anywhere. -/
def sharedOptions : List HelpEntry :=
  [{ spelling := "-q, --quiet", text := "Suppress all output except errors" },
    { spelling := "-v, --verbose", text := "Enable verbose (debug-level) output" },
    { spelling := "    --color <COLOR>", text := "Control colored output", usual := some "auto",
      choices := colourChoices },
    { spelling := "    --config <CONFIG>",
      text := "Path to a `gatesim.toml` file or the directory holding one" },
    { spelling := "    --lib <LIB>",
      text := "Folder holding `<Chip>.hdl` files. Overrides the project's `library`" }]

/-- The option for help. It says how to get the other kind of help. -/
def helpEntry : Detail → HelpEntry
  | .brief => { spelling := "-h, --help", text := "Print help (see more with '--help')" }
  | .full => { spelling := "-h, --help", text := "Print help (see a summary with '-h')" }

def HelpTopic.options (detail : Detail) : HelpTopic → List HelpEntry
  | .program =>
    sharedOptions ++ [helpEntry detail, { spelling := "-V, --version", text := "Print version" }]
  | .command .eval => formatEntry "settled pins" :: (sharedOptions ++ [helpEntry detail])
  | .command .table => formatEntry "table" :: (sharedOptions ++ [helpEntry detail])
  | .command _ => sharedOptions ++ [helpEntry detail]
  | .help => []

/-! ## How it is laid out -/

/-- Lines in two columns. -/
def columns (rows : List (String × String)) : List String :=
  let width := (rows.map (·.1.length)).foldl max 0
  rows.map fun (left, right) =>
    "  " ++ String.ofList (leftAligned width left.toList) ++ "  " ++ right

namespace HelpEntry

/-- The explanation in a line, with the values at its end. -/
def line (e : HelpEntry) : String :=
  let usual := (e.usual.map fun value => s!" [default: {value}]").getD ""
  let choices :=
    if e.choices.isEmpty then ""
    else " [possible values: " ++ ", ".intercalate (e.choices.map (·.1)) ++ "]"
  e.text ++ usual ++ choices

/-- The blanks before an explanation below its entry. -/
def indent : String := String.ofList (List.replicate 10 ' ')

/-- A choice of a value, its meaning aligned with those of the others. -/
def choiceLine (width : Nat) (choice : String × String) : String :=
  indent ++ "- " ++ String.ofList (leftAligned (width + 1) (choice.1 ++ ":").toList) ++ " " ++
    choice.2

/-- The entry with its explanation below: what it means, the choices, and the usual one. -/
def paragraphs (e : HelpEntry) : String :=
  let usual := match e.usual with
    | some value => [indent, indent ++ s!"[default: {value}]"]
    | none => []
  let width := (e.choices.map (·.1.length)).foldl max 0
  let choices :=
    if e.choices.isEmpty then []
    else ["", indent ++ "Possible values:"] ++ e.choices.map (choiceLine width)
  "\n".intercalate (["  " ++ e.spelling, indent ++ e.text] ++ choices ++ usual)

end HelpEntry

/-- Entries under a title. There is no title over nothing. -/
def helpSection (detail : Detail) (title : String) (entries : List HelpEntry) : List String :=
  if entries.isEmpty then []
  else
    let body := match detail with
      | .brief => "\n".intercalate (columns (entries.map fun e => (e.spelling, e.line)))
      | .full => "\n\n".intercalate (entries.map (·.paragraphs))
    [title ++ ":\n" ++ body]

/-- The commands, one in a line. -/
def commandSection : HelpTopic → List String
  | .program =>
    let rows := Command.all.map (fun c => (c.name, c.purpose)) ++ [("help", helpPurpose)]
    ["Commands:\n" ++ "\n".intercalate (columns rows)]
  | _ => []

/-- The help on a topic. -/
def helpText (topic : HelpTopic) (detail : Detail) : String :=
  let options := topic.options detail
  let detail := if options.all (·.choices.isEmpty) then .brief else detail
  "\n\n".intercalate ([topic.purpose, "Usage: " ++ topic.usage] ++ commandSection topic ++
    helpSection detail "Arguments" topic.words ++ helpSection detail "Options" options) ++ "\n"

end ChipLogic.Cli
