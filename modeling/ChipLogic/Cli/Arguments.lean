import ChipLogic.Cli.Assignment

/-!
# Command lines

A command line is options, a command, and the command's own options and words in any order
(`readArguments`). Options have long names, and some also a letter; letters can share a dash. An
option that takes a value has it after `=`, after the letter, or as the next argument, which then
must not look like an option. After `--` everything is a word.

Options before the command and after it are two levels. Within a level no option is given twice; a
value after the command counts more than one before it. The arguments are read from left to right,
and the first that makes no sense ends the reading, as do the wishes for help and for the version.
A value that is an argument of its own is looked at only when its level goes on or all is read. So
help on a command is given even if the value right before the command makes no sense.
-/

namespace ChipLogic.Cli

/-- What the program is asked to do. -/
inductive Command where
  | check
  | render
  | eval
  | table
  deriving DecidableEq, Repr, Inhabited

def Command.all : List Command := [.check, .render, .eval, .table]

def Command.name : Command → String
  | .check => "check"
  | .render => "render"
  | .eval => "eval"
  | .table => "table"

/-- Whether colours are wanted. -/
inductive Colour where
  /-- When writing to a terminal. -/
  | auto
  | always
  | never
  deriving DecidableEq, Repr, Inhabited

/-- The form of a result. -/
inductive Format where
  | text
  | json
  deriving DecidableEq, Repr, Inhabited

/-- How much help is wanted. -/
inductive Detail where
  | brief
  | full
  deriving DecidableEq, Repr

/-- What help is wanted on. -/
inductive HelpTopic where
  | program
  | command (c : Command)
  /-- Help itself. -/
  | help
  deriving DecidableEq, Repr

/-- An option. -/
inductive Opt where
  | quiet
  | verbose
  | colour
  | config
  | library
  | format
  | help (detail : Detail)
  | version
  deriving DecidableEq, Repr

namespace Opt

/-- Whether the option stands before a value. -/
def takesValue : Opt → Bool
  | .colour | .config | .library | .format => true
  | _ => false

/-- Whether the option may stand before any command, or after a given one. -/
def isKnown (o : Opt) (command : Option Command) : Bool :=
  match o with
  | .format => command == some .eval || command == some .table
  | .version => command == none
  | _ => true

def ofName? : String → Option Opt
  | "quiet" => some .quiet
  | "verbose" => some .verbose
  | "color" => some .colour
  | "config" => some .config
  | "lib" => some .library
  | "format" => some .format
  | "help" => some (.help .full)
  | "version" => some .version
  | _ => none

def ofLetter? : Char → Option Opt
  | 'q' => some .quiet
  | 'v' => some .verbose
  | 'f' => some .format
  | 'h' => some (.help .brief)
  | 'V' => some .version
  | _ => none

end Opt

/-- The options given at a level. -/
structure Settings where
  quiet : Bool := false
  verbose : Bool := false
  colour : Option Colour := none
  config : Option String := none
  library : Option String := none
  format : Option Format := none
  deriving DecidableEq, Repr

namespace Settings

/-- Turns a switch on. It must not be on already. -/
def switchOn? (s : Settings) : Opt → Option Settings
  | .quiet => if s.quiet then none else some { s with quiet := true }
  | .verbose => if s.verbose then none else some { s with verbose := true }
  | _ => none

/-- Gives an option a value, which must be one that the option knows. It must have none yet. -/
def give? (s : Settings) (o : Opt) (value : String) : Option Settings :=
  match o, value with
  | .colour, "auto" => if s.colour.isSome then none else some { s with colour := some .auto }
  | .colour, "always" => if s.colour.isSome then none else some { s with colour := some .always }
  | .colour, "never" => if s.colour.isSome then none else some { s with colour := some .never }
  | .config, path => if s.config.isSome then none else some { s with config := some path }
  | .library, path => if s.library.isSome then none else some { s with library := some path }
  | .format, "text" => if s.format.isSome then none else some { s with format := some .text }
  | .format, "json" => if s.format.isSome then none else some { s with format := some .json }
  | _, _ => none

/-- The settings of two levels, of which the second counts more. -/
def under (outer inner : Settings) : Settings where
  quiet := outer.quiet || inner.quiet
  verbose := outer.verbose || inner.verbose
  colour := inner.colour.or outer.colour
  config := inner.config.or outer.config
  library := inner.library.or outer.library
  format := inner.format.or outer.format

end Settings

/-- The options of a level as far as they are read. -/
structure Level where
  settings : Settings := {}
  /-- The last option and its value, not looked at yet. -/
  last : Option (Opt × String) := none

/-- A command line that makes sense. -/
structure Invocation where
  command : Command
  chip : Option String
  inputs : List (String × UInt64)
  settings : Settings
  deriving DecidableEq, Repr

/-- Why there is nothing to invoke. -/
inductive Stop where
  /-- The command line makes no sense. -/
  | misuse
  | help (topic : HelpTopic) (detail : Detail)
  | version
  deriving DecidableEq, Repr

/-- How far a command line has been read. -/
structure Reading where
  command : Option Command := none
  /-- The topic that help is wanted on, once the word `help` stands where a command might. -/
  topic : Option HelpTopic := none
  /-- An option whose value is still to come. -/
  pending : Option Opt := none
  /-- The mark `--` was seen. -/
  wordsOnly : Bool := false
  /-- The options before the command. -/
  outer : Level := {}
  /-- The options at the level that is being read. -/
  level : Level := {}
  chip : Option String := none
  inputs : List (String × UInt64) := []

/-- The result of something that fails on misuse. -/
def orMisuse {α : Type} : Option α → Except Stop α
  | some a => .ok a
  | none => .error .misuse

/-- The settings of a level with the last value in its place. -/
def Level.finish (l : Level) : Except Stop Settings :=
  match l.last with
  | some (o, value) => orMisuse (l.settings.give? o value)
  | none => .ok l.settings

namespace Reading

/-- Gives an option a value that is written together with it. -/
def give (r : Reading) (o : Opt) (value : String) : Except Stop Reading := do
  let settings ← r.level.finish
  let settings ← orMisuse (settings.give? o value)
  return { r with level := { settings } }

/-- Gives an option a value that is an argument of its own. -/
def giveLater (r : Reading) (o : Opt) (value : String) : Except Stop Reading := do
  let settings ← r.level.finish
  return { r with level := { settings, last := some (o, value) }, pending := none }

/-- Takes an option that stands alone. -/
def switch (r : Reading) (o : Opt) : Except Stop Reading := do
  let settings ← r.level.finish
  match o with
  | .help detail => .error (.help ((r.command.map .command).getD .program) detail)
  | .version => .error .version
  | o =>
    let settings ← orMisuse (settings.switchOn? o)
    return { r with level := { settings } }

/-- An option that is known where the reading stands. -/
def known (r : Reading) (o : Option Opt) : Except Stop Opt :=
  orMisuse (o.filter (·.isKnown r.command))

/-- Takes an option by its long name, with the value after `=` if there is one. -/
def long (r : Reading) (text : List Char) : Except Stop Reading := do
  let (name, value) := match cutAtEquals text with
    | some (name, value) => (name, some (String.ofList value))
    | none => (text, none)
  let o ← r.known (Opt.ofName? (String.ofList name))
  match o.takesValue, value with
  | true, some value => r.give o value
  | true, none => return { r with pending := some o }
  | false, none => r.switch o
  | false, some _ => .error .misuse

/-- Takes options by their letters. What follows a letter that takes a value is the value. -/
def letters (r : Reading) : List Char → Except Stop Reading
  | [] => .ok r
  | c :: cs => do
    let o ← r.known (Opt.ofLetter? c)
    if o.takesValue then
      match cs with
      | [] => return { r with pending := some o }
      | '=' :: value => r.give o (String.ofList value)
      | value => r.give o (String.ofList value)
    else
      let r ← r.switch o
      r.letters cs

/-- Takes a word where a command may stand. -/
def firstWord (r : Reading) (text : String) : Except Stop Reading :=
  if r.wordsOnly then .error .misuse
  else if text = "help" then .ok { r with topic := some .program, wordsOnly := true }
  else do
    let command ← orMisuse (Command.all.find? (·.name == text))
    return { r with command := some command, outer := r.level, level := {} }

/-- Takes a word after a command: the chip, then assignments if the command evaluates. -/
def laterWord (r : Reading) (command : Command) (text : String) : Except Stop Reading :=
  if r.chip.isNone then .ok { r with chip := some text }
  else if command = .eval then
    match parseAssignment text with
    | .ok input => .ok { r with inputs := r.inputs ++ [input] }
    | .error _ => .error .misuse
  else .error .misuse

/-- The topic named by a word. -/
def topicOf? (text : String) : Option HelpTopic :=
  if text = "help" then some .help
  else (Command.all.find? (·.name == text)).map .command

/-- Takes a word after `help`, which names a topic unless one is named already. -/
def helpWord (r : Reading) (topic : HelpTopic) (text : String) : Except Stop Reading :=
  if topic = .program then do
    let topic ← orMisuse (topicOf? text)
    return { r with topic := some topic }
  else .error .misuse

def word (r : Reading) (text : String) : Except Stop Reading :=
  match r.topic, r.command with
  | some topic, _ => r.helpWord topic text
  | none, none => r.firstWord text
  | none, some command => r.laterWord command text

/-- Takes an argument. -/
def argument (r : Reading) (text : String) : Except Stop Reading :=
  match r.pending, r.wordsOnly, text.toList with
  | some _, _, '-' :: _ :: _ => .error .misuse
  | some o, _, _ => r.giveLater o text
  | none, true, _ => r.word text
  | none, false, ['-', '-'] => .ok { r with wordsOnly := true }
  | none, false, '-' :: '-' :: name => r.long name
  | none, false, '-' :: c :: cs => r.letters (c :: cs)
  | none, false, _ => r.word text

/-- Takes arguments in order. -/
def arguments (r : Reading) : List String → Except Stop Reading
  | [] => .ok r
  | text :: texts => do
    let r ← r.argument text
    r.arguments texts

/-- What a command line that ends here asks for. -/
def finish (r : Reading) : Except Stop Invocation :=
  match r.topic, r.command, r.pending with
  | some topic, _, _ => .error (.help topic .full)
  | none, some command, none => do
    let outer ← r.outer.finish
    let inner ← r.level.finish
    if command = .eval ∧ r.chip = none then .error .misuse
    else return ⟨command, r.chip, r.inputs, outer.under inner⟩
  | _, _, _ => .error .misuse

end Reading

/-- Reads the arguments of a command line. -/
def readArguments (arguments : List String) : Except Stop Invocation := do
  let start : Reading := {}
  let r ← start.arguments arguments
  r.finish

end ChipLogic.Cli
