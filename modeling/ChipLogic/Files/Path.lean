/-!
# Paths

Paths as they are written: names with `/` between them. Joining puts one path after another
(`joinPath`) without simplifying either, so a path is shown the way its parts were given.
-/

namespace ChipLogic

/-- Starts at the root. -/
def isAbsolute (path : String) : Bool :=
  path.toList.head? == some '/'

/-- `path` seen from `base`: an absolute path stays, else one `/` goes between the two where it is
missing. -/
def joinPath (base path : String) : String :=
  if isAbsolute path || base.isEmpty then path
  else if base.toList.getLast? == some '/' then base ++ path
  else base ++ "/" ++ path

/-- Splits a text at every `/`. -/
def splitSlashes : List Char → List (List Char)
  | [] => [[]]
  | c :: cs =>
    let names := splitSlashes cs
    if c = '/' then [] :: names
    else match names with
      | [] => [[c]]
      | name :: more => (c :: name) :: more

/-- The root or the leading `.` of a path, and the rest. -/
def splitStart (path : String) : String × List Char :=
  match path.toList with
  | '/' :: rest => ("/", rest)
  | ['.'] => (".", [])
  | '.' :: '/' :: rest => (".", '/' :: rest)
  | chars => ("", chars)

/-- Names without the empty ones and the `.` at the end, which mean nothing there. -/
def trimNames (names : List String) : List String :=
  (names.reverse.dropWhile fun name => name == "" || name == ".").reverse

/-- The path of the directory around a path, its text unchanged but for the end. The root and the
empty path have none. -/
def parentPath? (path : String) : Option String :=
  let (start, rest) := splitStart path
  let names := trimNames ((splitSlashes rest).map String.ofList)
  match names, start with
  | [], "." => some ""
  | [], _ => none
  | names, start => some (start ++ "/".intercalate (trimNames names.dropLast))

/-- A path and the directories around it, from the inside out, at most `count` of them. -/
def ancestorsUpTo : (count : Nat) → String → List String
  | 0, path => [path]
  | count + 1, path =>
    match parentPath? path with
    | some parent => path :: ancestorsUpTo count parent
    | none => [path]

/-- A path and all directories around it, from the inside out. There are no more of them than
characters in the path. -/
def ancestors (path : String) : List String :=
  ancestorsUpTo path.length path

/-- The file that a chip is kept in. -/
def chipFileName (chip : String) : String :=
  chip ++ ".hdl"

end ChipLogic
