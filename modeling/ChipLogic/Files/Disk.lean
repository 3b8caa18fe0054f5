/-!
# Disks

What a session can know of files: the text behind a path, or why there is none. A disk holds
finitely many texts (`Disk.texts`); linking relies on that to come to an end, since every chip that
it loads stands in one of them.
-/

namespace ChipLogic

/-- Why a path gives no text. -/
inductive ReadError where
  | notFound
  | isDirectory
  | notDirectory
  | nameTooLong
  | notText
  | nulInName
  | other (reason : String)
  deriving DecidableEq, Repr

def ReadError.message : ReadError → String
  | .notFound => "No such file or directory (os error 2)"
  | .isDirectory => "Is a directory (os error 21)"
  | .notDirectory => "Not a directory (os error 20)"
  | .nameTooLong => "File name too long (os error 36)"
  | .notText => "stream did not contain valid UTF-8"
  | .nulInName => "file name contained an unexpected NUL byte"
  | .other reason => reason

/-- Finitely many texts behind paths. -/
structure Disk where
  read : String → Except ReadError String
  isFile : String → Bool
  texts : List String
  mem_texts : ∀ {path text}, read path = .ok text → text ∈ texts

namespace Disk

/-- The disk with no file. -/
def empty : Disk where
  read _ := .error .notFound
  isFile _ := false
  texts := []
  mem_texts h := nomatch h

/-- The number of characters of all texts. -/
def weight (d : Disk) : Nat :=
  (d.texts.map String.length).foldr (· + ·) 0

end Disk

/-- What is known of a path. -/
structure Snapshot where
  path : String
  isFile : Bool
  content : Except ReadError String

/-- The disk that knows exactly some paths; no other path leads to a file. -/
def Disk.ofSnapshots (known : List Snapshot) : Disk where
  read path :=
    match known.find? (·.path == path) with
    | some s => s.content
    | none => .error .notFound
  isFile path := ((known.find? (·.path == path)).map (·.isFile)).getD false
  texts := known.filterMap fun s => s.content.toOption
  mem_texts := by
    intro path text h
    split at h
    · next s hs =>
      exact List.mem_filterMap.2 ⟨s, List.mem_of_find?_eq_some hs, by rw [h]; rfl⟩
    · cases h

end ChipLogic
