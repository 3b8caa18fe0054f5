import ChipLogic.Files.Disk
import ChipLogic.Files.Path

/-!
# File trees

A tree of directories and files under a root directory, and the disk that a program sees from a
working directory in it. A path is followed name by name: every name but the last must lead to a
directory, `.` stays, `..` goes up. A name has at most 255 bytes, a path fewer than 4096.
-/

namespace ChipLogic

/-- What stands at a place of a tree. -/
inductive Node where
  | file (bytes : ByteArray)
  | directory

/-- A root directory and the places below it, by their names from the root down. Directories on the
way to a place need not be listed. -/
structure FileTree where
  root : List String
  places : List (List String × Node)

namespace FileTree

/-- What stands at a place given by names from the top of the file system. -/
def find? (t : FileTree) (names : List String) : Option Node :=
  match t.places.find? fun place => t.root ++ place.1 == names with
  | some place => some place.2
  | none =>
    if names.isPrefixOf t.root || t.places.any fun place => names.isPrefixOf (t.root ++ place.1) then
      some .directory
    else none

/-- Follows names from a place. -/
def follow (t : FileTree) (here : List String) : List String → Except ReadError (List String × Node)
  | [] =>
    match t.find? here with
    | some node => .ok (here, node)
    | none => .error .notFound
  | name :: names =>
    match t.find? here with
    | none => .error .notFound
    | some (.file _) => .error .notDirectory
    | some .directory =>
      if name == "" || name == "." then t.follow here names
      else if name == ".." then t.follow here.dropLast names
      else if 255 < name.utf8ByteSize then .error .nameTooLong
      else t.follow (here ++ [name]) names

/-- What a path leads to, seen from a working directory. -/
def lookup (t : FileTree) (here : List String) (path : String) : Except ReadError Node :=
  if path.toList.contains '\x00' then .error .nulInName
  else if path.isEmpty then .error .notFound
  else if 4096 ≤ path.utf8ByteSize then .error .nameTooLong
  else
    let start := if isAbsolute path then [] else here
    (t.follow start ((splitSlashes path.toList).map String.ofList)).map (·.2)

/-- The text of a file. -/
def textOf : Node → Except ReadError String
  | .directory => .error .isDirectory
  | .file bytes =>
    match String.fromUTF8? bytes with
    | some text => .ok text
    | none => .error .notText

/-- The texts of all files of a tree. -/
def texts (t : FileTree) : List String :=
  t.places.filterMap fun place => (textOf place.2).toOption

theorem mem_places_of_find? {t : FileTree} {names : List String} {bytes : ByteArray}
    (h : t.find? names = some (.file bytes)) : ∃ place ∈ t.places, place.2 = .file bytes := by
  unfold find? at h
  split at h
  · next place hp =>
    exact ⟨place, List.mem_of_find?_eq_some hp, Option.some.inj h⟩
  · split at h <;> cases h

theorem find?_of_follow {t : FileTree} {here names : List String} {place : List String × Node}
    (h : t.follow here names = .ok place) : t.find? place.1 = some place.2 := by
  fun_induction follow t here names with
  | case1 here node hn => cases h; exact hn
  | case2 => cases h
  | case3 => cases h
  | case4 => cases h
  | case5 _ _ _ _ _ ih => exact ih h
  | case6 _ _ _ _ _ _ ih => exact ih h
  | case7 => cases h
  | case8 _ _ _ _ _ _ _ ih => exact ih h

theorem mem_texts_of_lookup {t : FileTree} {here : List String} {path text : String}
    (h : t.lookup here path >>= textOf = .ok text) : text ∈ t.texts := by
  unfold lookup at h
  split at h
  · cases h
  split at h
  · cases h
  split at h
  · cases h
  · dsimp only at h
    generalize hs : t.follow _ _ = found at h
    cases found with
    | error e => cases h
    | ok place =>
      have hn := find?_of_follow hs
      change textOf place.2 = .ok text at h
      cases hp : place.2 with
      | directory => rw [hp] at h; cases h
      | file bytes =>
        rw [hp] at hn h
        obtain ⟨p, hmem, hfile⟩ := mem_places_of_find? hn
        exact List.mem_filterMap.2 ⟨p, hmem, by rw [hfile, h]; rfl⟩

/-- The disk seen from a working directory. -/
def disk (t : FileTree) (here : List String) : Disk where
  read path := t.lookup here path >>= textOf
  isFile path :=
    match t.lookup here path with
    | .ok (.file _) => true
    | _ => false
  texts := t.texts
  mem_texts := mem_texts_of_lookup

end FileTree

end ChipLogic
