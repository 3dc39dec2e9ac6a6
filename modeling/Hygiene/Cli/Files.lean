/-!
# Files held in memory

Files below the current directory, looked up by path, name by name: every name before the last must be a directory. A
path may leave the current directory; only the directories that lead to it are known there.
-/

namespace Hygiene

/-- Why a file cannot be read. -/
inductive FileFault where
  | notFound
  | notADirectory
  | isADirectory
  | nameTooLong
  | containsNul
deriving Repr, DecidableEq

/-- The message of the system for a fault. -/
def FileFault.message : FileFault → String
  | notFound => "No such file or directory (os error 2)"
  | notADirectory => "Not a directory (os error 20)"
  | isADirectory => "Is a directory (os error 21)"
  | nameTooLong => "File name too long (os error 36)"
  | containsNul => "file name contained an unexpected NUL byte"

/-- The fault that the system reports under a number. -/
def FileFault.ofNumber? : Nat → Option FileFault
  | 2 => some notFound
  | 20 => some notADirectory
  | 21 => some isADirectory
  | 36 => some nameTooLong
  | _ => none

/-- How many bytes a name in a path may have. -/
def maxNameLength : Nat := 255

/-- How many bytes a path may have. -/
def maxPathLength : Nat := 4095

/-- Files below the current directory, each under the names that lead to it. -/
structure Files where
  entries : List (List String × String) := []

/-- Where the names of a path lead: below the current directory, or to a directory above it. -/
inductive Place where
  | below (names : List String)
  | above
deriving Repr, DecidableEq

/-- The directory around a place. -/
def Place.parent : Place → Place
  | below [] => above
  | below (name :: names) => below (name :: names).dropLast
  | above => above

namespace Files

/-- The names of a path. -/
def names (path : String) : List String := (path.toList.splitOn '/').map String.ofList

/-- Whether a name stays where it stands. -/
def staysHere (name : String) : Bool := name = "" || name = "."

/-- Files by their paths. Of several files under one path the last one counts. -/
def ofList (files : List (String × String)) : Files :=
  ⟨files.reverse.map fun (path, text) => ((names path).filter (!staysHere ·), text)⟩

/-- The text of the file under these names. -/
def text? (f : Files) (names : List String) : Option String := (f.entries.find? (·.1 = names)).map (·.2)

/-- Whether these names lead to a directory: there is a file below it. -/
def isBranch (f : Files) (names : List String) : Bool :=
  names.isEmpty || f.entries.any fun (entry, _) => names.isPrefixOf entry && names.length < entry.length

/-- Whether a place is a directory. -/
def isDirectory (f : Files) : Place → Bool
  | .below names => f.isBranch names
  | .above => true

/-- Looks a name up in a directory. -/
def enter (f : Files) (place : Place) (name : String) : Except FileFault Place :=
  if maxNameLength < name.utf8ByteSize then .error .nameTooLong
  else match place with
    | .above => .error .notFound
    | .below names =>
      let child := names ++ [name]
      if (f.text? child).isSome || f.isBranch child then .ok (.below child) else .error .notFound

/-- Follows one name from a place, which must be a directory. -/
def follow (f : Files) (place : Place) (name : String) : Except FileFault Place :=
  if !f.isDirectory place then .error .notADirectory
  else if staysHere name then .ok place
  else if name = ".." then .ok place.parent
  else f.enter place name

/-- The place that a path leads to. -/
def locate (f : Files) (path : String) : Except FileFault Place :=
  if path.contains '\x00' then .error .containsNul
  else if maxPathLength < path.utf8ByteSize then .error .nameTooLong
  else if path.isEmpty then .error .notFound
  else (names path).foldlM f.follow (if path.startsWith "/" then .above else .below [])

/-- Reads the file at a path. -/
def read (f : Files) (path : String) : Except FileFault String := do
  match ← f.locate path with
  | .above => throw .isADirectory
  | .below names => match f.text? names with
    | some text => return text
    | none => throw .isADirectory

end Files

end Hygiene
