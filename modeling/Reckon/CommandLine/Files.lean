/-!
# Files

What a path leads to. Files are the leaves of a tree of directories; a path that starts with a
slash starts at the root of the tree, and any other one at the working directory. The names on a
path are followed one by one, and each of them, the empty one after a last slash too, asks for a
directory to look in.

* `Files.read` — the bytes of the file at a path, or why there are none.
-/

namespace Reckon

/-- Why a path leads to no source. -/
inductive FileFault where
  /-- There is no such file. -/
  | missing
  /-- The file may not be read. -/
  | denied
  /-- Something is looked for in what is no directory. -/
  | notDirectory
  /-- The path is that of a directory. -/
  | directory
  /-- The path or a name on it is too long. -/
  | nameTooLong
  /-- The bytes of the file are no UTF-8. -/
  | notText
  /-- Any other reason. -/
  | other (reason : String)
deriving DecidableEq, Repr

/-- The text of the fault. -/
def FileFault.message : FileFault → String
  | missing => "No such file or directory (os error 2)"
  | denied => "Permission denied (os error 13)"
  | notDirectory => "Not a directory (os error 20)"
  | directory => "Is a directory (os error 21)"
  | nameTooLong => "File name too long (os error 36)"
  | notText => "stream did not contain valid UTF-8"
  | other reason => reason

/-- A file, or a directory with what is in it. -/
inductive FileTree where
  | file (bytes : ByteArray)
  | directory (entries : List (String × FileTree))

/-- A place in a tree: what is there, and the directories that it is in, the innermost first. -/
structure Place where
  here : FileTree
  above : List FileTree

/-- A tree of files and the place of the working directory. -/
structure Files where
  root : FileTree
  working : Place

/-- The greatest number of bytes of a name. -/
def maxNameLength : Nat := 255

/-- The greatest number of bytes of a path. -/
def maxPathLength : Nat := 4095

/-- The place that a name leads to. Above the root is the root. -/
def Place.follow (place : Place) (name : String) : Except FileFault Place :=
  match place.here with
  | .file _ => .error .notDirectory
  | .directory entries =>
    if name = "" ∨ name = "." then .ok place
    else if name = ".." then
      match place.above with
      | [] => .ok place
      | parent :: above => .ok ⟨parent, above⟩
    else if maxNameLength < name.utf8ByteSize then .error .nameTooLong
    else match entries.find? (·.1 = name) with
      | some (_, found) => .ok ⟨found, place.here :: place.above⟩
      | none => .error .missing

/-- The names on a path, which stand between slashes. -/
def pathNames : List Char → List String
  | [] => [""]
  | c :: cs =>
    if c = '/' then "" :: pathNames cs
    else match pathNames cs with
      | [] => [String.singleton c]
      | name :: names => (String.singleton c ++ name) :: names

namespace Files

/-- The place that a path leads to. -/
def find (files : Files) (path : String) : Except FileFault Place :=
  if path = "" then .error .missing
  else if maxPathLength < path.utf8ByteSize then .error .nameTooLong
  else
    let start := if path.toList.head? = some '/' then ⟨files.root, []⟩ else files.working
    (pathNames path.toList).foldlM Place.follow start

/-- The bytes of the file at a path. -/
def read (files : Files) (path : String) : Except FileFault ByteArray := do
  match (← files.find path).here with
  | .file bytes => return bytes
  | .directory _ => throw .directory

end Files

end Reckon
