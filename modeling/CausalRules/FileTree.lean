import CausalRules.Failure
import CausalRules.Path

/-!
# File trees

A tree says which names stand for directories and which for files. Files are numbered, and contents
belong to numbers: a file that is open keeps its content when its name passes to another file.

- `FileTree.locate`: where a path leads, name by name, from the root or the working directory.
- `FileTree.read`, `size`, `openFile`, `create`, `append`, `rename`, `remove`, `makeDirectory`:
  operations, each of which gives the tree afterwards or leaves it alone and fails.
- `FileTree.changes`: the files that were made or changed from one tree to another.
-/

namespace CausalRules

/-- The names on the way from the root. -/
abbrev Location := List String

/-- What a name stands for. -/
inductive Entry
  | directory
  | file (number : Nat)
  deriving DecidableEq, Repr

/-- Directories and files. -/
structure FileTree where
  /-- What stands at each location; the root is a directory without being listed. -/
  entries : List (Location × Entry)
  /-- The content of each file, by number. -/
  contents : List ByteArray
  workingDirectory : Location

namespace FileTree

/-- A tree with nothing in it but the working directory. -/
def empty (workingDirectory : Location) : FileTree :=
  ⟨(List.range workingDirectory.length).map fun n =>
    (workingDirectory.take (n + 1), .directory), [], workingDirectory⟩

/-! ## Looking up -/

/-- The longest name, in bytes. -/
def maxNameBytes : Nat := 255

/-- The longest path, in bytes. -/
def maxPathBytes : Nat := 4095

/-- What stands at a location. -/
def entry? (tree : FileTree) (location : Location) : Option Entry :=
  if location.isEmpty then some .directory else tree.entries.lookup location

/-- Whether a directory stands at a location. -/
def isDirectoryAt (tree : FileTree) (location : Location) : Bool :=
  tree.entry? location = some .directory

/-- The location of a name in a directory. -/
def child (directory : Location) (name : String) : Location :=
  if name = "." then directory
  else if name = ".." then directory.dropLast
  else directory ++ [name]

/-- Follows names from a location. Each name is looked up in a directory and stands for something. -/
def walk (tree : FileTree) (location : Location) : List String → Except Failure Location
  | [] => .ok location
  | name :: rest =>
    if !tree.isDirectoryAt location then .error .notDirectory
    else if maxNameBytes < name.utf8ByteSize then .error .nameTooLong
    else if (tree.entry? (child location name)).isNone then .error .notFound
    else tree.walk (child location name) rest

/-- Where a path begins. -/
def start (tree : FileTree) (path : String) : Location :=
  if Path.isAbsolute path then [] else tree.workingDirectory

/-- Refuses what is no path at all. -/
def checkPath (path : String) : Except Failure Unit :=
  if path.toList.contains '\x00' then .error .endMarkInPath
  else if path.isEmpty then .error .notFound
  else if maxPathBytes < path.utf8ByteSize then .error .nameTooLong
  else .ok ()

/-- The location of what a path names. -/
def locate (tree : FileTree) (path : String) : Except Failure Location := do
  checkPath path
  let location ← tree.walk (tree.start path) (Path.names path)
  if Path.endsWithSlash path ∧ !tree.isDirectoryAt location then throw .notDirectory
  return location

/-- The location that a path gives to something new: a directory, and the last name in it. There is
no last name when the path leads to a directory without naming it. -/
def locateNew (tree : FileTree) (path : String) : Except Failure (Location × Option String) := do
  checkPath path
  let names := Path.names path
  let directory ← tree.walk (tree.start path) names.dropLast
  if !tree.isDirectoryAt directory then throw .notDirectory
  match names.getLast? with
  | none => return (directory, none)
  | some name =>
    if name = "." ∨ name = ".." then return (directory, none)
    else return (directory, some name)

/-! ## Operations -/

/-- Puts an entry at a location. -/
def put (tree : FileTree) (location : Location) (entry : Entry) : FileTree :=
  { tree with entries := (location, entry) :: tree.entries.filter (·.1 ≠ location) }

/-- Takes the entry at a location away. -/
def take (tree : FileTree) (location : Location) : FileTree :=
  { tree with entries := tree.entries.filter (·.1 ≠ location) }

/-- The content of a file. -/
def content (tree : FileTree) (number : Nat) : ByteArray :=
  tree.contents[number]?.getD ByteArray.empty

/-- Gives a file another content. -/
def setContent (tree : FileTree) (number : Nat) (content : ByteArray) : FileTree :=
  { tree with contents := tree.contents.set number content }

/-- The content of the file that a path names. -/
def read (tree : FileTree) (path : String) : Except Failure ByteArray := do
  match tree.entry? (← tree.locate path) with
  | some (.file number) => return tree.content number
  | _ => throw .isDirectory

/-- The size that is reported for a directory, in bytes. -/
def directorySize : Nat := 4096

/-- The size of what a path names. -/
def size (tree : FileTree) (path : String) : Except Failure Nat := do
  match tree.entry? (← tree.locate path) with
  | some (.file number) => return (tree.content number).size
  | _ => return directorySize

/-- Whether a path names a directory. -/
def isDirectory (tree : FileTree) (path : String) : Bool :=
  match tree.locate path with
  | .ok location => tree.isDirectoryAt location
  | .error _ => false

/-- Opens the file that a path names for writing, after making it if need be. The result is its
number. -/
def openFile (tree : FileTree) (path : String) : Except Failure (Nat × FileTree) := do
  match ← tree.locateNew path with
  | (_, none) => throw .isDirectory
  | (directory, some name) =>
    if Path.endsWithSlash path then throw .isDirectory
    if maxNameBytes < name.utf8ByteSize then throw .nameTooLong
    match tree.entry? (child directory name) with
    | some .directory => throw .isDirectory
    | some (.file number) => return (number, tree)
    | none =>
      let number := tree.contents.length
      let tree := { tree with contents := tree.contents ++ [ByteArray.empty] }
      return (number, tree.put (child directory name) (.file number))

/-- Opens the file that a path names for writing, as an empty one, after making it if need be. The
result is its number. -/
def create (tree : FileTree) (path : String) : Except Failure (Nat × FileTree) := do
  let (number, tree) ← tree.openFile path
  return (number, tree.setContent number ByteArray.empty)

/-- Adds to the end of an open file. -/
def append (tree : FileTree) (number : Nat) (more : ByteArray) : FileTree :=
  tree.setContent number (tree.content number ++ more)

/-- Gives a file another path. A file that had that path is replaced. -/
def rename (tree : FileTree) (path newPath : String) : Except Failure FileTree := do
  let location ← tree.locate path
  match ← tree.locateNew newPath with
  | (_, none) => throw .isDirectory
  | (directory, some name) =>
    if maxNameBytes < name.utf8ByteSize then throw .nameTooLong
    if tree.isDirectoryAt (child directory name) then throw .isDirectory
    match tree.entry? location with
    | some (.file number) => return (tree.take location).put (child directory name) (.file number)
    | _ => throw .notDirectory

/-- Removes the file that a path names. -/
def remove (tree : FileTree) (path : String) : Except Failure FileTree := do
  let location ← tree.locate path
  if tree.isDirectoryAt location then throw .isDirectory
  return tree.take location

/-- Removes what a path names, with everything in it. -/
def removeAll (tree : FileTree) (path : String) : Except Failure FileTree := do
  let location ← tree.locate path
  return { tree with entries := tree.entries.filter (!location.isPrefixOf ·.1) }

/-- Makes a directory. -/
def makeDirectory (tree : FileTree) (path : String) : Except Failure FileTree := do
  match ← tree.locateNew path with
  | (_, none) => throw .alreadyExists
  | (directory, some name) =>
    if maxNameBytes < name.utf8ByteSize then throw .nameTooLong
    match tree.entry? (child directory name) with
    | some _ => throw .alreadyExists
    | none => return tree.put (child directory name) .directory

/-! ## Comparing -/

/-- The files below the working directory, by path from there. -/
def files (tree : FileTree) : List (String × ByteArray) :=
  tree.entries.filterMap fun (location, entry) =>
    match entry with
    | .file number =>
      if tree.workingDirectory.isPrefixOf location then
        some ("/".intercalate (location.drop tree.workingDirectory.length), tree.content number)
      else none
    | .directory => none

/-- The files of a tree that are not in an earlier one with the same content. -/
def changes (before after : FileTree) : List (String × ByteArray) :=
  let earlier := before.files
  after.files.filter fun (path, content) =>
    match earlier.lookup path with
    | some old => !(old.size = content.size && old == content)
    | none => true

end FileTree

end CausalRules
