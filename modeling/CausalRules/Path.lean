import CausalRules.Text.Split

/-!
# Paths

- `Path.names`: the names between the slashes of a path.
- `Path.parts`: the names that count when a path is shortened to its parent.
- `Path.ancestors`: a path and its parents, the longest first.
- `Path.join`, `Path.sibling`: a name put behind a directory, or in the place of a path's last name.
-/

namespace CausalRules.Path

/-- The names in a path. -/
def names (path : String) : List String :=
  ((Text.splitAll '/' path.toList).filter (!·.isEmpty)).map String.ofList

/-- Whether a path begins at the root. -/
def isAbsolute (path : String) : Bool :=
  path.toList.head? = some '/'

/-- Whether a path ends with a slash, so that it can only name a directory. -/
def endsWithSlash (path : String) : Bool :=
  path.toList.getLast? = some '/'

/-- The names in a path without those that stay in place. In front of a relative path such a name is
kept. -/
def parts (path : String) : List String :=
  match names path with
  | [] => []
  | first :: rest =>
    if first = "." ∧ isAbsolute path then rest.filter (· ≠ ".")
    else first :: rest.filter (· ≠ ".")

/-- The path that names make. -/
def ofParts (absolute : Bool) (parts : List String) : String :=
  (if absolute then "/" else "") ++ "/".intercalate parts

/-- The parents of a path with the given number of parts, the longest first. -/
def parents (path : String) : Nat → List String
  | 0 => []
  | count + 1 => ofParts (isAbsolute path) ((parts path).take (count + 1)) :: parents path count

/-- A path and its parents, the longest first, without the root and the empty path. -/
def ancestors (path : String) : List String :=
  match (parts path).length with
  | 0 => []
  | count + 1 => path :: parents path count

/-- A name inside a directory. -/
def join (directory name : String) : String :=
  if endsWithSlash directory then directory ++ name else directory ++ "/" ++ name

/-- A path with another last name. -/
def sibling (path name : String) : String :=
  ofParts (isAbsolute path) ((parts path).dropLast ++ [name])

end CausalRules.Path
