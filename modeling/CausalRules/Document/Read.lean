import CausalRules.Document
import CausalRules.Document.Bare
import CausalRules.Document.Quoted

/-!
# Reading a document

The lines of a TOML document are headers and dotted keys with values. Arrays of tables are refused: no
setting holds one.

- `key`: a dotted key.
- `value`: a value, in which arrays and tables are nested to a given depth at most.
- `read`: a whole document.
-/

namespace CausalRules.Document

/-! ## Keys and values -/

/-- Reads one name of a key. -/
def keyName : Cursor String := do
  match (← get).head? with
  | some '"' | some '\'' => quotedOnce
  | _ =>
    let name ← takeAll isKeyCharacter
    guard !name.isEmpty
    return String.ofList name

/-- Reads the names that follow a dot, at most as many as the bound is long. -/
def moreNames : (bound : List Char) → List String → Cursor (List String)
  | [], found => return found.reverse
  | _ :: bound, found => do
    spaces
    if ← accept '.' then
      spaces
      moreNames bound ((← keyName) :: found)
    else
      return found.reverse

/-- How far keys and brackets may nest. -/
def maxDepth : Nat := 80

/-- Reads a dotted key, with the blanks after it. -/
def key : Cursor (List String) := do
  let first ← keyName
  let path ← moreNames (← get) [first]
  guard (path.length ≤ maxDepth)
  return path

/-- Reads the items of an array and its closing bracket; the last item may have a comma after it. -/
def items (item : Cursor Node) : (bound : List Char) → List Node → Cursor (List Node)
  | [], _ => failure
  | _ :: bound, found => do
    gap
    if ← accept ']' then return found.reverse
    let next ← item
    gap
    if ← accept ',' then items item bound (next :: found)
    else
      expect ']'
      return (next :: found).reverse

/-- Reads a key and its value inside braces into a table. Lines may end around the equals sign. -/
def member (value : Cursor Node) (members : Members) : Cursor Members := do
  let path ← key
  gap
  expect '='
  gap
  assign (← value) path members

/-- Reads the members of a table in braces and its closing brace; the last member may have a comma
after it. -/
def inlineMembers (value : Cursor Node) : (bound : List Char) → Members → Cursor Members
  | [], _ => failure
  | _ :: bound, members => do
    gap
    if ← accept '}' then return members
    let members ← member value members
    gap
    if ← accept ',' then inlineMembers value bound members
    else
      expect '}'
      return members

/-- Reads a value without brackets. -/
def plainValue : Cursor Node := do
  match (← get).head? with
  | some '"' | some '\'' => return .text (← quoted)
  | _ => bareValue

/-- Reads a value in which brackets are open at the same time at most as often as given. -/
def value : Nat → Cursor Node
  | 0 => plainValue
  | depth + 1 => do
    if ← accept '[' then
      return .array (← items (value depth) (← get) [])
    else if ← accept '{' then
      return .table .complete (← inlineMembers (value depth) (← get) [])
    else plainValue

/-! ## Lines -/

/-- What the lines so far have built. -/
structure Built where
  members : Members
  /-- The table that the last header opened. -/
  current : List String

/-- Reads a line: nothing, a header, or a key with its value. -/
def line (built : Built) : Cursor Built := do
  spaces
  match (← get).head? with
  | none | some '#' | some '\n' | some '\r' =>
    lineEnd
    return built
  | some '[' =>
    expect '['
    spaces
    let path ← key
    expect ']'
    lineEnd
    return ⟨← openTable path built.members, path⟩
  | _ =>
    let path ← key
    expect '='
    spaces
    let node ← value maxDepth
    lineEnd
    return { built with members := ← assignIn path node built.current built.members }

/-- Reads the lines that are left, at most as many as the bound is long. -/
def lines : (bound : List Char) → Built → Cursor Built
  | [], built => return built
  | _ :: bound, built => do
    if (← get).isEmpty then return built
    lines bound (← line built)

/-- Reads a document. A mark of the byte order in front is passed over. -/
def read (text : String) : Option Members := do
  let characters := text.toList
  let characters := if characters.head? = some '\uFEFF' then characters.tail else characters
  let (built, _) ← (lines characters ⟨[], []⟩).run characters
  return built.members

end CausalRules.Document
