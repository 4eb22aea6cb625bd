/-!
# Documents of tables

A TOML document is a table of named values, some of which are tables again. A value is set once, and
a table is opened once.

- `Node`: a value, `Members`: the named values of a table.
- `openTable`: what a header does to a document.
- `assign`: what a dotted key with a value does to a table.
-/

namespace CausalRules.Document

/-- How a table came about, which decides what may still be added to it. -/
inductive Origin
  /-- Named only on the way to a table inside it. -/
  | path
  /-- Opened by a header. -/
  | header
  /-- Named inside a dotted key. -/
  | dottedKey
  /-- Written out as one value. -/
  | complete
  deriving DecidableEq, Repr

/-- A value. -/
inductive Node
  | text (value : String)
  /-- A whole number, if what is written names one. -/
  | integer (value? : Option Int)
  | boolean (value : Bool)
  /-- A number with a fraction or an exponent, as written. -/
  | float (written : String)
  /-- A date or a time, as written. -/
  | moment (written : String)
  | array (items : List Node)
  | table (origin : Origin) (members : List (String × Node))
  deriving Repr

/-- The named values of a table, in the order in which they were first named. -/
abbrev Members := List (String × Node)

/-- Puts a value in the place of one that is already named. -/
def replaceAt (key : String) (node : Node) (members : Members) : Members :=
  members.map fun member => if member.1 = key then (key, node) else member

/-- Opens the table that a header names. The tables on the way are opened as far as they are new. A
table is opened by one header only, and a header opens no table that a key has made. -/
def openTable : List String → Members → Option Members
  | [], members => some members
  | [key], members =>
    match members.lookup key with
    | none => some (members ++ [(key, .table .header [])])
    | some (.table .path inner) => some (replaceAt key (.table .header inner) members)
    | some _ => none
  | key :: next :: path, members =>
    match members.lookup key with
    | none => do
      let inner ← openTable (next :: path) []
      return members ++ [(key, .table .path inner)]
    | some (.table .complete _) => none
    | some (.table origin inner) => do
      let inner ← openTable (next :: path) inner
      return replaceAt key (.table origin inner) members
    | some _ => none

/-- Gives a value to a dotted key. The tables on the way are new or made by dotted keys, and the last
name is new. -/
def assign (value : Node) : List String → Members → Option Members
  | [], _ => none
  | [key], members =>
    match members.lookup key with
    | none => some (members ++ [(key, value)])
    | some _ => none
  | key :: next :: path, members =>
    match members.lookup key with
    | none => do
      let inner ← assign value (next :: path) []
      return members ++ [(key, .table .dottedKey inner)]
    | some (.table .dottedKey inner) => do
      let inner ← assign value (next :: path) inner
      return replaceAt key (.table .dottedKey inner) members
    | some _ => none

/-- Gives a value to a dotted key in the table that the last header opened. -/
def assignIn (key : List String) (value : Node) : List String → Members → Option Members
  | [], members => assign value key members
  | name :: path, members =>
    match members.lookup name with
    | some (.table origin inner) => do
      let inner ← assignIn key value path inner
      return replaceAt name (.table origin inner) members
    | _ => none

end CausalRules.Document
