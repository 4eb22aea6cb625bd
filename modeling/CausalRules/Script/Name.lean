/-!
# Names in a generated script

Names of a rule program may hold hyphens, which identifiers of Python may not; and some words mean
something else in a generated script.

- `reservedNames`: the words that no generated identifier may be.
- `identifier`: the identifier for a name.
- `membersName`: the variable for the objects of a type.
-/

namespace CausalRules.Script

/-- The keywords of Python, and the names that the script around generated methods uses. -/
def reservedNames : List String :=
  ["False", "None", "True", "and", "as", "assert", "async", "await", "break", "class", "continue",
    "def", "del", "elif", "else", "except", "finally", "for", "from", "global", "if", "import",
    "in", "is", "lambda", "nonlocal", "not", "or", "pass", "raise", "return", "try", "while",
    "with", "yield", "state", "flatten", "pyhop", "copct", "math", "ops"]

/-- A name with an underscore for every hyphen. -/
def underscored (name : String) : String :=
  String.ofList (name.toList.map fun c => if c = '-' then '_' else c)

/-- The identifier for a name: hyphens become underscores, and a reserved word gains an underscore
at its end. -/
def identifier (name : String) : String :=
  let plain := underscored name
  if plain ∈ reservedNames then plain ++ "_" else plain

/-- The variable that holds the objects of a type. -/
def membersName (typeName : String) : String :=
  "all_" ++ identifier typeName

end CausalRules.Script
