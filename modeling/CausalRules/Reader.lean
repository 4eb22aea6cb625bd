import CausalRules.ReadError
import CausalRules.Token

/-!
# Reading tokens in order

A reader takes tokens from the front of a list that ends with the end of the input. It looks at no
token but the first one left.

- `current`, `skip`, `accept`, `expect`: the steps of a reader.
- `separated`: items with a separator between each two.
-/

namespace CausalRules

/-- A step that takes tokens from the front of a list, or fails. -/
abbrev Reader := StateT (List Located) (Except ReadError)

namespace Reader

variable {α : Type}

/-- The first token left. -/
def current : Reader Located :=
  return (← get).headD ⟨.endOfInput, 0⟩

/-- Passes over the first token left. -/
def skip : Reader Unit :=
  modify List.tail

/-- Fails at the first token left, which is not what was expected. -/
def unexpected (expected : Expected) : Reader α := do
  let here ← current
  throw (.unexpectedToken expected here.token.text here.position)

/-- Passes over a token if it stands first, and tells whether it did. -/
def accept (token : Token) : Reader Bool := do
  if (← current).token = token then
    skip
    return true
  else
    return false

/-- Passes over a token that must stand first. -/
def expect (token : Token) (expected : Expected) : Reader Unit := do
  unless ← accept token do unexpected expected

/-- Reads an item after each separator, at most as many as `bound` is long; the items read so far
are held in reverse. -/
def moreItems (separator : Token) (item : Reader α) :
    (bound : List Located) → List α → Reader (List α)
  | [], found => return found.reverse
  | _ :: bound, found => do
    if ← accept separator then
      let next ← item
      moreItems separator item bound (next :: found)
    else
      return found.reverse

/-- Reads at least one item, and another after each separator. The tokens left bound the number of
separators, each of which is one of them. -/
def separated (separator : Token) (item : Reader α) : Reader (List α) := do
  let first ← item
  moreItems separator item (← get) [first]

end Reader

end CausalRules
