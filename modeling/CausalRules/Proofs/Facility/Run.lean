import CausalRules.Facility.Block
import CausalRules.Proofs.Meaning

/-!
# Running facility blocks

What a block of the facility script computes from observed actions and their state.

- `Slot.value?`, `Piece.values?`, `tuple?`: observed arguments and tuples of them.
- `Setup.value?`, `Store`: what is computed before a condition is tested. A store keeps each value
  by the setup that computes it, so that two setups never share a variable.
- `Term.value?`, `Test.truth?`: what a condition compares, given the computed values.
- `Block.store?`, `Block.run?`: what a block has computed before its test, and the causes it adds.

Each of these has no result where the script would fail, as for an argument that was not observed
or for the type of an object that the state does not hold.
-/

namespace CausalRules.Facility

variable {V : Type} (m : Interpretation V) (scene : Scene V) (arguments : List (List V))

/-- The observed argument at a slot. -/
def Slot.value? (slot : Slot) : Option V := do
  (← arguments[slot.effect]?)[slot.arg]?

/-- The values of a part of a tuple. -/
def Piece.values? : Piece → Option (List V)
  | .item slot => ([·]) <$> slot.value? arguments
  | .constant value => some [m.constant value]
  | .tail slot => (·.drop slot.arg) <$> arguments[slot.effect]?

/-- The concatenation of parts. -/
def tuple? (pieces : List Piece) : Option (List V) :=
  List.flatten <$> pieces.mapM (Piece.values? m arguments)

/-- What a setup computes. -/
def Setup.value? : Setup → Option (Content V)
  | .members typeName => some (.several (scene.ofType m typeName))
  | .typeOf _ slot => do return .single (← scene.typeOf? m (← slot.value? arguments))

/-- Computed values, by the setup that computed them. -/
abbrev Store (V : Type) := Setup → Option (Content V)

/-- The store after setups were run in order. -/
def runSetups (setups : List Setup) : Option (Store V) := do
  let computed ← setups.mapM fun setup => (setup, ·) <$> setup.value? m scene arguments
  return fun setup => computed.lookup setup

section Tests

variable (store : Store V)

/-- The value of a term. -/
def Term.value? : Term → Option V
  | .item slot => slot.value? arguments
  | .constant value => some (m.constant value)
  | .python code => some (m.inline code)
  | .typeOf variableName slot =>
    match store (.typeOf variableName slot) with
    | some (.single type) => some type
    | _ => none

/-- Whether a test holds. -/
def Test.truth? : Test → Option Bool
  | .python code => some (m.truthy (m.inline code))
  | .sameMembers typeName members =>
    match store (.members typeName) with
    | some (.several objects) => m.sameSet objects <$> tuple? m arguments members
    | _ => none
  | .compare left op right =>
    m.compare op <$> left.value? m arguments store <*> right.value? m arguments store

end Tests

namespace Block

/-- What a block has computed before it tests its condition. -/
def store? (block : Block) : Option (Store V) :=
  runSetups m scene arguments block.setup

/-- Whether the condition of a block holds, once its setups have run. -/
def holds? (block : Block) : Option Bool := do
  let store ← block.store? m scene arguments
  match block.guard with
  | some guard => guard.value? (Test.truth? m arguments store)
  | none => return true

/-- The causes that a block adds for observed actions. -/
def run? (block : Block) (observed : List (String × List V)) :
    Option (List (String × List V)) :=
  let arguments := observed.map Prod.snd
  if observed.map Prod.fst = block.effects then do
    if ← block.holds? m scene arguments then
      return [(block.intention, ← tuple? m arguments block.args)]
    else return []
  else some []

end Block

end CausalRules.Facility
