import CausalRules.EmitError
import CausalRules.Facility.Slot
import CausalRules.Script.Literal

/-!
# Blocks of the facility script

Each rule becomes a block that compares the observed action names with the rule's effects and, when
the condition holds of the observed arguments, adds the intention as a possible cause.

- `Piece`: a part of a tuple of arguments.
- `Term`, `Test`: what a condition compares, in terms of observed arguments.
- `Setup`: a value that is computed before the condition is tested.
- `Block`: the block of a rule; `Block.ofRule` builds it or says why it cannot be expressed.
- `ofProgram`: the blocks of a program, in order.
-/

namespace CausalRules.Facility

open Script (Constant)

/-- A part of a tuple of arguments. -/
inductive Piece
  /-- One observed argument. -/
  | item (slot : Slot)
  | constant (value : Constant)
  /-- An observed argument and all after it. -/
  | tail (slot : Slot)
  deriving DecidableEq, Repr

/-- A value in a condition. -/
inductive Term
  | item (slot : Slot)
  | constant (value : Constant)
  | python (code : String)
  /-- The type of the object that a variable stands for, at its slot. -/
  | typeOf (variableName : String) (slot : Slot)
  deriving DecidableEq, Repr

/-- A test in a condition. -/
inductive Test
  | python (code : String)
  /-- The objects of a type are the listed ones, in any order. -/
  | sameMembers (typeName : String) (members : List Piece)
  | compare (left : Term) (op : Comparison) (right : Term)
  deriving DecidableEq, Repr

/-- A value that is computed before a condition is tested. -/
inductive Setup
  /-- The objects of a type. -/
  | members (typeName : String)
  /-- The type of the object at a slot, which is that of a variable. -/
  | typeOf (variableName : String) (slot : Slot)
  deriving DecidableEq, Repr

/-- The block of a rule. -/
structure Block where
  /-- The names of the effects, in order. -/
  effects : List String
  guard : Option (Formula Test)
  intention : String
  /-- The arguments of the intention. -/
  args : List Piece
  deriving Repr

/-- The failure for what this target cannot express. -/
def unsupported {α : Type} (construct : Construct) (position : Nat) : Except EmitError α :=
  .error (.unsupported construct .facility position)

/-- The slot of a variable, or a failure when it stands in no effect. -/
def slotOf (slots : Slots) (position : Nat) (name : String) : Except EmitError Slot :=
  match slots.slot? name with
  | some slot => .ok slot
  | none => .error (.unknownArgument name position)

/-- The pieces of a list of arguments. A continuation joins with the variable before it: together
they are that variable's argument and all observed after it. -/
def pieces (slots : Slots) (position : Nat) : List Arg → Except EmitError (List Piece)
  | [] => return []
  | .variable name :: .continuation _ :: rest => do
    let slot ← slotOf slots position name
    return .tail slot :: (← pieces slots position rest)
  | .variable name :: rest => do
    let slot ← slotOf slots position name
    return .item slot :: (← pieces slots position rest)
  | .literal text :: rest => return .constant (.text text) :: (← pieces slots position rest)
  | .number value :: rest => return .constant (.number value) :: (← pieces slots position rest)
  | .continuation _ :: _ => .error (.invalidContinuation .notAfterVariable position)
  | .state _ :: _ => unsupported .stateArgument position
  | .python _ :: _ => unsupported .pythonArgument position

/-- The term for an operand that is a single value. -/
def term (slots : Slots) (position : Nat) : Operand → Except EmitError Term
  | .value (.variable name) => return .item (← slotOf slots position name)
  | .value (.python code) => return .python code
  | .value (.state _) => unsupported .stateInCondition position
  | .value (.continuation _) => .error (.invalidContinuation .outsideList position)
  | .value arg =>
    match arg.constant? with
    | some value => return .constant value
    | none => unsupported .constant position
  | .type name => return .typeOf name (← slotOf slots position name)
  | .all _ | .list _ => unsupported .collection position

/-- Whether an operand is a constant. -/
def isConstant : Operand → Bool
  | .value arg => arg.constant?.isSome
  | _ => false

/-- The test for a comparison of all objects of a type with listed ones. -/
def membersTest (slots : Slots) (position : Nat) (op : Comparison) (typeName : String)
    (items : List Arg) : Except EmitError Test :=
  if op = .equal then return .sameMembers typeName (← pieces slots position items)
  else unsupported .allOperator position

/-- The test for a predicate. -/
def test (slots : Slots) : Predicate → Except EmitError Test
  | .bare (.value (.python code)) _ => return .python code
  | .bare _ position => unsupported .bareOperand position
  | .compare left op right position =>
    match left, right with
    | .all typeName, .list items => membersTest slots position op typeName items
    | .list items, .all typeName => membersTest slots position op typeName items
    | .all _, _ | _, .all _ => unsupported .allWithoutList position
    | .list _, _ | _, .list _ => unsupported .listWithoutAll position
    | _, _ =>
      if isConstant left && isConstant right then unsupported .twoConstants position
      else return .compare (← term slots position left) op (← term slots position right)

/-- The condition of a rule in terms of observed arguments. -/
def guard (slots : Slots) : Condition → Except EmitError (Formula Test)
  | .atom predicate => .atom <$> test slots predicate
  | .group inner => .group <$> guard slots inner
  | .chain left op right => return .chain (← guard slots left) op (← guard slots right)

namespace Block

/-- The block of a rule. -/
def ofRule (rule : Rule) : Except EmitError Block := do
  let slots := Slots.ofEffects rule.effects
  let args ← pieces slots rule.intention.position rule.intention.args
  let guard ← rule.condition.mapM (Facility.guard slots)
  return ⟨rule.effects.map Action.name, guard, rule.intention.name, args⟩

end Block

/-- The blocks of a program. -/
def ofProgram (program : Program) : Except EmitError (List Block) :=
  program.rules.mapM Block.ofRule

/-! ## What is computed before a test -/

/-- What a term needs to have been computed. -/
def Term.setup : Term → List Setup
  | .typeOf variableName slot => [.typeOf variableName slot]
  | _ => []

/-- What a test needs to have been computed, in order. -/
def Test.setup : Test → List Setup
  | .python _ => []
  | .sameMembers typeName _ => [.members typeName]
  | .compare left _ right => left.setup ++ right.setup

/-- What a block computes before it tests its condition: each value once, in the order in which the
condition needs them. -/
def Block.setup (block : Block) : List Setup :=
  match block.guard with
  | some guard => (guard.atoms.flatMap Test.setup).eraseDups
  | none => []

end CausalRules.Facility
