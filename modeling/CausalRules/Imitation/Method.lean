import CausalRules.Imitation.Scope

/-!
# Methods of the imitation script

Each intention becomes one method, which tries the intention's rules in order: when the condition of
a rule holds, the method returns the rule's effects as calls.

- `Term`, `Test`, `Guard`: what is left of a condition after it has bound variables.
- `Call`: an effect with its arguments, of which the last may be the rest of a sequence.
- `Clause`: the part of a method for one rule.
- `groupsOf`: the rules of a program by intention.
- `Method`: a method; `ofProgram` gives those of a program in the order in which intentions first
  appear.
-/

namespace CausalRules.Imitation

open Script (Constant identifier)

/-- A value in a condition or a call. -/
inductive Term
  | value (binding : Binding)
  | python (code : String)
  /-- The type of an object. -/
  | typeOf (binding : Binding)
  deriving DecidableEq, Repr

/-- A test in a condition. -/
inductive Test
  | python (code : String)
  | conjunction (checks : List Check)
  | compare (left : Term) (op : Comparison) (right : Term)
  deriving DecidableEq, Repr

/-- The test that stands before the effects of a rule. -/
inductive Guard
  /-- The rule has no condition. -/
  | absent
  /-- Every predicate of the condition only bound variables. -/
  | satisfied
  | test (formula : Formula Test)
  deriving Repr

/-- An effect with its arguments. -/
structure Call where
  name : String
  args : List Term
  /-- A sequence and the index from which its elements follow the arguments. -/
  tail : Option (String × Nat)
  deriving DecidableEq, Repr

/-- The part of a method for one rule. -/
structure Clause where
  /-- The types whose objects are listed first. -/
  listed : List String
  guard : Guard
  calls : List Call
  deriving Repr

/-- A method. -/
structure Method where
  /-- The intention's name as written. -/
  name : String
  signature : Signature
  clauses : List Clause
  deriving Repr

/-- The failure for a continuation that cannot be expressed. -/
def invalidTail {α : Type} (fault : TailFault) (position : Nat) : Except EmitError α :=
  .error (.invalidContinuation fault position)

namespace Scope

/-! ## Values -/

/-- What a variable stands for, or a failure when nothing binds it. -/
def resolve (scope : Scope) (position : Nat) (name : String) : Except EmitError Binding :=
  match scope.binding? name with
  | some binding => .ok binding
  | none => .error (.unboundVariable name position)

/-- The term for an argument. -/
def argTerm (scope : Scope) (position : Nat) : Arg → Except EmitError Term
  | .variable name => return .value (← scope.resolve position name)
  | .python code => return .python code
  | .state _ => unsupported .stateArgument position
  | .continuation _ => invalidTail .notLast position
  | arg =>
    match arg.constant? with
    | some value => return .value (.constant value)
    | none => unsupported .constant position

/-- The term for an operand that is a single value. -/
def operandTerm (scope : Scope) (position : Nat) : Operand → Except EmitError Term
  | .value arg => scope.argTerm position arg
  | .type name => return .typeOf (← scope.resolve position name)
  | .all _ | .list _ => unsupported .collection position

/-! ## Conditions -/

/-- Whether both operands are constants. -/
def areConstants : Operand → Operand → Bool
  | .value left, .value right => left.constant?.isSome && right.constant?.isSome
  | _, _ => false

/-- The test for a predicate, or nothing when the predicate only bound variables. -/
def test (scope : Scope) : Predicate → Except EmitError (Option Test)
  | .bare (.value (.python code)) _ => return some (.python code)
  | .bare _ position => unsupported .bareOperand position
  | .compare left op right position =>
    match scope.residue? position with
    | some .drop => return none
    | some (.replace checks) => return some (.conjunction checks)
    | none =>
      if areConstants left right then unsupported .twoConstants position
      else
        return some (.compare (← scope.operandTerm position left) op
          (← scope.operandTerm position right))

/-- What is left of a condition. A part of a chain that only bound variables is left out together
with its connective. -/
def formula (scope : Scope) : Condition → Except EmitError (Option (Formula Test))
  | .atom predicate => return (← scope.test predicate).map .atom
  | .group inner => return (← scope.formula inner).map .group
  | .chain left op right => do
    match ← scope.formula left, ← scope.formula right with
    | some left, some right => return some (.chain left op right)
    | some only, none | none, some only => return some only
    | none, none => return none

/-! ## Calls -/

/-- The sequence and index for a variable that a continuation covers. -/
def tailElement (scope : Scope) (position : Nat) : Arg → Except EmitError (String × Nat)
  | .variable name => do
    match ← scope.resolve position name with
    | .element sequence index => return (sequence, index)
    | _ => invalidTail .notAfterElements position
  | _ => invalidTail .notAfterVariables position

/-- The sequence, and the index in it, at which the arguments covered by a continuation begin. They
are consecutive elements of one sequence. -/
def tailStart (scope : Scope) (position : Nat) (covered : List Arg) :
    Except EmitError (String × Nat) := do
  let elements ← covered.mapM (scope.tailElement position)
  match elements with
  | [] => invalidTail .notAfterVariable position
  | (sequence, start) :: _ =>
    let expected := (List.range elements.length).map fun step => (sequence, start + step)
    if elements = expected then return (sequence, start)
    else invalidTail .notConsecutive position

/-- The call for an effect. -/
def call (scope : Scope) (effect : Action) : Except EmitError Call :=
  let position := effect.position
  match effect.args.getLast? with
  | some (.continuation offset) => do
    let fixed := effect.args.dropLast
    if fixed.length < offset then invalidTail .beforeFirst position
    else
      let kept := fixed.length - offset
      let start ← scope.tailStart position (fixed.drop kept)
      let args ← (fixed.take kept).mapM (scope.argTerm position)
      return ⟨effect.name, args, some start⟩
  | _ => return ⟨effect.name, ← effect.args.mapM (scope.argTerm position), none⟩

end Scope

/-! ## Methods -/

/-- The part of a method for a rule. -/
def Clause.ofRule (signature : Signature) (rule : Rule) : Except EmitError Clause := do
  let initial := Scope.ofRule signature rule
  match rule.condition with
  | none => return ⟨initial.listed, .absent, ← rule.effects.mapM initial.call⟩
  | some condition =>
    let scope ← (initial.collect false condition).result
    let guard ← match ← scope.formula condition with
      | some formula => pure (Guard.test formula)
      | none => pure Guard.satisfied
    return ⟨scope.listed, guard, ← rule.effects.mapM scope.call⟩

/-- The method for the rules of one intention. -/
def Method.ofRules (name : String) (rules : List Rule) : Except EmitError Method := do
  let signature ← Signature.ofRules rules
  return ⟨name, signature, ← rules.mapM (Clause.ofRule signature)⟩

/-- The function that a method is in the script. -/
def Method.function (method : Method) : String :=
  identifier method.name

/-- The rules of an intention, in source order. -/
structure Group where
  /-- The intention's name as written. -/
  name : String
  rules : List Rule
  deriving Repr

/-- The rules that were seen, by intention. -/
structure Grouping where
  groups : List Group
  /-- The index of the group of each name. -/
  slots : List (String × Nat)
  /-- The name behind each function. -/
  functions : List (String × String)
  deriving Repr

namespace Grouping

/-- No rules. -/
def empty : Grouping :=
  ⟨[], [], []⟩

/-- Adds a rule to the group of its intention. A new intention is refused if its function is that of
another one. -/
def add (grouping : Grouping) (rule : Rule) : Except EmitError Grouping :=
  let name := rule.intention.name
  match grouping.slots.lookup name with
  | some slot =>
    let groups := grouping.groups.modify slot fun group =>
      { group with rules := group.rules ++ [rule] }
    .ok { grouping with groups }
  | none =>
    let function := identifier name
    match grouping.functions.lookup function with
    | some first => .error (.duplicateMethod function first name)
    | none =>
      .ok ⟨grouping.groups ++ [⟨name, [rule]⟩], (name, grouping.groups.length) :: grouping.slots,
        (function, name) :: grouping.functions⟩

end Grouping

/-- The rules of a program by intention, in the order in which intentions first appear. -/
def groupsOf (rules : List Rule) : Except EmitError (List Group) :=
  return (← rules.foldlM Grouping.add .empty).groups

/-- The methods of a program. -/
def ofProgram (program : Program) : Except EmitError (List Method) := do
  let groups ← groupsOf program.rules
  groups.mapM fun group => Method.ofRules group.name group.rules

end CausalRules.Imitation
