import CausalRules.Imitation.Signature
import CausalRules.Script.Literal

/-!
# What variables stand for inside a method

A rule's variables stand for parameters of the method, for elements of a sequence, or for constants.
The intention binds its own variables; the condition may bind others: `v = 'x'` binds `v` to a
constant, `a = b` binds whichever side is unbound to what the other stands for, and
`ALL(t) = [a, b]` binds the listed variables to the objects of the type in order.

- `Binding`: what a variable stands for.
- `Residue`: what becomes of a predicate that bound something.
- `Scope`: the bindings of a rule, the types whose objects it lists, and the residues.
- `Trail`: the scopes that a step goes through, and what it comes to.
- `Scope.ofRule`, `Scope.collect`: the scope that the intention gives, and the trail of the
  condition from there.
-/

namespace CausalRules.Imitation

open Script (Constant membersName)

/-- What a variable stands for. -/
inductive Binding
  | param (name : String)
  | element (sequence : String) (index : Nat)
  | constant (value : Constant)
  deriving DecidableEq, Repr

/-- A test that a predicate leaves behind after binding variables. -/
inductive Check
  /-- An element equals what is known. -/
  | same (element known : Binding)
  /-- A sequence has no elements. -/
  | noElements (sequence : String)
  deriving DecidableEq, Repr

/-- What becomes of a predicate that bound variables. -/
inductive Residue
  /-- Nothing is left to test. -/
  | drop
  | replace (checks : List Check)
  deriving DecidableEq, Repr

/-- What is known while the rule of a method is written. -/
structure Scope where
  /-- What variables stand for, the latest binding first. -/
  bindings : List (String × Binding)
  /-- The types whose objects are listed, in the order of their first use. -/
  listed : List String
  /-- Residues by the position of their predicate, the latest first. -/
  residues : List (Nat × Residue)
  deriving DecidableEq, Repr

/-- The failure for what this target cannot express. -/
def unsupported {α : Type} (construct : Construct) (position : Nat) : Except EmitError α :=
  .error (.unsupported construct .imitation position)

/-- What parameter number `index` of any rule stands for. -/
def Signature.binding (signature : Signature) (index : Nat) : Binding :=
  match signature.star with
  | some star =>
    if index < signature.fixed.length then .param (signature.fixed.getD index "")
    else .element star (index - signature.fixed.length)
  | none => .param (signature.fixed.getD index "")

/-! ## Trails -/

/-- The scopes that a step goes through, in order, and what it comes to. A step that fails has gone
through those before the failure. -/
structure Trail (α : Type) where
  points : List Scope
  result : Except EmitError α

namespace Trail

variable {α β : Type}

/-- The result of a step that changes nothing. -/
def still (result : Except EmitError α) : Trail α :=
  ⟨[], result⟩

/-- A step to a scope. -/
def reach (scope : Scope) : Trail Scope :=
  ⟨[scope], .ok scope⟩

/-- A step and, if it does not fail, the one after it. -/
def andThen (first : Trail α) (next : α → Trail β) : Trail β :=
  match first.result with
  | .ok value =>
    let later := next value
    ⟨first.points ++ later.points, later.result⟩
  | .error e => ⟨first.points, .error e⟩

instance : Monad Trail where
  pure value := still (.ok value)
  bind := andThen
  map f trail := ⟨trail.points, f <$> trail.result⟩

end Trail

/-! ## Steps -/

namespace Scope

/-- What a variable stands for. -/
def binding? (scope : Scope) (name : String) : Option Binding :=
  scope.bindings.lookup name

/-- What becomes of the predicate at a position. -/
def residue? (scope : Scope) (position : Nat) : Option Residue :=
  scope.residues.lookup position

/-- The scope in which the variables of a rule's intention are bound in order. -/
def ofRule (signature : Signature) (rule : Rule) : Scope where
  bindings :=
    ((rule.intention.args.filterMap Arg.variableName?).zipIdx.map fun (name, index) =>
      (name, signature.binding index)).reverse
  listed := []
  residues := []

/-- Records what becomes of the predicate at a position. -/
def settle (scope : Scope) (position : Nat) (residue : Residue) : Scope :=
  { scope with residues := (position, residue) :: scope.residues }

/-- Lists the objects of a type, once. -/
def list (scope : Scope) (typeName : String) : Scope :=
  if typeName ∈ scope.listed then scope
  else { scope with listed := scope.listed ++ [typeName] }

/-- Binds a variable, which is refused inside an `or`. -/
def bind (scope : Scope) (name : String) (binding : Binding) (underOr : Bool) (position : Nat) :
    Trail Scope :=
  if underOr then .still (.error (.bindingUnderOr name position))
  else .reach { scope with bindings := (name, binding) :: scope.bindings }

/-- Binds a variable, so that nothing of its predicate is left. -/
def bindAndDrop (scope : Scope) (name : String) (binding : Binding) (underOr : Bool)
    (position : Nat) : Trail Scope := do
  let scope ← scope.bind name binding underOr position
  .reach (scope.settle position .drop)

/-- Puts a check before those of a result. -/
def addCheck (check : Check) (result : Scope × List Check) : Scope × List Check :=
  (result.1, check :: result.2)

/-- Binds the members of a list to the elements of a sequence from `index` on. Members that are
known already are compared instead. -/
def bindItems (sequence : String) (underOr : Bool) (position : Nat) :
    (index : Nat) → List Arg → Scope → Trail (Scope × List Check)
  | _, [], scope => return (scope, [])
  | index, .variable name :: rest, scope =>
    match scope.binding? name with
    | some known =>
      addCheck (.same (.element sequence index) known) <$>
        bindItems sequence underOr position (index + 1) rest scope
    | none => do
      let scope ← scope.bind name (.element sequence index) underOr position
      bindItems sequence underOr position (index + 1) rest scope
  | index, .literal text :: rest, scope =>
    addCheck (.same (.element sequence index) (.constant (.text text))) <$>
      bindItems sequence underOr position (index + 1) rest scope
  | index, .number value :: rest, scope =>
    addCheck (.same (.element sequence index) (.constant (.number value))) <$>
      bindItems sequence underOr position (index + 1) rest scope
  | index, .continuation _ :: rest, scope =>
    bindItems sequence underOr position (index + 1) rest scope
  | _, .state _ :: _, _ | _, .python _ :: _, _ => .still (unsupported .allMember position)

/-- Lists the objects of a type and binds the members of the list that they are compared with. -/
def bindMembers (scope : Scope) (typeName : String) (items : List Arg) (underOr : Bool)
    (position : Nat) : Trail Scope := do
  let sequence := membersName typeName
  let scope ← .reach (scope.list typeName)
  let (scope, checks) ← bindItems sequence underOr position 0 items scope
  let checks := if items.isEmpty then [.noElements sequence] else checks
  .reach (scope.settle position (if checks.isEmpty then .drop else .replace checks))

/-- Binds the side of `a = b` that is not bound to what the other side stands for. -/
def bindEqual (scope : Scope) (a b : String) (underOr : Bool) (position : Nat) : Trail Scope :=
  match scope.binding? a, scope.binding? b with
  | some _, some _ => return scope
  | some known, none => scope.bindAndDrop b known underOr position
  | none, some known => scope.bindAndDrop a known underOr position
  | none, none => .still (.error (.unboundVariables a b position))

/-- Binds a variable that is compared with an argument, when it is unbound and the argument is a
constant. -/
def bindConstant (scope : Scope) (name : String) (arg : Arg) (underOr : Bool) (position : Nat) :
    Trail Scope :=
  match scope.binding? name, arg.constant? with
  | none, some value => scope.bindAndDrop name (.constant value) underOr position
  | _, _ => return scope

/-- The trail of a predicate. -/
def bindPredicate (scope : Scope) (underOr : Bool) : Predicate → Trail Scope
  | .bare _ _ => return scope
  | .compare left op right position =>
    match left, right with
    | .all typeName, .list items | .list items, .all typeName =>
      if op = .equal then scope.bindMembers typeName items underOr position
      else .still (unsupported .allOperator position)
    | .all _, _ | _, .all _ => .still (unsupported .allWithoutList position)
    | .value (.variable a), .value (.variable b) =>
      if op = .equal then scope.bindEqual a b underOr position else return scope
    | .value (.variable name), .value arg | .value arg, .value (.variable name) =>
      if op = .equal then scope.bindConstant name arg underOr position else return scope
    | _, _ => return scope

/-- The trail of a condition, read from left to right. Every part of a chain that holds an `or` is
inside that `or`, and so is everything in its groups. -/
def collect (scope : Scope) (underOr : Bool) : Condition → Trail Scope
  | .atom predicate => scope.bindPredicate underOr predicate
  | .group inner => scope.collect underOr inner
  | .chain left op right => do
    let underOr := underOr || (Formula.chain left op right).chainHasOr
    let scope ← scope.collect underOr left
    scope.collect underOr right

end Scope

end CausalRules.Imitation
