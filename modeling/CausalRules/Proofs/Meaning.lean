import CausalRules.Proofs.Precedence
import CausalRules.Script.Literal

/-!
# What a rule means

A rule and the scripts made from it speak of the same values: objects, their types, and constants.
What a rule means depends on the values that its variables stand for and on a state. The scripts
are compared with that meaning.

- `Interpretation`: what constants, inline code and comparison signs are taken to mean.
- `Scene`: a state, as its objects with their types.
- `Arg.value?`, `Operand.value?`, `Predicate.truth?`, `Action.value?`: the meaning of the parts of
  a rule.
- `Condition.Means`: the meaning of a condition.
- `Content`: what a variable of a script may hold.
- `Rule.Explicit`: nothing in an intention or a list stands for further arguments.
- `Rule.operands`: what the condition of a rule compares or tests.
-/

namespace CausalRules

open Script (Constant)

/-! ## Values -/

/-- What is written in a script, as values. Values that the sign for equality does not tell apart
are one value. -/
structure Interpretation (V : Type) where
  constant : Constant → V
  /-- The value of inline code where it stands. -/
  inline : String → V
  /-- Whether a value counts as true when it is a test by itself. -/
  truthy : V → Bool
  compare : Comparison → V → V → Bool
  compare_equal : ∀ a b, compare .equal a b = true ↔ a = b

/-- The interpretation in which constants stand for themselves. -/
def Interpretation.literal : Interpretation Constant where
  constant := id
  inline := .text
  truthy value := value ≠ .text ""
  compare
    | .equal, a, b => a = b
    | .notEqual, a, b => a ≠ b
    | .less, .text a, .text b => a < b
    | .greater, .text a, .text b => b < a
    | .lessEqual, .text a, .text b => ¬ b < a
    | .greaterEqual, .text a, .text b => ¬ a < b
    | _, .number _, _ | _, _, .number _ => false
  compare_equal a b := by
    cases a <;> cases b <;> exact decide_eq_true_iff

/-- A state: its objects with their types. -/
abbrev Scene (V : Type) := List (V × V)

/-- What a variable of a script may hold. -/
inductive Content (V : Type)
  | single (value : V)
  | several (values : List V)
  deriving DecidableEq

variable {V : Type} (m : Interpretation V) (scene : Scene V) (ρ : String → V)

namespace Scene

/-- The type of an object. -/
def typeOf? (object : V) : Option V :=
  (scene.find? fun (name, _) => m.compare .equal name object).map Prod.snd

/-- The objects of a type, in the order of the state. -/
def ofType (typeName : String) : List V :=
  (scene.filter fun (_, type) => m.compare .equal type (m.constant (.text typeName))).map Prod.fst

end Scene

/-- Whether two lists hold the same values. -/
def Interpretation.sameSet (xs ys : List V) : Bool :=
  xs.all (fun x => ys.any (m.compare .equal x)) && ys.all fun y => xs.any (m.compare .equal y)

/-! ## Rules -/

/-- The value of an argument. Only a single value has one: a continuation and a state have none. -/
def Arg.value? : Arg → Option V
  | .variable name => some (ρ name)
  | .literal text => some (m.constant (.text text))
  | .number value => some (m.constant (.number value))
  | .python code => some (m.inline code)
  | .continuation _ | .state _ => none

/-- The value of an operand that is a single value. -/
def Operand.value? : Operand → Option V
  | .value arg => arg.value? m ρ
  | .type name => scene.typeOf? m (ρ name)
  | .all _ | .list _ => none

/-- Whether a predicate holds. All objects of a type are compared with a list as sets, whichever
side they stand on. -/
def Predicate.truth? : Predicate → Option Bool
  | .bare operand _ => m.truthy <$> operand.value? m scene ρ
  | .compare left op right _ =>
    match left, right with
    | .all typeName, .list items | .list items, .all typeName =>
      if op = .equal then m.sameSet (scene.ofType m typeName) <$> items.mapM (Arg.value? m ρ)
      else none
    | _, _ => m.compare op <$> left.value? m scene ρ <*> right.value? m scene ρ

/-- An action as it is seen: its name with the values of its arguments. -/
def Action.value? (action : Action) : Option (String × List V) :=
  (action.name, ·) <$> action.args.mapM (Arg.value? m ρ)

/-- The condition is true or false: all its predicates have a truth value, and with these its chain
is read by the grammar as `b`. -/
def Condition.Means (c : Condition) (b : Bool) : Prop :=
  c.ReadsAs (Predicate.truth? m scene ρ) b

variable {m ρ}

/-! ## Small facts -/

theorem Arg.eq_of_variableName? {arg : Arg} {name : String} (h : arg.variableName? = some name) :
    arg = .variable name := by
  unfold Arg.variableName? at h
  split at h
  · rw [Option.some.inj h]
  · cases h

theorem Arg.value?_of_constant? {arg : Arg} {value : Constant}
    (h : arg.constant? = some value) : arg.value? m ρ = some (m.constant value) := by
  cases arg with
  | literal text =>
    obtain rfl := Option.some.inj h
    rfl
  | number n =>
    obtain rfl := Option.some.inj h
    rfl
  | _ => cases h

/-- Values are compared when both are there. -/
theorem compare_eq_some_iff {op : Comparison} {x y : Option V} {b : Bool} :
    m.compare op <$> x <*> y = some b ↔ ∃ v w, x = some v ∧ y = some w ∧ m.compare op v w = b := by
  constructor
  · intro h
    cases x with
    | none => cases h
    | some v =>
      cases y with
      | none => cases h
      | some w => exact ⟨v, w, rfl, rfl, Option.some.inj h⟩
  · rintro ⟨v, w, rfl, rfl, rfl⟩
    rfl

/-- An operand that is a single value. -/
def Operand.Single : Operand → Prop
  | .value _ | .type _ => True
  | .all _ | .list _ => False

/-- Single values are compared by themselves. -/
theorem Predicate.truth?_compare {left right : Operand} (hleft : left.Single) (op : Comparison)
    (position : Nat) :
    (Predicate.compare left op right position).truth? m scene ρ =
      m.compare op <$> left.value? m scene ρ <*> right.value? m scene ρ := by
  cases left with
  | value | type => cases right <;> rfl
  | all | list => exact hleft.elim

/-! ## Rules that are written out -/

/-- A list is written out: none of its items stands for several. -/
def Operand.Explicit : Operand → Prop
  | .list items => ∀ arg ∈ items, arg.continuation? = none
  | _ => True

/-- The lists of a predicate are written out. -/
def Predicate.Explicit : Predicate → Prop
  | .compare left _ right _ => left.Explicit ∧ right.Explicit
  | .bare _ _ => True

/-- The intention of a rule and the lists of its condition are written out. -/
structure Rule.Explicit (rule : Rule) : Prop where
  intention : ∀ arg ∈ rule.intention.args, arg.continuation? = none
  lists : ∀ c, rule.condition = some c → ∀ p ∈ c.atoms, p.Explicit

/-! ## Operands -/

/-- The operands of a predicate. -/
def Predicate.operands : Predicate → List Operand
  | .bare operand _ => [operand]
  | .compare left _ right _ => [left, right]

/-- The operands in the condition of a rule, from left to right. -/
def Rule.operands (rule : Rule) : List Operand :=
  match rule.condition with
  | some c => c.atoms.flatMap Predicate.operands
  | none => []

end CausalRules
