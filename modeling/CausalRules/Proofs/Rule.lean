import CausalRules.Rule

/-!
# Telling programs apart

Arguments may be nested, so whether two are the same is decided together with whether two lists of
them are. All that programs consist of can then be told apart.

- `Arg.same`, `Arg.same_iff`: a decision by recursion, and what it decides.
- Instances of `DecidableEq` for arguments, conditions, rules and programs.
-/

namespace CausalRules

namespace Arg

mutual

/-- Whether two arguments are the same. -/
def same : Arg → Arg → Bool
  | .variable name, .variable name' => name = name'
  | .literal text, .literal text' => text = text'
  | .number value, .number value' => value = value'
  | .continuation offset, .continuation offset' => offset = offset'
  | .state args, .state args' => sameAll args args'
  | .python code, .python code' => code = code'
  | _, _ => false

/-- Whether two lists of arguments are the same. -/
def sameAll : List Arg → List Arg → Bool
  | [], [] => true
  | arg :: args, arg' :: args' => same arg arg' && sameAll args args'
  | _, _ => false

end

mutual

theorem same_iff (arg arg' : Arg) : same arg arg' = true ↔ arg = arg' := by
  cases arg with
  | state args =>
    cases arg' with
    | state args' => rw [same, sameAll_iff args args', state.injEq]
    | _ => simp [same]
  | _ => cases arg' <;> simp [same]

theorem sameAll_iff (args args' : List Arg) : sameAll args args' = true ↔ args = args' := by
  cases args with
  | nil => cases args' <;> simp [sameAll]
  | cons arg args =>
    cases args' with
    | nil => simp [sameAll]
    | cons arg' args' =>
      rw [sameAll, Bool.and_eq_true, same_iff arg arg', sameAll_iff args args', List.cons.injEq]

end

instance : DecidableEq Arg := fun arg arg' => decidable_of_iff _ (same_iff arg arg')

end Arg

deriving instance DecidableEq for Operand, Predicate, Formula, Action, Rule, Program

end CausalRules
