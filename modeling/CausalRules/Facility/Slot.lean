import CausalRules.Rule

/-!
# Where variables are observed

A demonstration shows actions with their arguments. A rule's effects name some of these arguments by
variables; the slot of a variable is the place of its last occurrence.

- `Slot`: an argument of an effect, both counted from 0.
- `Slots.ofEffects`: the occurrences of variables among the arguments of effects, the last first.
- `Slots.slot?`: the slot of a variable.
-/

namespace CausalRules.Facility

/-- An argument of an effect. -/
structure Slot where
  effect : Nat
  arg : Nat
  deriving DecidableEq, Repr

/-- Variables with places where they occur. -/
abbrev Slots := List (String × Slot)

namespace Slots

/-- The variables among the arguments of effect number `i`, in order. -/
def ofArgs (i : Nat) (args : List Arg) : Slots :=
  args.zipIdx.filterMap fun (arg, j) => arg.variableName?.map fun name => (name, ⟨i, j⟩)

/-- The variables that are arguments of effects, the last occurrence first. -/
def ofEffects (effects : List Action) : Slots :=
  (effects.zipIdx.flatMap fun (effect, i) => ofArgs i effect.args).reverse

/-- The place where a variable occurs last. -/
def slot? (slots : Slots) (name : String) : Option Slot :=
  slots.lookup name

end Slots

end CausalRules.Facility
