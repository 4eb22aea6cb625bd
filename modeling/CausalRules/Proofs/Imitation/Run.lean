import CausalRules.Imitation.Method
import CausalRules.Proofs.Meaning

/-!
# Running imitation methods

What a clause of a method of the imitation script returns, given what the names in it denote.

- `Frame`: what the parameters and the lists of objects denote.
- `Binding.value?`, `Term.value?`, `Check.truth?`, `Test.truth?`, `Guard.truth?`: the parts of a
  condition.
- `Call.value?`: the call of an effect, with the rest of a sequence after its arguments.
- `Clause.run?`: the calls that a clause returns, when its guard lets it.
- `Signature.Receives`, `Frame.Lists`: the parameters hold given arguments, and the lists hold the
  objects of their types.

Each of these has no result where the script would fail, as for an element that a sequence does not
have.
-/

namespace CausalRules.Imitation

open Script (membersName)

/-! ## Names -/

/-- What names denote while a method runs. -/
abbrev Frame (V : Type) := String → Option (Content V)

namespace Frame

variable {V : Type} (frame : Frame V)

/-- The value that a name denotes. -/
def one? (name : String) : Option V :=
  match frame name with
  | some (.single value) => some value
  | _ => none

/-- The sequence that a name denotes. -/
def all? (name : String) : Option (List V) :=
  match frame name with
  | some (.several values) => some values
  | _ => none

/-- The lists of objects of some types are those of a state. -/
def Lists (m : Interpretation V) (scene : Scene V) (types : List String) : Prop :=
  ∀ typeName ∈ types, frame.all? (membersName typeName) = some (scene.ofType m typeName)

end Frame

/-- The parameters of a method hold the values given for them: each fixed parameter its own, and the
star parameter begins with those that are left. -/
structure Signature.Receives {V : Type} (signature : Signature) (frame : Frame V)
    (values : List V) : Prop where
  fixed : ∀ (i : Nat) param value, signature.fixed[i]? = some param → values[i]? = some value →
    frame.one? param = some value
  star : ∀ star, signature.star = some star →
    ∃ more, frame.all? star = some (values.drop signature.fixed.length ++ more)

variable {V : Type} (m : Interpretation V) (scene : Scene V) (frame : Frame V)

/-! ## Conditions -/

/-- The value of what a variable stands for. -/
def Binding.value? : Binding → Option V
  | .param name => frame.one? name
  | .element sequence index => do (← frame.all? sequence)[index]?
  | .constant value => some (m.constant value)

/-- The value of a term. -/
def Term.value? : Term → Option V
  | .value binding => binding.value? m frame
  | .python code => some (m.inline code)
  | .typeOf binding => do scene.typeOf? m (← binding.value? m frame)

/-- Whether a check holds. -/
def Check.truth? : Check → Option Bool
  | .same element known => m.compare .equal <$> element.value? m frame <*> known.value? m frame
  | .noElements sequence => List.isEmpty <$> frame.all? sequence

/-- Whether all checks hold; after one that does not, no further one is made. -/
def conjunction? : List Check → Option Bool
  | [] => some true
  | check :: rest => do if ← check.truth? m frame then conjunction? rest else return false

/-- Whether a test holds. -/
def Test.truth? : Test → Option Bool
  | .python code => some (m.truthy (m.inline code))
  | .conjunction checks => conjunction? m frame checks
  | .compare left op right =>
    m.compare op <$> left.value? m scene frame <*> right.value? m scene frame

/-- Whether a guard lets a clause return its calls. -/
def Guard.truth? : Guard → Option Bool
  | .absent | .satisfied => some true
  | .test formula => formula.value? (Test.truth? m scene frame)

/-! ## Calls -/

/-- A call: the name of an effect with its arguments. -/
def Call.value? (call : Call) : Option (String × List V) := do
  let args ← call.args.mapM (Term.value? m scene frame)
  match call.tail with
  | none => return (call.name, args)
  | some (sequence, start) => return (call.name, args ++ (← frame.all? sequence).drop start)

/-- What a clause returns: nothing when its guard does not hold, and its calls otherwise. -/
def Clause.run? (clause : Clause) : Option (Option (List (String × List V))) := do
  if ← clause.guard.truth? m scene frame then
    some <$> clause.calls.mapM (Call.value? m scene frame)
  else return none

end CausalRules.Imitation
