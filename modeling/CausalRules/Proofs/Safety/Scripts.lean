import CausalRules.Compile
import CausalRules.Proofs.Safety.Blocks
import CausalRules.Proofs.Safety.Methods
import CausalRules.Proofs.Safety.Reading

/-!
# Nothing crashes

A text is scanned by its bytes, its tokens are read by their index, and scripts are written with checked
accesses. All of it put together ends with a result or with an error of the model, for every text,
every limits and every program.

- `scriptOf`, `compileBytes`: from a text to a script, with every access checked.
- `compileBytes_eq`: compiling has the outcome it has in the model.
- `nothing_crashes`: every part does, also for programs that no text spells.
-/

namespace CausalRules.Safety

/-- A step with its errors renamed. -/
def mapError {ε ε' α : Type} (f : ε → ε') (x : Checked ε α) : Checked ε' α :=
  ExceptT.mk (Except.mapError f <$> x.run)

theorem mapError_checked {ε ε' α : Type} (f : ε → ε') (x : Except ε α) :
    mapError f (checked x) = checked (x.mapError f) :=
  rfl

/-- The script of a program for a target. -/
def scriptOf (program : Program) (templates : Templates) : Target → Checked EmitError String
  | .facility => return templates.facilityScript (← domainOf program)
  | .imitation => return templates.imitationScript (← methodsTextOf program)

theorem scriptOf_eq (program : Program) (templates : Templates) (target : Target) :
    scriptOf program templates target = checked (program.script templates target) := by
  cases target with
  | facility =>
    rw [scriptOf, domainOf_eq]
    exact bind_checked fun _ _ => rfl
  | imitation =>
    rw [scriptOf, methodsTextOf_eq]
    exact bind_checked fun _ _ => rfl

/-- The script of a text for a target. -/
def compileBytes (limits : Limits) (facility imitation : Option String) (target : Target)
    (text : String) : Checked CompileError String := do
  let program ← mapError .read (readBytes limits text)
  let templates ← checked ((Templates.ofGiven facility imitation).mapError .template)
  mapError .emit (scriptOf program templates target)

theorem compileBytes_eq (limits : Limits) (facility imitation : Option String) (target : Target)
    (text : String) : compileBytes limits facility imitation target text =
      checked (compile limits facility imitation target text) := by
  rw [compileBytes, readBytes_eq, mapError_checked]
  refine bind_checked fun program _ => bind_checked fun templates _ => ?_
  rw [scriptOf_eq, mapError_checked]

/-- **Nothing crashes.** Scanning and reading a text, writing the blocks and the methods of a program,
and compiling a text, end with the result or the error they have in the model: no byte or token is
accessed outside the text, no text is cut inside a character, the end of the input is not passed, no
loop takes more steps than there are bytes or tokens, and no access to a list is out of range. -/
theorem nothing_crashes (limits : Limits) (text : String) (program : Program) :
    tokenizeBytes text = checked (tokenize text) ∧
      readBytes limits text = checked (Program.read limits text) ∧
      domainOf program = checked (Facility.Domain.ofProgram program) ∧
      methodsTextOf program = checked (Imitation.methodsText program) ∧
      ∀ facility imitation target, compileBytes limits facility imitation target text =
        checked (compile limits facility imitation target text) :=
  ⟨tokenizeBytes_eq text, readBytes_eq limits text, domainOf_eq program, methodsTextOf_eq program,
    fun facility imitation target => compileBytes_eq limits facility imitation target text⟩

end CausalRules.Safety
