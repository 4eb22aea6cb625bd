import CausalRules.Imitation.Text
import CausalRules.Rule.Read
import CausalRules.Template

/-!
# From the text of a program to a script

- `Program.script`: the script of a program for one target.
- `compile`: reads the text, then takes the templates, then makes the script; the first failure is
  the result.
-/

namespace CausalRules

/-- Why a text has no script. -/
inductive CompileError
  | read (error : ReadError)
  | template (error : TemplateError)
  | emit (error : EmitError)
  deriving DecidableEq, Repr

namespace CompileError

/-- The wording of an error. -/
def message : CompileError → String
  | read error => "parse error: " ++ error.message
  | template error => error.message
  | emit error => "codegen error: " ++ error.message

/-- The byte offset that an error points at. -/
def position? : CompileError → Option Nat
  | read error => error.position?
  | template _ => none
  | emit error => error.position?

end CompileError

/-- The script of a program for a target. -/
def Program.script (program : Program) (templates : Templates) :
    Target → Except EmitError String
  | .facility => return templates.facilityScript (← Facility.Domain.ofProgram program)
  | .imitation => return templates.imitationScript (← Imitation.methodsText program)

/-- The script of a text for a target, with the built-in templates but for those that are given. -/
def compile (limits : Limits) (facility imitation : Option String) (target : Target)
    (text : String) : Except CompileError String := do
  let program ← (Program.read limits text).mapError .read
  let templates ← (Templates.ofGiven facility imitation).mapError .template
  (program.script templates target).mapError .emit

end CausalRules
