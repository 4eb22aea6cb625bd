import CausalRules.Compile
import CausalRules.Log.Event

/-!
# The events of making a script

- `Program.readEvents`: the events of reading a program from its text.
- `Program.scriptEvents`: the events of making a script. A rule or an intention is named when its turn
  comes, so the one that fails is the last.
-/

namespace CausalRules

/-- The items of a list up to the first one that stops, with it. -/
def upTo {α : Type} (stops : α → Bool) : List α → List α
  | [] => []
  | item :: rest => if stops item then [item] else item :: upTo stops rest

/-- Whether a computation fails. -/
def fails {ε α : Type} : Except ε α → Bool
  | .ok _ => false
  | .error _ => true

namespace Program

/-- The events of reading a program from its text. -/
def readEvents (text : String) (result : Except ReadError Program) : List Log.Event :=
  Log.Event.parsing text.utf8ByteSize ::
    match result with
    | .ok program => [.parsed program.rules.length program.maxEffects]
    | .error _ => []

/-- The events of the rules whose blocks are made. -/
def ruleEvents (program : Program) : List Log.Event :=
  (upTo (fun rule => fails (Facility.Block.ofRule rule.2)) (program.rules.zipIdx.map
    fun (rule, index) => (index, rule))).map
      fun (index, rule) => .emittingRule index rule.intention.name

/-- The events of the intentions whose methods are made. There are none if two of them would have the
same name in the script. -/
def methodEvents (program : Program) : List Log.Event :=
  match Imitation.groupsOf program.rules with
  | .error _ => []
  | .ok groups =>
    (upTo (fun group => fails (Imitation.Method.ofRules group.name group.rules)) groups).map
      fun group => .emittingMethod group.name (Script.identifier group.name) group.rules.length

/-- The events of making a script, of which the result is known. -/
def scriptEvents (program : Program) (target : Target) (result : Except EmitError String) :
    List Log.Event :=
  .emitting target ::
    (match target with
      | .facility =>
        program.ruleEvents ++ if fails result then [] else [.splicingFacility program.maxEffects]
      | .imitation =>
        program.methodEvents ++
          match Imitation.methodsText program with
          | .ok methods => [.splicingImitation methods.utf8ByteSize]
          | .error _ => []) ++
    match result with
    | .ok script => [.rendered target script.utf8ByteSize]
    | .error _ => []

end Program

end CausalRules
