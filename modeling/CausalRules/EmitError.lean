import CausalRules.Target

/-!
# Why a program has no script

- `Construct`: what a target cannot express.
- `TailFault`: why a continuation cannot be expressed.
- `Disagreement`: how the rules of one intention disagree on its parameters.
- `EmitError`: the causes, with the byte offset they point at.
-/

namespace CausalRules

/-- What a target cannot express. -/
inductive Construct
  | bareOperand
  | allOperator
  | allWithoutList
  | listWithoutAll
  | twoConstants
  | constant
  | stateInCondition
  | collection
  | stateArgument
  | pythonArgument
  | allMember
  deriving DecidableEq, Repr

/-- The wording of a construct. -/
def Construct.text : Construct → String
  | .bareOperand => "operand without a comparison"
  | .allOperator => "ALL(...) with an operator other than `=`"
  | .allWithoutList => "ALL(...) compared with anything but a list"
  | .listWithoutAll => "list outside an ALL(...) comparison"
  | .twoConstants => "comparison between two constants"
  | .constant => "constant"
  | .stateInCondition => "STATE(...) in a condition"
  | .collection => "collection operand"
  | .stateArgument => "STATE(...) argument"
  | .pythonArgument => "inline python argument"
  | .allMember => "ALL(...) list member"

/-- Why a continuation cannot be expressed. -/
inductive TailFault
  | notAfterVariable
  | outsideList
  | beforeFirst
  | notAfterVariables
  | notAfterElements
  | notConsecutive
  | notLast
  deriving DecidableEq, Repr

/-- The wording of a fault. -/
def TailFault.text : TailFault → String
  | .notAfterVariable => "continuation must follow a variable"
  | .outsideList => "continuation outside a list"
  | .beforeFirst => "continuation reaches before the first argument"
  | .notAfterVariables => "continuation must follow variables"
  | .notAfterElements => "continuation must follow elements of a sequence"
  | .notConsecutive => "arguments covered by a continuation must be consecutive elements"
  | .notLast => "continuation must be the last argument"

/-- How a rule disagrees with what its intention's parameters must be. -/
inductive Disagreement
  | notVariable
  | repeated (name : String)
  | continuationStart (start earlier : Nat)
  | tooFew (least : Nat)
  | count (expected found : Nat)
  deriving DecidableEq, Repr

/-- The wording of a disagreement. -/
def Disagreement.text : Disagreement → String
  | .notVariable => "intention parameters must be variables"
  | .repeated name => s!"parameter `{name}` repeats"
  | .continuationStart start earlier =>
    s!"continuation starts at parameter {start}, earlier rules start at {earlier}"
  | .tooFew least => s!"expected at least {least} parameters"
  | .count expected found => s!"expected {expected} parameters, found {found}"

/-- Why a program has no script for a target. -/
inductive EmitError
  /-- A variable of an intention or a condition stands in no effect. -/
  | unknownArgument (name : String) (position : Nat)
  /-- A variable that neither the intention nor the condition binds. -/
  | unboundVariable (name : String) (position : Nat)
  /-- Two variables are compared of which neither is bound. -/
  | unboundVariables (left right : String) (position : Nat)
  /-- A comparison binds a variable inside an `or`. -/
  | bindingUnderOr (name : String) (position : Nat)
  | unsupported (construct : Construct) (target : Target) (position : Nat)
  | invalidContinuation (fault : TailFault) (position : Nat)
  /-- The rules of an intention disagree on its parameters. -/
  | inconsistentIntention (intention : String) (reason : Disagreement) (position : Nat)
  /-- Two intentions have the same name in the script. -/
  | duplicateMethod (function first second : String)
  deriving DecidableEq, Repr

namespace EmitError

/-- The byte offset that an error points at. -/
def position? : EmitError → Option Nat
  | unknownArgument _ position | unboundVariable _ position | unboundVariables _ _ position
  | bindingUnderOr _ position | unsupported _ _ position | invalidContinuation _ position
  | inconsistentIntention _ _ position => some position
  | duplicateMethod .. => none

/-- The wording of an error. -/
def message : EmitError → String
  | unknownArgument name position =>
    s!"variable `{name}` at {position} does not appear in any effect"
  | unboundVariable name position =>
    s!"variable `{name}` at {position} is not bound by the intention or condition"
  | unboundVariables left right position =>
    s!"neither `{left}` nor `{right}` is bound in comparison at {position}"
  | bindingUnderOr name position =>
    s!"`{name}` is bound at {position} inside an `||` condition"
  | unsupported construct target position =>
    s!"{construct.text} is not supported by the {target.name} target (at {position})"
  | invalidContinuation fault position =>
    s!"invalid continuation at {position}: {fault.text}"
  | inconsistentIntention intention reason position =>
    s!"rule for `{intention}` at {position}: {reason.text}"
  | duplicateMethod function first second =>
    s!"intentions `{first}` and `{second}` both map to python function `{function}`"

end EmitError

end CausalRules
