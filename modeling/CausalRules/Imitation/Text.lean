import CausalRules.Imitation.Method
import CausalRules.Script.Line
import CausalRules.Script.Sign

/-!
# The text of imitation methods

- `Method.lines`: the lines of a method. When an intention has more than one rule, a rule's calls are
  returned only if they use every argument of the intention.
- `methodsText`: what is put into the imitation script.
-/

namespace CausalRules.Imitation

open Script (identifier membersName quote Line)

/-- What a variable stands for, in the script. -/
def Binding.render : Binding → String
  | .param name => name
  | .element sequence index => s!"{sequence}[{index}]"
  | .constant value => value.render

/-- A test that is left of a predicate. -/
def Check.render : Check → String
  | .same element known => s!"{element.render} == {known.render}"
  | .noElements sequence => s!"len({sequence}) == 0"

/-- A value in a condition or a call. -/
def Term.render : Term → String
  | .value binding => binding.render
  | .python code => code
  | .typeOf binding => s!"state.objs[{binding.render}][0]"

/-- A test in a condition. -/
def Test.render : Test → String
  | .python code => code
  | .conjunction checks => " and ".intercalate (checks.map Check.render)
  | .compare left op right => s!"{left.render} {op.scriptSign} {right.render}"

/-- A condition in the script. -/
def renderFormula (formula : Formula Test) : String :=
  formula.render Test.render Connective.scriptWord

/-- A call as a tuple. A tuple of the name alone ends with a comma, and so does the part before the
rest of a sequence. -/
def Call.render (call : Call) : String :=
  let written := s!"({quote call.name}" ++ String.join (call.args.map fun arg => "," ++ arg.render)
  match call.tail with
  | some (sequence, start) => written ++ s!",)+tuple({sequence}[{start}:])"
  | none => written ++ (if call.args.isEmpty then ",)" else ")")

/-- The assignment that lists the objects of a type. -/
def listStatement (typeName : String) : String :=
  let object := identifier typeName ++ "_id"
  s!"{membersName typeName} = [{object} for {object} in state.objs if state.objs[{object}][0]" ++
    s!"=={quote typeName}]"

namespace Signature

/-- The parameters in the head of a function, after its first one. -/
def renderParams (signature : Signature) : String :=
  String.join (signature.fixed.map fun param => ", " ++ param) ++
    match signature.star with
    | some star => ", *" ++ star
    | none => ""

/-- The list of all arguments of the intention. -/
def renderArgs (signature : Signature) : String :=
  let fixed := signature.fixed.map fun param => s!"[{param}]"
  let star := match signature.star with
    | some star => [s!"[__obj for __obj in {star}]"]
    | none => []
  "[" ++ ",".intercalate (fixed ++ star) ++ "]"

end Signature

/-- The lines that return the calls of a rule. With the arguments of the intention given, the calls
are returned only if they use all of them. -/
def returnLines (depth : Nat) : Option String → List Line
  | none => [⟨depth, "return __ret_val"⟩]
  | some intentionArgs =>
    [⟨depth, "__all_args = []"⟩,
      ⟨depth, "for __action in __ret_val:"⟩,
      ⟨depth + 1, "for __arg in __action:"⟩,
      ⟨depth + 2, "__all_args.append(__arg)"⟩,
      ⟨depth, "__all_intention_args = " ++ intentionArgs⟩,
      ⟨depth, "__all_intention_args = flatten(__all_intention_args)"⟩,
      ⟨depth, "__all_args = flatten(__all_args)"⟩,
      ⟨depth, "if set(__all_intention_args).issubset(set(__all_args)):"⟩,
      ⟨depth + 1, "return __ret_val"⟩]

namespace Clause

/-- The lines that assign and return the calls. -/
def bodyLines (clause : Clause) (depth : Nat) (intentionArgs : Option String) : List Line :=
  ⟨depth, "__ret_val = [" ++ ",".intercalate (clause.calls.map Call.render) ++ "]"⟩ ::
    returnLines depth intentionArgs

/-- The lines of a clause inside its method. -/
def lines (clause : Clause) (intentionArgs : Option String) : List Line :=
  clause.listed.map (fun typeName => ⟨1, listStatement typeName⟩) ++
    match clause.guard with
    | .absent => clause.bodyLines 1 intentionArgs
    | .satisfied => ⟨1, "if True:"⟩ :: clause.bodyLines 2 intentionArgs
    | .test formula =>
      ⟨1, s!"if {renderFormula formula}:"⟩ :: clause.bodyLines 2 intentionArgs

end Clause

namespace Method

/-- The list of the intention's arguments, which only a method of several rules compares with. -/
def comparedArgs (method : Method) : Option String :=
  if 1 < method.clauses.length then some method.signature.renderArgs else none

/-- The lines of a method, with the statement that declares it. -/
def lines (method : Method) : List Line :=
  let compared := method.comparedArgs
  ⟨0, s!"def {method.function}(state{method.signature.renderParams}):"⟩ ::
    (match method.signature.star with
      | some star => [⟨1, s!"{star} = flatten({star})"⟩]
      | none => []) ++
    method.clauses.flatMap (·.lines compared) ++
    [⟨0, s!"pyhop.declare_methods({quote method.name},{method.function})"⟩]

end Method

/-- The methods of a program, one after the other. -/
def methodsText (program : Program) : Except EmitError String := do
  let methods ← ofProgram program
  return Line.renderAll (methods.flatMap Method.lines)

end CausalRules.Imitation
