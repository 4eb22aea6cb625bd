import CausalRules.Json
import CausalRules.Rule

/-!
# Rule programs as JSON

Every structure is an object with its fields in order; every choice is an object with one member,
named for the choice.
-/

namespace CausalRules

/-- The digits of a number as they were written. -/
def Number.toJson (n : Number) : Json :=
  .object [("negative", .bool n.negative), ("integer", .string n.whole),
    ("fraction", match n.fraction with
      | some digits => .string digits
      | none => .null)]

mutual

/-- An argument, under the name of its kind. -/
def Arg.toJson : Arg → Json
  | .variable name => .object [("variable", .string name)]
  | .literal text => .object [("literal", .string text)]
  | .number value => .object [("number", value.toJson)]
  | .continuation offset => .object [("continuation", .object [("offset", .number offset)])]
  | .state args => .object [("state", .array (Arg.listToJson args))]
  | .python code => .object [("python", .string code)]

/-- Arguments in order. -/
def Arg.listToJson : List Arg → List Json
  | [] => []
  | arg :: args => arg.toJson :: Arg.listToJson args

end

/-- The name of a connective. -/
def Connective.name : Connective → String
  | .and => "and"
  | .or => "or"

/-- The name of a comparison. -/
def Comparison.name : Comparison → String
  | .equal => "eq"
  | .notEqual => "not_eq"
  | .less => "lt"
  | .greater => "gt"
  | .lessEqual => "lt_eq"
  | .greaterEqual => "gt_eq"

/-- An operand, under the name of its kind. -/
def Operand.toJson : Operand → Json
  | .value arg => .object [("value", arg.toJson)]
  | .all typeName => .object [("all", .string typeName)]
  | .type variableName => .object [("type", .string variableName)]
  | .list items => .object [("list", .array (items.map Arg.toJson))]

/-- A predicate, under the name of its kind. -/
def Predicate.toJson : Predicate → Json
  | .compare left op right position =>
    .object [("compare", .object [("left", left.toJson), ("op", .string op.name),
      ("right", right.toJson), ("position", .number position)])]
  | .bare operand position =>
    .object [("bare", .object [("operand", operand.toJson), ("position", .number position)])]

/-- A condition, under the name of its outermost construct. -/
def conditionToJson : Condition → Json
  | .atom predicate => .object [("compare", predicate.toJson)]
  | .group inner => .object [("group", conditionToJson inner)]
  | .chain left op right =>
    .object [("logical", .object [("left", conditionToJson left), ("op", .string op.name),
      ("right", conditionToJson right)])]

/-- An action with its fields in order. -/
def Action.toJson (action : Action) : Json :=
  .object [("name", .string action.name), ("args", .array (action.args.map Arg.toJson)),
    ("position", .number action.position)]

/-- A rule with its fields in order. -/
def Rule.toJson (rule : Rule) : Json :=
  .object [
    ("condition", match rule.condition with
      | some condition => conditionToJson condition
      | none => .null),
    ("intention", rule.intention.toJson),
    ("effects", .array (rule.effects.map Action.toJson)),
    ("position", .number rule.position)]

/-- A program: its rules. -/
def Program.toJson (program : Program) : Json :=
  .object [("rules", .array (program.rules.map Rule.toJson))]

end CausalRules
