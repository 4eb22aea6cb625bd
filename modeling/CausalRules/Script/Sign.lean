import CausalRules.Rule

/-!
# Connectives and comparison signs in a generated script
-/

namespace CausalRules

/-- A connective in a script. -/
def Connective.scriptWord : Connective → String
  | .and => "and"
  | .or => "or"

/-- A comparison sign in a script. -/
def Comparison.scriptSign : Comparison → String
  | .equal => "=="
  | .notEqual => "!="
  | .less => "<"
  | .greater => ">"
  | .lessEqual => "<="
  | .greaterEqual => ">="

end CausalRules
