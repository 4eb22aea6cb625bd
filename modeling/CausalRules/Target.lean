/-!
# Targets

The two scripts that a rule program is turned into.
-/

namespace CausalRules

/-- A script that a rule program is turned into. -/
inductive Target
  /-- The script that explains observed actions by intentions. -/
  | facility
  /-- The script that replays intentions as actions. -/
  | imitation
  deriving DecidableEq, Repr

namespace Target

/-- Every target, in the order in which the scripts are made. -/
def all : List Target := [facility, imitation]

/-- The name of a target. -/
def name : Target → String
  | facility => "facility"
  | imitation => "imitation"

/-- The file name of a script when settings give none. -/
def defaultFileName : Target → String
  | facility => "facility_domain.py"
  | imitation => "imitation.py"

end Target

end CausalRules
