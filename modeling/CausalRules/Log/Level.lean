/-!
# Levels of log events

- `Level`: from `error`, the most severe, to `trace`.
- `Level.ofName?`: the level with a name.
-/

namespace CausalRules.Log

/-- How severe an event is. -/
inductive Level
  | error
  | warn
  | info
  | debug
  | trace
  deriving DecidableEq, Repr

namespace Level

/-- Every level, the most severe first. -/
def all : List Level := [error, warn, info, debug, trace]

/-- The name of a level. -/
def name : Level → String
  | error => "error"
  | warn => "warn"
  | info => "info"
  | debug => "debug"
  | trace => "trace"

/-- How many levels are at least as severe. -/
def rank : Level → Nat
  | error => 1
  | warn => 2
  | info => 3
  | debug => 4
  | trace => 5

/-- The level with a name, which is in lower case. -/
def ofName? (text : String) : Option Level :=
  all.find? (·.name = text)

end Level

end CausalRules.Log
