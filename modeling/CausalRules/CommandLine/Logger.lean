import CausalRules.CommandLine.Libraries
import CausalRules.Host
import CausalRules.Settings

/-!
# Logging in a run

- `Logger`: a filter, and where the lines go.
- `Logger.start`: sets logging up; `Logger.log` logs an event.
-/

namespace CausalRules.CommandLine

/-- Why logging cannot be set up. -/
inductive LoggingError
  | invalidFilter (directive : String)
  | unopened (path : String) (failure : Failure)
  deriving DecidableEq, Repr

/-- The wording of an error. -/
def LoggingError.message : LoggingError → String
  | invalidFilter directive => s!"invalid log filter {directive}: invalid filter directive"
  | unopened path failure => s!"unable to open log file {path}: {failure.message}"

/-- Which events are logged, and where their lines go: to an open file, or to the terminal. -/
structure Logger (Handle : Type) where
  allows : Log.Event → Bool
  file? : Option Handle

variable {m : Type → Type} {Handle : Type} [Monad m] [Host m Handle] [Libraries]

namespace Logger

/-- Opens the log file, if there is one. -/
def openFile : Option String → m (Except LoggingError (Option Handle))
  | none => return .ok none
  | some path => do
    match ← Host.openToAppend path with
    | .ok handle => return .ok (some handle)
    | .error failure => return .error (.unopened path failure)

/-- Sets logging up by the text of a filter and the path of a log file. -/
def start (directive : String) (file? : Option String) :
    m (Except LoggingError (Logger Handle)) := do
  match Libraries.filter directive with
  | none => return .error (.invalidFilter directive)
  | some allows => return (← openFile file?).map fun handle? => ⟨allows, handle?⟩

/-- Logs an event, if it is let pass. -/
def log (logger : Logger Handle) (event : Log.Event) : m (Except Failure Unit) := do
  if logger.allows event then
    let line := event.line (← Host.time)
    match logger.file? with
    | some handle => Host.extend handle line.toUTF8
    | none => Host.printError line
  else return .ok ()

end Logger

end CausalRules.CommandLine
