import CausalRules.CommandLine.Arguments
import CausalRules.Document.Read
import CausalRules.Failure
import CausalRules.Log.Filter

/-!
# What is left to other libraries

What controls a run is written in languages that have nothing to do with programs: the arguments, the
document with the settings, and the filter of the log. How these are read is left to other libraries,
and so is what becomes of a line of the log that cannot be written.

- `Libraries`: what the other libraries do. Nothing else is asked of them.
-/

namespace CausalRules.CommandLine

/-- What other libraries do for a run. -/
class Libraries where
  /-- What the arguments ask for. -/
  arguments : List String → Except Refusal Invocation
  /-- The members of a document, if the text is one. -/
  document : String → Option Document.Members
  /-- The events that a filter lets pass, if the text is one. -/
  filter : String → Option (Log.Event → Bool)
  /-- The message with which a run stops whose log cannot be written, unless it goes on. -/
  lost : Failure → Option String

instance : Libraries where
  arguments := Invocation.ofArguments
  document := Document.read
  filter text := (Log.Filter.ofText? text).map Log.Filter.allows
  lost _ := none

end CausalRules.CommandLine
