import CausalRules.Log.Event
import CausalRules.Text.Blank
import CausalRules.Text.Split

/-!
# Log filters

A filter says down to which level the events of each component are logged.

- `Filter.ofText?`: reads a filter, a list of levels and of components with levels.
- `Filter.allows`: whether an event is logged. Of the components that a filter names, the longest name
  with which the event's component begins decides.
- `directive`: the text of the filter in force.
-/

namespace CausalRules.Log

/-- The lowest level, as the number of levels that are at least as severe, for the components whose
names begin with a text. -/
structure Directive where
  component : String
  rank : Nat
  deriving DecidableEq, Repr

/-- Later directives replace earlier ones for the same text. -/
abbrev Filter := List Directive

/-! ## Reading -/

/-- The rank that digits name, up to that of the lowest level. They may have a plus sign. -/
def rankOfDigits? (text : List Char) : Option Nat :=
  let digits := if text.head? = some '+' then text.tail else text
  if digits.isEmpty || !digits.all Char.isDigit then none
  else
    let significant := digits.dropWhile (· = '0')
    if significant.length ≤ 1 then
      some (significant.foldl (fun _ c => c.toNat - '0'.toNat) 0) |>.filter (· ≤ Level.trace.rank)
    else none

/-- The rank of a level: its number or its name in any case. Nothing is logged at rank zero. -/
def rankOf? (text : List Char) : Option Nat :=
  match rankOfDigits? text with
  | some rank => some rank
  | none =>
    let name := Text.lowerAscii (String.ofList text)
    if name = "off" then some 0 else (Level.ofName? name).map Level.rank

/-- Whether a directive may begin with a character. -/
def opensDirective (c : Char) : Bool :=
  c.isAlphanum || 0x80 ≤ c.toNat || c = '-' || c = '_' || c = ':'

/-- Reads a directive: a level, a component with its level after an equals sign, or a component of
which everything is logged. Blanks in front decide neither whether a directive opens properly nor
where its equals sign is looked for, but they belong to its text. -/
def Directive.ofText? (text : List Char) : Option Directive :=
  let trimmed := Text.trimList text
  if !(trimmed.head?.any opensDirective) then none
  else
    let width := (trimmed.takeWhile (· ≠ '=')).length
    if width = trimmed.length then
      match rankOf? text with
      | some rank => some ⟨"", rank⟩
      | none => some ⟨String.ofList text, Level.trace.rank⟩
    else
      let level := text.drop (width + 1)
      let component := String.ofList (text.take width)
      if level.isEmpty then some ⟨component, Level.trace.rank⟩
      else (rankOf? level).map fun rank => ⟨component, rank⟩

/-- Reads a filter: directives with commas between them. Without any, only errors are logged. -/
def Filter.ofText? (text : String) : Option Filter :=
  match (Text.splitAll ',' text.toList).filter (!·.isEmpty) with
  | [] => some [⟨"", Level.error.rank⟩]
  | parts => parts.mapM Directive.ofText?

/-! ## Choosing -/

/-- The directive that decides about a component. -/
def Filter.decisive? (filter : Filter) (component : String) : Option Directive :=
  filter.foldl (fun best directive =>
    if directive.component.toList.isPrefixOf component.toList &&
        best.all (·.component.length ≤ directive.component.length) then some directive
    else best) none

/-- Whether an event is logged. -/
def Filter.allows (filter : Filter) (event : Event) : Bool :=
  (filter.decisive? event.component.name).any (event.level.rank ≤ ·.rank)

/-- The environment variable that holds a filter. -/
def environmentName : String := "CAUSAL_COMPILER_LOG"

/-- The text of the filter in force: that of the command line, else that of the settings, else that
of the environment unless it is blank. Without any, a log on the terminal holds warnings and a log
file holds progress as well. -/
def directive (commandLine settings environment : Option String) (toFile : Bool) : String :=
  let environment := environment.filter fun text => !(Text.trim text).isEmpty
  ((commandLine.or settings).or environment).getD
    (if toFile then Level.info.name else Level.warn.name)

end CausalRules.Log
