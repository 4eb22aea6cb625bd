import CausalRules.Log.Level
import CausalRules.Target

/-!
# Log events

- `Component`: the part of the program that reports an event; filters choose events by its name.
- `Event`: what happened, with named values; `Event.line` is its line in the log.
- The events of a run, from `Event.started` to `Event.failed`.
-/

namespace CausalRules.Log

/-- A part of the program that reports events. -/
inductive Component
  | commandLine
  | compiler
  | facility
  | imitation
  deriving DecidableEq, Repr

/-- The name of a part, a path from the whole to the part. -/
def Component.name : Component → String
  | commandLine => "causal_compiler"
  | compiler => "causal_codegen::compiler"
  | facility => "causal_codegen::facility"
  | imitation => "causal_codegen::imitation"

/-- A value that an event names. -/
inductive Value
  | number (value : Nat)
  | flag (value : Bool)
  /-- A text shown as it is, but for control characters. -/
  | shown (text : String)
  /-- A text shown in quotes. -/
  | quoted (text : String)
  deriving DecidableEq, Repr

/-- Something that happened. -/
structure Event where
  level : Level
  component : Component
  text : String
  values : List (String × Value)
  deriving DecidableEq, Repr

/-! ## Text -/

/-- A number in lower-case hexadecimal digits. -/
def hexadecimal (n : Nat) : String :=
  String.ofList (Nat.toDigits 16 n)

/-- Whether a character could control a terminal. -/
def isTerminalControl (c : Char) : Bool :=
  c = '\x1b' || c = '\x07' || c = '\x08' || c = '\x0c' || c = '\x7f' ||
    (0x80 ≤ c.toNat && c.toNat ≤ 0x9F)

/-- A character of a shown text. -/
def showCharacter (c : Char) : String :=
  if !isTerminalControl c then c.toString
  else if c.toNat < 0x10 then "\\x0" ++ hexadecimal c.toNat
  else if c.toNat < 0x80 then "\\x" ++ hexadecimal c.toNat
  else "\\u\x7b" ++ hexadecimal c.toNat ++ "\x7d"

/-- A character of a text in quotes. -/
def quoteCharacter (c : Char) : String :=
  match c with
  | '"' => "\\\""
  | '\\' => "\\\\"
  | '\n' => "\\n"
  | '\r' => "\\r"
  | '\t' => "\\t"
  | '\x00' => "\\0"
  | _ =>
    if c.toNat < 0x20 || (0x7F ≤ c.toNat && c.toNat < 0xA0) then
      "\\u\x7b" ++ hexadecimal c.toNat ++ "\x7d"
    else c.toString

/-- The text of a value. -/
def Value.render : Value → String
  | number value => toString value
  | flag value => if value then "true" else "false"
  | shown text => String.join (text.toList.map showCharacter)
  | quoted text => "\"" ++ String.join (text.toList.map quoteCharacter) ++ "\""

/-- The name of a level in a line, five characters wide. -/
def Level.label : Level → String
  | error => "ERROR"
  | warn => " WARN"
  | info => " INFO"
  | debug => "DEBUG"
  | trace => "TRACE"

namespace Event

/-- The line of an event at a time. -/
def line (time : String) (event : Event) : String :=
  time ++ " " ++ event.level.label ++ " " ++ event.text ++
    String.join (event.values.map fun value => " " ++ value.1 ++ "=" ++ value.2.render) ++ "\n"

/-! ## The events of a run -/

/-- Logging begins. -/
def started (directive : String) : Event :=
  ⟨.debug, .commandLine, "logging initialised", [("directive", .quoted directive)]⟩

/-- A program was read from a file. -/
def sourceRead (path : String) (bytes : Nat) : Event :=
  ⟨.debug, .commandLine, "read causal program", [("path", .shown path), ("bytes", .number bytes)]⟩

/-- A program is about to be read from its text. -/
def parsing (bytes : Nat) : Event :=
  ⟨.debug, .compiler, "parsing causal program", [("bytes", .number bytes)]⟩

/-- A program was read from its text. -/
def parsed (rules maxEffects : Nat) : Event :=
  ⟨.info, .compiler, "parsed program",
    [("rules", .number rules), ("max_effects", .number maxEffects)]⟩

/-- A script is about to be made. -/
def emitting (target : Target) : Event :=
  ⟨.debug, .compiler, "emitting target", [("target", .shown target.name)]⟩

/-- The block of a rule is about to be made. -/
def emittingRule (index : Nat) (intention : String) : Event :=
  ⟨.debug, .facility, "emitting facility rule",
    [("rule", .number index), ("intention", .shown intention)]⟩

/-- The method of an intention is about to be made. -/
def emittingMethod (intention function : String) (rules : Nat) : Event :=
  ⟨.debug, .imitation, "emitting imitation method",
    [("intention", .quoted intention), ("function", .shown function), ("rules", .number rules)]⟩

/-- The blocks are about to be put into their template. -/
def splicingFacility (maxEffects : Nat) : Event :=
  ⟨.debug, .compiler, "splicing facility template", [("max_effects", .number maxEffects)]⟩

/-- The methods are about to be put into their template. -/
def splicingImitation (bytes : Nat) : Event :=
  ⟨.debug, .compiler, "splicing imitation template", [("bytes", .number bytes)]⟩

/-- A script was made. -/
def rendered (target : Target) (bytes : Nat) : Event :=
  ⟨.info, .compiler, "rendered target script",
    [("target", .shown target.name), ("bytes", .number bytes)]⟩

/-- A script was written. -/
def wrote (target : Target) (path : String) : Event :=
  ⟨.info, .commandLine, "wrote script", [("target", .shown target.name), ("path", .shown path)]⟩

/-- A script was compared with the one on the disk. -/
def checked (target : Target) (drift : Bool) : Event :=
  ⟨.info, .commandLine, "checked script",
    [("target", .shown target.name), ("drift", .flag drift)]⟩

/-- A script could not be made or written. -/
def failed (target : Target) : Event :=
  ⟨.warn, .commandLine, "target failed", [("target", .shown target.name)]⟩

end Event

end CausalRules.Log
