import CausalRules.Log.Level
import CausalRules.Target

/-!
# Arguments of the command line

- `Invocation`: what the arguments ask for.
- `Invocation.ofArguments`: reads the arguments, in order. An option that every command has may be
  given before the command's name and again after it; then the later one counts.
- `Refusal`: the arguments ask for help, or they cannot be understood.
-/

namespace CausalRules.CommandLine

/-- Where the text of a program comes from. -/
inductive Source
  | file (path : String)
  | text (text : String)
  deriving DecidableEq, Repr

/-- A command. -/
inductive Command
  /-- Makes scripts and writes them. -/
  | compile (source : Source) (outDir? : Option String) (targets : List Target)
  /-- Makes scripts and compares them with those on the disk. -/
  | check (source : Source) (outDir? : Option String) (targets : List Target)
  /-- Prints the tokens of a program. -/
  | tokens (source : Source)
  /-- Prints a program as JSON. -/
  | parse (source : Source)
  /-- Says that the settings are valid. -/
  | validateSettings
  /-- Prints an example of settings. -/
  | exampleSettings
  deriving DecidableEq, Repr

/-- What the arguments ask for. -/
structure Invocation where
  showVersion : Bool
  settingsFile? : Option String
  logLevel? : Option Log.Level
  logFile? : Option String
  command? : Option Command
  deriving DecidableEq, Repr

/-- Why arguments are not carried out. -/
inductive Refusal
  /-- They cannot be understood. -/
  | usage
  /-- They ask for help. -/
  | help
  deriving DecidableEq, Repr

/-! ## Options -/

/-- The name of an option. -/
inductive OptionName
  | help
  | version
  | config
  | logLevel
  | logFile
  | input
  | text
  | outDir
  | target
  deriving DecidableEq, Repr

namespace OptionName

/-- Every option with the text of its name. -/
def table : List (String × OptionName) := [
  ("help", help), ("version", version), ("config", config), ("log-level", logLevel),
  ("log-file", logFile), ("input", input), ("text", text), ("out-dir", outDir),
  ("target", target)]

end OptionName

/-- The options given so far. -/
structure Options where
  version : Bool := false
  config? : Option String := none
  logLevel? : Option Log.Level := none
  logFile? : Option String := none
  input? : Option String := none
  text? : Option String := none
  outDir? : Option String := none
  targets? : Option (List Target) := none
  deriving DecidableEq, Repr

/-- The targets that a word selects. -/
def targetsOf? (word : String) : Option (List Target) :=
  if word = "all" then some Target.all
  else (Target.all.find? (·.name = word)).map ([·])

namespace Options

/-- A value for an option that has none yet. -/
def once {α : Type} (old : Option α) (value? : Option α) : Except Refusal (Option α) :=
  match old, value? with
  | none, some value => .ok (some value)
  | _, _ => .error .usage

/-- A path. It is not empty. -/
def path? (value : String) : Option String :=
  if value.isEmpty then none else some value

/-- Notes an option with its value. An option is given once. -/
def set (options : Options) (name : OptionName) (value : String) : Except Refusal Options := do
  match name with
  | .help | .version => throw .usage
  | .config => return { options with config? := ← once options.config? (path? value) }
  | .logLevel =>
    return { options with logLevel? := ← once options.logLevel? (Log.Level.ofName? value) }
  | .logFile => return { options with logFile? := ← once options.logFile? (path? value) }
  | .input => return { options with input? := ← once options.input? (path? value) }
  | .text => return { options with text? := ← once options.text? (some value) }
  | .outDir => return { options with outDir? := ← once options.outDir? (path? value) }
  | .target => return { options with targets? := ← once options.targets? (targetsOf? value) }

/-- Notes the option whose value was read last, if there is one. -/
def settle (options : Options) : Option (OptionName × String) → Except Refusal Options
  | some (name, value) => options.set name value
  | none => .ok options

/-- Notes that the version is asked for, which is done once. -/
def setVersion (options : Options) : Except Refusal Options :=
  if options.version then .error .usage else .ok { options with version := true }

/-- Where the program comes from: a file or a text, and not both. -/
def source (options : Options) : Except Refusal Source :=
  match options.input?, options.text? with
  | some path, none => .ok (.file path)
  | none, some text => .ok (.text text)
  | _, _ => .error .usage

end Options

/-! ## Places -/

/-- A command that takes a program. -/
inductive ProgramCommand
  | compile
  | check
  | tokens
  | parse
  deriving DecidableEq, Repr

/-- How far the name of the command is known. -/
inductive Place
  | top
  | program (command : ProgramCommand)
  | config
  | configLeaf (command : Command)
  deriving DecidableEq, Repr

namespace Place

/-- Whether an option may be given at a place. -/
def allows : Place → OptionName → Bool
  | program .compile, _ | program .check, _ => true
  | program .tokens, name | program .parse, name => name ≠ .outDir && name ≠ .target
  | _, name => [.help, .version, .config, .logLevel, .logFile].contains name

/-- The place that a word leads to. -/
def next? : Place → String → Option Place
  | top, "compile" => some (program .compile)
  | top, "check" => some (program .check)
  | top, "tokens" => some (program .tokens)
  | top, "parse" => some (program .parse)
  | top, "config" => some config
  | config, "validate" => some (configLeaf .validateSettings)
  | config, "example" => some (configLeaf .exampleSettings)
  | _, _ => none

/-- The command that the options at a place complete. -/
def command (place : Place) (options : Options) : Except Refusal (Option Command) := do
  let targets := options.targets?.getD Target.all
  match place with
  | top => return none
  | program .compile => return some (.compile (← options.source) options.outDir? targets)
  | program .check => return some (.check (← options.source) options.outDir? targets)
  | program .tokens => return some (.tokens (← options.source))
  | program .parse => return some (.parse (← options.source))
  | config => throw .usage
  | configLeaf command => return some command

end Place

/-! ## Reading -/

namespace Invocation

/-- What the options at a place ask for. -/
def ofOptions (place : Place) (options : Options) : Except Refusal Invocation := do
  return ⟨options.version, options.config?, options.logLevel?, options.logFile?,
    ← place.command options⟩

/-- Adds the options of the place before; those given deeper count. -/
def under (invocation : Invocation) (options : Options) : Invocation where
  showVersion := invocation.showVersion || options.version
  settingsFile? := invocation.settingsFile?.or options.config?
  logLevel? := invocation.logLevel?.or options.logLevel?
  logFile? := invocation.logFile?.or options.logFile?
  command? := invocation.command?

end Invocation

/-- An argument by its form. -/
inductive Word
  /-- Two dashes: no options follow. -/
  | separator
  /-- Two dashes and a name, with a value after an equals sign if there is one. -/
  | long (name : String) (value? : Option String)
  /-- One dash and letters. -/
  | short (letters : List Char)
  | plain (text : String)
  deriving DecidableEq, Repr

/-- The form of an argument. -/
def Word.ofText (text : String) : Word :=
  match text.toList with
  | ['-', '-'] => .separator
  | '-' :: '-' :: rest =>
    let name := String.ofList (rest.takeWhile (· ≠ '='))
    match rest.dropWhile (· ≠ '=') with
    | '=' :: value => .long name (some (String.ofList value))
    | _ => .long name none
  | '-' :: letter :: rest => .short (letter :: rest)
  | _ => .plain text

/-- Whether an argument may be the value of the option before it. -/
def isValue (text : String) : Bool :=
  match Word.ofText text with
  | .plain _ => true
  | _ => false

/-- Reads the arguments at a place. The option whose value was read last is noted when the next
option is read, or at the end. -/
def readAt (place : Place) (options : Options) (last : Option (OptionName × String)) :
    List String → Except Refusal Invocation
  | [] => do Invocation.ofOptions place (← options.settle last)
  | argument :: rest =>
    match Word.ofText argument with
    | .separator => do
      if !rest.isEmpty then throw .usage
      Invocation.ofOptions place (← options.settle last)
    | .short letters => do
      let _ ← options.settle last
      throw (if letters.head? = some 'h' then .help else .usage)
    | .long name value? => do
      match (OptionName.table.lookup name).filter place.allows, value? with
      | none, _ => throw .usage
      | some .help, none =>
        let _ ← options.settle last
        throw .help
      | some .version, none => readAt place (← (← options.settle last).setVersion) none rest
      | some name, some value => readAt place (← (← options.settle last).set name value) none rest
      | some name, none =>
        let options ← options.settle last
        match rest with
        | value :: rest =>
          if isValue value then readAt place options (some (name, value)) rest else throw .usage
        | [] => throw .usage
    | .plain word =>
      match place.next? word with
      | some next => do
        let invocation ← readAt next {} none rest
        return invocation.under (← options.settle last)
      | none => throw .usage

/-- What arguments ask for. -/
def Invocation.ofArguments (arguments : List String) : Except Refusal Invocation :=
  readAt .top {} none arguments

end CausalRules.CommandLine
