import CausalRules.CommandLine.Arguments
import CausalRules.CommandLine.Logger
import CausalRules.Compile.Events
import CausalRules.Message
import CausalRules.Rule.Json
import CausalRules.Settings.Read
import CausalRules.Text.Position
import CausalRules.Token.Scan

/-!
# Running commands

- `Run`: the monad of a run, which stops at a message that says why.
- `loadSettings`, `readSource`, `readProgram`, `loadTemplates`: what the commands have in common.
- `runCompile`: makes each target's script and writes it; a target that fails does not keep the other
  from being written.
- `runCheck`: makes each target's script and compares it with the file; nothing is written.
- `execute`: carries out arguments; the result is the exit code.
-/

namespace CausalRules.CommandLine

variable {m : Type → Type} {Handle : Type} [Monad m] [Host m Handle] [Libraries]

/-- What happens in a run, until a message says why it stops. -/
abbrev Run (m : Type → Type) := ExceptT String m

/-- Whether all that was asked for came true; otherwise the exit code is one. -/
inductive Verdict
  | success
  | failure
  deriving DecidableEq, Repr

/-- The exit code of a verdict. -/
def Verdict.exitCode : Verdict → Nat
  | success => 0
  | failure => 1

/-- The verdict on a list of parts. -/
def Verdict.ofParts (parts : List Verdict) : Verdict :=
  if parts.contains failure then failure else success

/-- The version of the program. -/
def version : String := "0.1.0"

/-! ## Printing -/

/-- The message for a stream that cannot be printed to. -/
def streamMessage (stream : String) (failure : Failure) : String :=
  message "output.write_failed"
    [("stream", message s!"output.stream.{stream}" []), ("error", failure.message)]

/-- Prints a text. -/
def print (text : String) : Run m Unit := do
  if let .error failure := ← (Host.print text : m _) then throw (streamMessage "stdout" failure)

/-- Prints a text where errors are shown. -/
def printError (text : String) : Run m Unit := do
  if let .error failure := ← (Host.printError text : m _) then
    throw (streamMessage "stderr" failure)

/-- Logs an event. What becomes of the run if its line cannot be written is not decided here. -/
def noteOne (logger : Logger Handle) (event : Log.Event) : Run m Unit := do
  match ← (logger.log event : m _) with
  | .ok () => return
  | .error failure =>
    match Libraries.lost failure with
    | none => return
    | some error => throw error

/-- Logs events in order. -/
def note (logger : Logger Handle) (events : List Log.Event) : Run m Unit :=
  events.forM (noteOne logger)

/-! ## Settings -/

/-- What is wrong with the path of the settings file. -/
def settingsPathFault? (path : String) : Option SettingsFault :=
  if Settings.maxPathBytes < path.utf8ByteSize then some .filePathTooLong
  else if hasLongName path then some .filePathPartTooLong
  else none

/-- Settings from the content of a file. -/
def settingsOfContent (content : ByteArray) : Except SettingsError Settings :=
  if Settings.maxFileBytes < content.size then .error (.invalid .fileTooLarge)
  else
    match String.fromUTF8? content with
    | none => .error (.invalid .fileNotUnicode)
    | some text => Settings.ofText text Libraries.document

/-- The settings in force: from the file that the command line names, or the environment, or from the
file with the default name, which need not be there. -/
def loadSettings (file? : Option String) : m (Except SettingsError Settings) := do
  let named? := file?.or (← Host.environment Settings.fileEnvironmentName)
  let path := named?.getD Settings.defaultFileName
  match settingsPathFault? path with
  | some fault => return .error (.invalid fault)
  | none =>
    match ← Host.read path with
    | .ok content => return settingsOfContent content
    | .error failure =>
      if failure = .notFound ∧ named?.isNone then return .ok {}
      else return .error (.unreadable failure.message)

/-! ## Programs and templates -/

/-- The text of a program, with the name that stands in front of its errors. -/
structure SourceText where
  label : String
  text : String
  deriving DecidableEq, Repr

/-- An error with the place in the text that it points at. -/
def SourceText.diagnostic (source : SourceText) (position? : Option Nat) (error : String) :
    String :=
  match position? with
  | some position =>
    let place := Text.placeAt source.text position
    message "diagnostic.located" [("source", source.label), ("line", toString place.line),
      ("column", toString place.column), ("error", error)]
  | none => message "diagnostic.plain" [("source", source.label), ("error", error)]

/-- The message for a file that cannot be read. -/
def readFailureMessage (kind path : String) : ReadFailure → String
  | .failure failure =>
    message "input.read_failed" [("kind", kind), ("path", path), ("error", failure.message)]
  | .tooLarge size limit =>
    message "input.read_too_large" [("kind", kind), ("path", path), ("size", toString size),
      ("limit", toString limit)]

/-- Takes the text of a program, which is at most as large as the limit. -/
def readSource (logger : Logger Handle) (limits : Limits) : Source → Run m SourceText
  | .text text => do
    if limits.maxInputBytes < text.utf8ByteSize then
      throw (message "input.text_too_large" [("size", toString text.utf8ByteSize),
        ("limit", toString limits.maxInputBytes)])
    return ⟨message "input.text_label" [], text⟩
  | .file path => do
    let kind := message "input.source_kind" []
    match ← (readAtMost limits.maxInputBytes path : m _) with
    | .error failure => throw (readFailureMessage kind path failure)
    | .ok content =>
      match String.fromUTF8? content with
      | none => throw (message "input.not_utf8" [("kind", kind), ("path", path)])
      | some text =>
        note logger [.sourceRead path text.utf8ByteSize]
        return ⟨path, text⟩

/-- Reads a program. -/
def readProgram (logger : Logger Handle) (limits : Limits) (source : SourceText) :
    Run m Program := do
  let result := Program.read limits source.text
  note logger (Program.readEvents source.text result)
  match result with
  | .ok program => return program
  | .error error => throw (source.diagnostic error.position? (CompileError.read error).message)

/-- The text of a template file. -/
def readTemplate (path : String) : m (Except TemplateError String) := do
  match ← readAtMost Template.maxBytes path with
  | .error (.failure failure) => return .error (.unreadable failure.message)
  | .error (.tooLarge ..) => return .error .tooLarge
  | .ok content =>
    match String.fromUTF8? content with
    | none => return .error .notUnicode
    | some text => return .ok text

/-- Puts a template file, if there is one, in the place of a target's template. -/
def loadTemplate (target : Target) (file? : Option String) (templates : Templates) :
    Run m Templates := do
  match file? with
  | none => return templates
  | some path =>
    match (← (readTemplate path : m _)).bind (templates.set target) with
    | .ok templates => return templates
    | .error error =>
      throw (message "template.load_failed" [("target", target.name), ("error", error.message)])

/-- The templates in use. -/
def loadTemplates (settings : TemplateSettings) : Run m Templates := do
  let templates ← loadTemplate .facility settings.facility? Templates.builtin
  loadTemplate .imitation settings.imitation? templates

/-! ## Scripts -/

/-- What the scripts of a run are made from, and where they belong. -/
structure Job where
  settings : Settings
  source : SourceText
  program : Program
  templates : Templates
  outDir : String

/-- Prepares scripts: the program is read first, then the templates. -/
def prepare (logger : Logger Handle) (settings : Settings) (source : Source)
    (outDir? : Option String) : Run m Job := do
  let text ← readSource logger settings.limits source
  let program ← readProgram logger settings.limits text
  let templates ← loadTemplates settings.templates
  return ⟨settings, text, program, templates, outDir?.getD settings.output.dir⟩

namespace Job

/-- The file of a target's script. -/
def path (job : Job) (target : Target) : String :=
  Path.join job.outDir (job.settings.output.fileOf target)

/-- A target's script, or the message that says why there is none. -/
def script (job : Job) (target : Target) : Except String String :=
  (job.program.script job.templates target).mapError fun error =>
    job.source.diagnostic error.position? (CompileError.emit error).message

/-- The events of making a target's script. -/
def events (job : Job) (target : Target) : List Log.Event :=
  job.program.scriptEvents target (job.program.script job.templates target)

/-- A message about a target's file. -/
def report (job : Job) (key : String) (target : Target) : String :=
  message key [("target", target.name), ("path", job.path target)] ++ "\n"

/-- A message about a target that failed. -/
def failureReport (target : Target) (error : String) : String :=
  message "compile.target_failed" [("target", target.name), ("error", error)] ++ "\n"

/-- Writes a target's script, unless there is none. -/
def write (job : Job) (target : Target) : m (Except String Unit) := do
  match job.script target with
  | .error error => return .error error
  | .ok script =>
    match ← replaceFile (job.path target) script.toUTF8 with
    | .ok () => return .ok ()
    | .error failure =>
      return .error (message "compile.write_failed" [("path", job.path target),
        ("error", failure.message)])

/-- Makes a target's script, writes it and says so. -/
def compileTarget (logger : Logger Handle) (job : Job) (target : Target) : Run m Verdict := do
  note logger (job.events target)
  match ← ExceptT.lift (job.write target) with
  | .ok () =>
    note logger [.wrote target (job.path target)]
    print (job.report "compile.wrote" target)
    return .success
  | .error error =>
    note logger [.failed target]
    printError (failureReport target error)
    return .failure

/-- The largest script that is read back to compare it, in bytes. -/
def maxScriptBytes : Nat := 16777216

/-- Whether a target's file holds its script. The result is the key of the message that says so. -/
def compare (job : Job) (target : Target) (script : String) : Run m (Verdict × String) := do
  match ← (readAtMost maxScriptBytes (job.path target) : m _) with
  | .ok content =>
    if String.fromUTF8? content = some script then return (.success, "check.up_to_date")
    else return (.failure, "check.drift")
  | .error (.failure .notFound) => return (.failure, "check.missing")
  | .error failure =>
    throw (readFailureMessage (message "input.output_kind" []) (job.path target) failure)

/-- Makes a target's script and says whether the file holds it. `drift` tells whether an earlier
target's file did not hold its script. -/
def checkTarget (logger : Logger Handle) (job : Job) (drift : Bool) (target : Target) :
    Run m Verdict := do
  note logger (job.events target)
  match job.script target with
  | .error error =>
    printError (failureReport target error)
    return .failure
  | .ok script =>
    let (verdict, key) ← job.compare target script
    note logger [.checked target (drift || verdict = .failure)]
    print (job.report key target)
    return verdict

end Job

/-- Makes each target's script and writes it. -/
def runCompile (logger : Logger Handle) (settings : Settings) (source : Source)
    (outDir? : Option String) (targets : List Target) : Run m Verdict := do
  let job ← prepare logger settings source outDir?
  if let .error failure := ← (makeDirectories job.outDir : m _) then
    throw (message "compile.out_dir_failed" [("path", job.outDir), ("error", failure.message)])
  return .ofParts (← targets.mapM (job.compileTarget logger))

/-- Checks targets in order; `verdict` is the verdict on those before them. -/
def checkTargets (logger : Logger Handle) (job : Job) : Verdict → List Target → Run m Verdict
  | verdict, [] => return verdict
  | verdict, target :: rest => do
    let next ← job.checkTarget logger (verdict = .failure) target
    checkTargets logger job (.ofParts [verdict, next]) rest

/-- Makes each target's script and compares it with the file. -/
def runCheck (logger : Logger Handle) (settings : Settings) (source : Source)
    (outDir? : Option String) (targets : List Target) : Run m Verdict := do
  let job ← prepare logger settings source outDir?
  checkTargets logger job .success targets

/-! ## Looking into a program -/

/-- The line of a token. -/
def tokenLine (token : Located) : String :=
  message "tokens.line" [("kind", token.token.kind), ("value", token.token.text),
    ("position", toString token.position)] ++ "\n"

/-- Prints the tokens of a program. -/
def runTokens (logger : Logger Handle) (settings : Settings) (source : Source) : Run m Verdict := do
  let text ← readSource logger settings.limits source
  match tokenize text.text with
  | .error error => throw (text.diagnostic error.position? error.message)
  | .ok tokens =>
    print (String.join (tokens.map tokenLine))
    return .success

/-- Prints a program as JSON. -/
def runParse (logger : Logger Handle) (settings : Settings) (source : Source) : Run m Verdict := do
  let text ← readSource logger settings.limits source
  let program ← readProgram logger settings.limits text
  print (program.toJson.pretty ++ "\n")
  return .success

/-! ## A whole run -/

/-- Carries out a command. -/
def Command.run (logger : Logger Handle) (settings : Settings) : Command → Run m Verdict
  | .compile source outDir? targets => runCompile logger settings source outDir? targets
  | .check source outDir? targets => runCheck logger settings source outDir? targets
  | .tokens source => runTokens logger settings source
  | .parse source => runParse logger settings source
  | .validateSettings => do
    print (message "config.validate.ok" [] ++ "\n")
    return .success
  | .exampleSettings => do
    print Settings.exampleText
    return .success

/-- What is printed for help. -/
def helpText : String := "\n".intercalate [
  "Usage: causal-compiler [OPTIONS] [COMMAND]",
  "",
  "Commands:",
  "  compile          Generate the Python scripts for a causal program",
  "  check            Regenerate the scripts and fail if the files on disk differ",
  "  tokens           Print the token stream of a causal program",
  "  parse            Print the syntax tree of a causal program as JSON",
  "  config validate  Validate the resolved causal-compiler.toml",
  "  config example   Print a canonical example causal-compiler.toml",
  "",
  "Options:",
  "      --version            Print version information and exit",
  "      --config <PATH>      Config file path",
  "      --log-level <LEVEL>  Log level: error, warn, info, debug or trace",
  "      --log-file <PATH>    Append logs to this file",
  "      --input <FILE>       Causal program file",
  "      --text <SOURCE>      Inline causal program text",
  "      --out-dir <DIR>      Output directory",
  "      --target <TARGET>    Scripts to generate: all, facility or imitation",
  "  -h, --help               Print help",
  ""]

/-- What is printed for arguments that cannot be understood. -/
def usageText : String := "\n".intercalate [
  "error: the arguments cannot be understood",
  "",
  "For more information, try '--help'.",
  ""]

/-- Carries out an invocation. -/
def Invocation.run (invocation : Invocation) : Run m Verdict := do
  if invocation.showVersion then
    print (message "main.version" [("version", version)] ++ "\n")
    return .success
  let settings ← match ← (loadSettings invocation.settingsFile? : m _) with
    | .ok settings => pure settings
    | .error error => throw (message "config.load_failed" [("error", error.message)])
  let file? := invocation.logFile?.or settings.log.file?
  let directive := Log.directive (invocation.logLevel?.map (·.name)) settings.log.level?
    (← (Host.environment Log.environmentName : m _)) file?.isSome
  let logger ← match ← (Logger.start directive file? : m _) with
    | .ok logger => pure logger
    | .error error => throw (message "logging.init_failed" [("error", error.message)])
  note logger [.started directive]
  match invocation.command? with
  | some command => command.run logger settings
  | none =>
    print (helpText ++ "\n")
    return .success

/-- Carries out arguments. The result is the exit code. -/
def execute (arguments : List String) : m Nat := do
  match Libraries.arguments arguments with
  | .error .usage =>
    let _ ← Host.printError usageText
    return 2
  | .error .help =>
    let _ ← Host.print helpText
    return 0
  | .ok invocation =>
    match ← invocation.run.run with
    | .ok verdict => return verdict.exitCode
    | .error error =>
      let _ ← Host.printError (error ++ "\n")
      return 1

end CausalRules.CommandLine
