import CausalRules.Limits
import CausalRules.Log.Level
import CausalRules.Target

/-!
# Settings

- `Settings`: where scripts go, which templates they are made from, what is logged and where, and
  the limits on a program.
- `Field`: the settings by name.
- `SettingsFault`: why settings are refused; `SettingsError` adds failures to read them.
-/

namespace CausalRules

/-- Where scripts go. -/
structure OutputSettings where
  dir : String := "output"
  facilityFile : String := Target.facility.defaultFileName
  imitationFile : String := Target.imitation.defaultFileName
  deriving DecidableEq, Repr

/-- The file name of a target's script. -/
def OutputSettings.fileOf (output : OutputSettings) : Target → String
  | .facility => output.facilityFile
  | .imitation => output.imitationFile

/-- The template files that are used instead of the built-in templates. -/
structure TemplateSettings where
  facility? : Option String := none
  imitation? : Option String := none
  deriving DecidableEq, Repr

/-- What is logged, and where. -/
structure LogSettings where
  level? : Option String := none
  file? : Option String := none
  deriving DecidableEq, Repr

/-- All settings. -/
structure Settings where
  output : OutputSettings := {}
  templates : TemplateSettings := {}
  log : LogSettings := {}
  limits : Limits := .caps
  deriving DecidableEq, Repr

/-- A setting. -/
inductive Field
  | outputDir
  | facilityFile
  | imitationFile
  | facilityTemplate
  | imitationTemplate
  | logFile
  | maxInputBytes
  | maxNesting
  deriving DecidableEq, Repr

/-- The name of a setting, after that of its section. -/
def Field.name : Field → String
  | outputDir => "output.dir"
  | facilityFile => "output.facility_file"
  | imitationFile => "output.imitation_file"
  | facilityTemplate => "templates.facility"
  | imitationTemplate => "templates.imitation"
  | logFile => "log.file"
  | maxInputBytes => "limits.max_input_bytes"
  | maxNesting => "limits.max_nesting"

/-- Why settings are refused. -/
inductive SettingsFault
  | fileTooLarge
  | fileNotUnicode
  | filePathTooLong
  | filePathPartTooLong
  | blank (field : Field)
  | tooLong (field : Field)
  | partTooLong (field : Field)
  | notFileName (field : Field)
  | sameFileName
  | unknownLevel
  | outOfRange (field : Field) (most : Nat)
  deriving DecidableEq, Repr

/-- The wording of a fault. -/
def SettingsFault.message : SettingsFault → String
  | fileTooLarge => "config file exceeds size limit"
  | fileNotUnicode => "config file must be utf-8"
  | filePathTooLong => "config path exceeds max length"
  | filePathPartTooLong => "config path component too long"
  | blank field => s!"{field.name} must be non-empty"
  | tooLong field => s!"{field.name} exceeds max length"
  | partTooLong field => s!"{field.name} path component too long"
  | notFileName field => s!"{field.name} must be a file name, not a path"
  | sameFileName => s!"{Field.facilityFile.name} and {Field.imitationFile.name} must differ"
  | unknownLevel => "log.level must be one of " ++ ", ".intercalate (Log.Level.all.map (·.name))
  | outOfRange field most => s!"{field.name} must be between 1 and {most}"

/-- Why there are no settings. -/
inductive SettingsError
  /-- The file cannot be read, for a reason that the system gives. -/
  | unreadable (reason : String)
  /-- The text is no document, or a document with unknown or ill-typed settings. -/
  | malformed
  | invalid (fault : SettingsFault)
  deriving DecidableEq, Repr

/-- The wording of an error. -/
def SettingsError.message : SettingsError → String
  | unreadable reason => "config io error: " ++ reason
  | malformed => "config parse error: the document does not describe settings"
  | invalid fault => "invalid config: " ++ fault.message

namespace Settings

/-- The largest size of a settings file, in bytes. -/
def maxFileBytes : Nat := 1048576

/-- The longest path, in bytes. -/
def maxPathBytes : Nat := 4096

/-- The longest name in a path, in bytes. -/
def maxNameBytes : Nat := 255

/-- The settings file that is read when none is named. -/
def defaultFileName : String := "causal-compiler.toml"

/-- The environment variable that names the settings file. -/
def fileEnvironmentName : String := "CAUSAL_COMPILER_CONFIG"

/-- The lines of an example of a settings file: the default settings, with a level for the log. -/
def exampleLines : List String := [
  "[output]",
  "dir = \"output\"",
  "facility_file = \"facility_domain.py\"",
  "imitation_file = \"imitation.py\"",
  "",
  "[templates]",
  "# facility = \"templates/facility_domain.py.tmpl\"",
  "# imitation = \"templates/imitation.py.tmpl\"",
  "",
  "[log]",
  "level = \"warn\"",
  "# file = \"log.txt\"",
  "",
  "[limits]",
  "max_input_bytes = 1048576",
  "max_nesting = 32",
  ""]

/-- An example of a settings file. -/
def exampleText : String := "\n".intercalate exampleLines

end Settings

end CausalRules
