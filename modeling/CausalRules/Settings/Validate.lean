import CausalRules.Path
import CausalRules.Settings
import CausalRules.Text.Blank

/-!
# Checking settings

- `pathFault?`, `fileNameFault?`, `limitFault?`: what is wrong with one setting.
- `Settings.validate`: trims the two file names, then checks names and template paths, then reads the
  level, then checks the rest. The first fault stops it; what was trimmed before stays trimmed.
-/

namespace CausalRules

/-- Whether a name in a path is too long. -/
def hasLongName (path : String) : Bool :=
  (Path.names path).any (Settings.maxNameBytes < ·.utf8ByteSize)

namespace Settings

/-- What is wrong with a path: blanks at its ends do not count. -/
def pathFault? (field : Field) (path : String) : Option SettingsFault :=
  let path := Text.trim path
  if path.isEmpty then some (.blank field)
  else if maxPathBytes < path.utf8ByteSize then some (.tooLong field)
  else if hasLongName path then some (.partTooLong field)
  else none

/-- What is wrong with the name of a file inside the output directory. -/
def fileNameFault? (field : Field) (name : String) : Option SettingsFault :=
  if name.isEmpty then some (.blank field)
  else if maxNameBytes < name.utf8ByteSize then some (.tooLong field)
  else if name.toList.any (fun c => c = '/' || c = '\\') || name = "." || name = ".." then
    some (.notFileName field)
  else none

/-- What is wrong with a limit: it is at least one and at most the built-in limit. -/
def limitFault? (field : Field) (limit most : Nat) : Option SettingsFault :=
  if limit = 0 ∨ most < limit then some (.outOfRange field most) else none

/-- The level that a text names: blanks at its ends and the case of its letters do not count. -/
def level? (text : String) : Option Log.Level :=
  Log.Level.ofName? (Text.lowerAscii (Text.trim text))

/-- The settings with both file names trimmed. -/
def trimFileNames (settings : Settings) : Settings :=
  { settings with
    output := { settings.output with
      facilityFile := Text.trim settings.output.facilityFile
      imitationFile := Text.trim settings.output.imitationFile } }

/-- The settings with the level's name as it is written by itself. -/
def canonicalLevel (settings : Settings) : Settings :=
  { settings with
    log := { settings.log with
      level? := settings.log.level?.bind fun text => (level? text).map (·.name) } }

/-- What is wrong with the file names, trimmed, and with the templates. -/
def namesFault? (settings : Settings) : Option SettingsFault :=
  fileNameFault? .facilityFile settings.output.facilityFile
    <|> fileNameFault? .imitationFile settings.output.imitationFile
    <|> (if settings.output.facilityFile = settings.output.imitationFile then some .sameFileName
      else none)
    <|> settings.templates.facility?.bind (pathFault? .facilityTemplate)
    <|> settings.templates.imitation?.bind (pathFault? .imitationTemplate)

/-- What is wrong with the level. -/
def levelFault? (settings : Settings) : Option SettingsFault :=
  settings.log.level?.bind fun text =>
    if (level? text).isNone then some .unknownLevel else none

/-- What is wrong with the log file and the limits. -/
def limitsFault? (settings : Settings) : Option SettingsFault :=
  settings.log.file?.bind (pathFault? .logFile)
    <|> limitFault? .maxInputBytes settings.limits.maxInputBytes Limits.caps.maxInputBytes
    <|> limitFault? .maxNesting settings.limits.maxNesting Limits.caps.maxNesting

/-- Checks settings and brings names and level into the form in which they are used. The result is
the first fault, if there is one, and the settings as far as they were brought into that form. -/
def validate (settings : Settings) : Option SettingsFault × Settings :=
  match pathFault? .outputDir settings.output.dir with
  | some fault => (some fault, settings)
  | none =>
    let settings := settings.trimFileNames
    match settings.namesFault? <|> settings.levelFault? with
    | some fault => (some fault, settings)
    | none =>
      let settings := settings.canonicalLevel
      (settings.limitsFault?, settings)

/-- Settings that hold after a check, or the first fault. -/
def checked (settings : Settings) : Except SettingsFault Settings :=
  match settings.validate with
  | (none, settings) => .ok settings
  | (some fault, _) => .error fault

end Settings

end CausalRules
