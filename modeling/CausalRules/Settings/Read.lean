import CausalRules.Document.Read
import CausalRules.Settings.Validate

/-!
# Reading settings

- `Settings.ofMembers?`: the settings that a document describes. What it leaves out keeps its
  default; a name that is no setting, or a value of another type, is refused.
- `Settings.ofText`: reads and checks settings.
-/

namespace CausalRules.Settings

open Document (Members Node)

/-- The members of a table that has no others than those named. -/
def membersAmong? (names : List String) (members : Members) : Option Members :=
  if members.all (names.contains ·.1) then some members else none

/-- The settings of a section by name. A section may also be written as the array of its settings,
in order; what is missing at its end keeps its default. -/
def section? (name : String) (names : List String) (members : Members) : Option Members :=
  match members.lookup name with
  | none => some []
  | some (.table _ members) => membersAmong? names members
  | some (.array items) => some (names.zip items)
  | some _ => none

/-- A text, or its default. -/
def text? (name fallback : String) (members : Members) : Option String :=
  match members.lookup name with
  | none => some fallback
  | some (.text value) => some value
  | some _ => none

/-- A text that may be left out. -/
def optionalText? (name : String) (members : Members) : Option (Option String) :=
  match members.lookup name with
  | none => some none
  | some (.text value) => some (some value)
  | some _ => none

/-- The least number that is too large for a size, 2^64. -/
def sizeBound : Int := 18446744073709551616

/-- A size, or its default. -/
def size? (name : String) (fallback : Nat) (members : Members) : Option Nat :=
  match members.lookup name with
  | none => some fallback
  | some (.integer (some value)) => if 0 ≤ value ∧ value < sizeBound then some value.toNat else none
  | some _ => none

/-- Where scripts go. -/
def output? (members : Members) : Option OutputSettings := do
  let names := ["dir", "facility_file", "imitation_file"]
  let members ← section? "output" names members
  let fallback : OutputSettings := {}
  return {
    dir := ← text? "dir" fallback.dir members
    facilityFile := ← text? "facility_file" fallback.facilityFile members
    imitationFile := ← text? "imitation_file" fallback.imitationFile members }

/-- The templates. -/
def templates? (members : Members) : Option TemplateSettings := do
  let members ← section? "templates" ["facility", "imitation"] members
  return ⟨← optionalText? "facility" members, ← optionalText? "imitation" members⟩

/-- What is logged. -/
def log? (members : Members) : Option LogSettings := do
  let members ← section? "log" ["level", "file"] members
  return ⟨← optionalText? "level" members, ← optionalText? "file" members⟩

/-- The limits. -/
def limits? (members : Members) : Option Limits := do
  let members ← section? "limits" ["max_input_bytes", "max_nesting"] members
  return ⟨← size? "max_input_bytes" Limits.caps.maxInputBytes members,
    ← size? "max_nesting" Limits.caps.maxNesting members⟩

/-- The settings that a document describes. -/
def ofMembers? (members : Members) : Option Settings := do
  let members ← membersAmong? ["output", "templates", "log", "limits"] members
  return ⟨← output? members, ← templates? members, ← log? members, ← limits? members⟩

/-- The settings that a text describes, checked. What document the text is, is read in the given way. -/
def ofText (text : String) (read : String → Option Members := Document.read) :
    Except SettingsError Settings :=
  if maxFileBytes < text.utf8ByteSize then .error (.invalid .fileTooLarge)
  else
    match (read text).bind ofMembers? with
    | none => .error .malformed
    | some settings => settings.checked.mapError .invalid

end CausalRules.Settings
