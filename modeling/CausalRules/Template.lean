import CausalRules.Facility.Text
import CausalRules.Target
import CausalRules.Template.Builtin
import CausalRules.Text.Replace

/-!
# Templates

A template is a script in which markers hold the places of the generated parts.

- `Marker`: the markers, and the template in which each must stand.
- `Templates`: one template per target; `Templates.set` accepts a text only if it holds every marker
  of its target.
- `Templates.facilityScript`, `Templates.imitationScript`: the scripts.
-/

namespace CausalRules

/-- A place of a generated part in a template. -/
inductive Marker
  /-- The body of the function that collects causes. -/
  | causes
  /-- The largest number of effects. -/
  | maxEffects
  /-- The methods. -/
  | methods
  deriving DecidableEq, Repr

namespace Marker

/-- The text of a marker. -/
def text : Marker → String
  | causes => "    # INSERT CAUSES HERE"
  | maxEffects => "M = 0 # INSERT M HERE"
  | methods => "# INSERT METHODS HERE"

/-- The target in whose template a marker stands. -/
def target : Marker → Target
  | causes | maxEffects => .facility
  | methods => .imitation

/-- The markers of a template, in the order in which they are looked for. -/
def ofTarget : Target → List Marker
  | .facility => [causes, maxEffects]
  | .imitation => [methods]

/-- Whether a marker stands in a text. -/
def isIn (marker : Marker) (template : String) : Bool :=
  Text.holdsMark marker.text template

/-- Puts a generated part in the place of a marker, where it first stands. -/
def splice (marker : Marker) (part template : String) : String :=
  Text.replaceFirst marker.text part template

end Marker

/-- The largest size of a template file, in bytes. -/
def Template.maxBytes : Nat := 1048576

/-- Why a template cannot be used. -/
inductive TemplateError
  | missingMarker (marker : Marker)
  /-- The file cannot be read, for a reason that the system gives. -/
  | unreadable (reason : String)
  | tooLarge
  | notUnicode
  deriving DecidableEq, Repr

/-- The wording of an error. -/
def TemplateError.message : TemplateError → String
  | .missingMarker marker => s!"{marker.target.name} template is missing marker `{marker.text}`"
  | .unreadable reason => s!"template io error: {reason}"
  | .tooLarge => s!"invalid template: template exceeds {Template.maxBytes} bytes"
  | .notUnicode => "invalid template: template must be utf-8"

/-- The templates in use. -/
structure Templates where
  facility : String
  imitation : String
  deriving DecidableEq, Repr

namespace Templates

/-- The templates that are used when none are given. -/
def builtin : Templates := ⟨Template.builtinFacility, Template.builtinImitation⟩

/-- Puts a text in the place of a target's template. It must hold the target's markers. -/
def set (templates : Templates) (target : Target) (text : String) :
    Except TemplateError Templates :=
  match (Marker.ofTarget target).find? (!·.isIn text) with
  | some marker => .error (.missingMarker marker)
  | none =>
    match target with
    | .facility => .ok { templates with facility := text }
    | .imitation => .ok { templates with imitation := text }

/-- Puts a text, if one is given, in the place of a target's template. -/
def setIfGiven (templates : Templates) (target : Target) : Option String →
    Except TemplateError Templates
  | some text => templates.set target text
  | none => .ok templates

/-- The built-in templates, but for those that are given. -/
def ofGiven (facility imitation : Option String) : Except TemplateError Templates := do
  (← builtin.setIfGiven .facility facility).setIfGiven .imitation imitation

/-- The script that explains. -/
def facilityScript (templates : Templates) (domain : Facility.Domain) : String :=
  Marker.maxEffects.splice s!"M = {domain.maxEffects}"
    (Marker.causes.splice domain.causes templates.facility)

/-- The script that replays. -/
def imitationScript (templates : Templates) (methods : String) : String :=
  Marker.methods.splice methods templates.imitation

end Templates

end CausalRules
