import CausalRules.Proofs.Path
import Mathlib.Data.List.DropRight

/-!
# Checked settings

A check brings settings into a form and says what is wrong with them. The form is kept by a second
check, which finds the same fault or none: whatever a check leaves behind, it leaves as it is.

- `Text.trim_trim`, `Settings.level?_eq_some_iff`: the form of a file name, and that of a level.
- `Settings.IsUsablePath`, `Settings.IsScriptName`, `Settings.InForm`: what may be relied on after a
  check that finds nothing wrong.
- `Settings.Tidied`: what a check may change.
- `Settings.validate_projects`: the three together.
-/

namespace CausalRules

/-! ## Texts without blanks at their ends -/

namespace Text

theorem trimList_trimList (cs : List Char) : trimList (trimList cs) = trimList cs := by
  show ((cs.dropWhile isBlank).rdropWhile isBlank |>.dropWhile isBlank).rdropWhile isBlank =
    (cs.dropWhile isBlank).rdropWhile isBlank
  -- what is left at the front is what was there before blanks were taken from the end
  have hfront : ((cs.dropWhile isBlank).rdropWhile isBlank).dropWhile isBlank =
      (cs.dropWhile isBlank).rdropWhile isBlank := by
    rw [List.dropWhile_eq_self_iff]
    intro hlength hblank
    have hkept := List.rdropWhile_prefix isBlank (cs.dropWhile isBlank)
    have hlonger := Nat.lt_of_lt_of_le hlength hkept.length_le
    refine List.dropWhile_get_zero_not isBlank cs hlonger ?_
    rw [← hblank]
    exact congrArg isBlank (hkept.getElem hlength).symm
  rw [hfront, List.rdropWhile_idempotent]

@[simp] theorem trim_trim (text : String) : trim (trim text) = trim text := by
  rw [trim, trim, String.toList_ofList, trimList_trimList]

end Text

/-! ## Paths of children -/

namespace Path

/-- A path to a file that stands in the directory itself. -/
structure IsChild (directory path : String) : Prop where
  root : isAbsolute path = isAbsolute directory
  names : ∃ name, IsFileName name ∧ names path = names directory ++ [name]

theorem isChild_join {directory name : String} (hdirectory : directory ≠ "")
    (h : IsFileName name) : IsChild directory (join directory name) := by
  refine ⟨?_, name, h, names_join h⟩
  have hne : directory.toList ≠ [] := mt String.toList_eq_nil_iff.mp hdirectory
  obtain ⟨c, cs, hcs⟩ := List.exists_cons_of_ne_nil hne
  unfold isAbsolute join
  split
  · rw [String.toList_append, hcs]
    rfl
  · rw [String.toList_append, String.toList_append, hcs]
    rfl

end Path

namespace Settings

/-! ## Levels -/

/-- A level has its name, and no other level has it. -/
theorem ofName?_eq_some_iff {text : String} {level : Log.Level} :
    Log.Level.ofName? text = some level ↔ text = level.name := by
  have hname : ∀ level other : Log.Level, level.name = other.name → level = other := by
    intro level other
    cases level <;> cases other <;> decide
  have hall : level ∈ Log.Level.all := by cases level <;> decide
  unfold Log.Level.ofName?
  constructor
  · intro h
    have hfound := List.find?_some h
    simp only [decide_eq_true_eq] at hfound
    exact hfound.symm
  · rintro rfl
    cases hfind : Log.Level.all.find? (·.name = level.name) with
    | none => exact absurd (List.find?_eq_none.mp hfind level hall) (by simp)
    | some other =>
      have hfound := List.find?_some hfind
      simp only [decide_eq_true_eq] at hfound
      rw [hname other level hfound]

/-- A text names a level when it is the level's name but for case and for blanks at its ends. -/
theorem level?_eq_some_iff {text : String} {level : Log.Level} :
    level? text = some level ↔ Text.lowerAscii (Text.trim text) = level.name :=
  ofName?_eq_some_iff

/-- A level is named by its name. -/
@[simp] theorem level?_name (level : Log.Level) : level? level.name = some level := by
  rw [level?_eq_some_iff]
  cases level <;> decide

/-! ## What a check makes sure of -/

/-- A path that is not blank and no longer than paths may be, nor is any name in it. -/
structure IsUsablePath (path : String) : Prop where
  not_blank : Text.trim path ≠ ""
  size : (Text.trim path).utf8ByteSize ≤ 4096
  names : ∀ name ∈ Path.names (Text.trim path), name.utf8ByteSize ≤ 255

/-- A name without blanks at its ends that is no path. -/
structure IsScriptName (name : String) : Prop where
  trimmed : Text.trim name = name
  file : Path.IsFileName name
  no_backslash : '\\' ∉ name.toList
  size : name.utf8ByteSize ≤ 255

/-- Settings in the form in which they are used. -/
structure InForm (settings : Settings) : Prop where
  names : ∀ target, IsScriptName (settings.output.fileOf target)
  differ : settings.output.facilityFile ≠ settings.output.imitationFile
  /-- The scripts stand in whatever directory is given; the empty path names none. -/
  children : ∀ directory target, directory ≠ "" →
    Path.IsChild directory (Path.join directory (settings.output.fileOf target))
  apart : ∀ directory, Path.join directory settings.output.facilityFile ≠
    Path.join directory settings.output.imitationFile
  level : ∀ text, settings.log.level? = some text → ∃ level : Log.Level, text = level.name
  dir : IsUsablePath settings.output.dir
  templates : ∀ path, settings.templates.facility? = some path ∨
    settings.templates.imitation? = some path → IsUsablePath path
  file : ∀ path, settings.log.file? = some path → IsUsablePath path
  input : 1 ≤ settings.limits.maxInputBytes ∧
    settings.limits.maxInputBytes ≤ Limits.caps.maxInputBytes
  nesting : 1 ≤ settings.limits.maxNesting ∧ settings.limits.maxNesting ≤ Limits.caps.maxNesting

/-- A file name as it was, or without the blanks at its ends. -/
def NameTidied (before after : String) : Prop :=
  after = before ∨ after = Text.trim before

/-- The settings are those before, but that file names may have lost the blanks at their ends, and the
level these and its capital letters. -/
structure Tidied (before after : Settings) : Prop where
  names : ∀ target, NameTidied (before.output.fileOf target) (after.output.fileOf target)
  level : after.log.level? = before.log.level? ∨
    after.log.level? = before.log.level?.map fun text => Text.lowerAscii (Text.trim text)
  dir : after.output.dir = before.output.dir
  templates : after.templates = before.templates
  file : after.log.file? = before.log.file?
  limits : after.limits = before.limits

section Faults

variable {field : Field} {settings : Settings}

theorem isUsablePath_of_pathFault? {path : String} (h : pathFault? field path = none) :
    IsUsablePath path := by
  unfold pathFault? at h
  dsimp only at h
  split at h
  · cases h
  · rename_i hblank
    split at h
    · cases h
    · rename_i hsize
      split at h
      · cases h
      · rename_i hnames
        refine ⟨mt String.isEmpty_iff.mpr hblank, Nat.le_of_not_lt hsize, fun name hname => ?_⟩
        refine Nat.le_of_not_lt fun hlong => hnames ?_
        exact List.any_eq_true.mpr ⟨name, hname, decide_eq_true hlong⟩

theorem isScriptName_of_fileNameFault? {name : String} (htrimmed : Text.trim name = name)
    (h : fileNameFault? field name = none) : IsScriptName name := by
  suffices hsize : '\\' ∉ name.toList ∧ name.utf8ByteSize ≤ 255 from
    ⟨htrimmed, isFileName_of_fileNameFault? h, hsize.1, hsize.2⟩
  unfold fileNameFault? at h
  split at h
  · cases h
  · split at h
    · cases h
    · rename_i hsize
      split at h
      · cases h
      · rename_i hplain
        simp only [Bool.or_eq_true, not_or, decide_eq_true_iff, List.any_eq_true] at hplain
        exact ⟨fun hmem => hplain.1.1 ⟨'\\', hmem, .inr rfl⟩, Nat.le_of_not_lt hsize⟩

theorem bounds_of_limitFault? {limit most : Nat} (h : limitFault? field limit most = none) :
    1 ≤ limit ∧ limit ≤ most := by
  unfold limitFault? at h
  split at h
  · cases h
  · omega

/-- A path that may be left out holds when it is there. -/
theorem isUsablePath_of_bind {path? : Option String} (h : path?.bind (pathFault? field) = none) :
    ∀ path, path? = some path → IsUsablePath path := by
  rintro path rfl
  rw [Option.bind_some] at h
  exact isUsablePath_of_pathFault? h

end Faults

/-! ## Checking twice -/

section Twice

variable (settings : Settings)

@[simp] theorem trimFileNames_trimFileNames :
    settings.trimFileNames.trimFileNames = settings.trimFileNames := by
  simp [trimFileNames]

theorem trimFileNames_canonicalLevel :
    settings.canonicalLevel.trimFileNames = settings.trimFileNames.canonicalLevel :=
  rfl

@[simp] theorem canonicalLevel_canonicalLevel :
    settings.canonicalLevel.canonicalLevel = settings.canonicalLevel := by
  unfold canonicalLevel
  cases settings.log.level? with
  | none => rfl
  | some text => cases h : level? text <;> simp [h]

/-- The names and templates are checked as they were before the level is brought into its form. -/
theorem namesFault?_canonicalLevel : settings.canonicalLevel.namesFault? = settings.namesFault? :=
  rfl

/-- A level in its form is one. -/
theorem levelFault?_canonicalLevel : settings.canonicalLevel.levelFault? = none := by
  unfold levelFault? canonicalLevel
  cases settings.log.level? with
  | none => rfl
  | some text => cases h : level? text <;> simp [h]

end Twice

/-- How a check ends: at the directory, at a name, a template or the level, or with what it says of
the log file and the limits. -/
theorem validate_cases (settings : Settings) :
    (∃ fault, pathFault? .outputDir settings.output.dir = some fault ∧
      settings.validate = (some fault, settings)) ∨
    pathFault? .outputDir settings.output.dir = none ∧
      ((∃ fault, (settings.trimFileNames.namesFault? <|> settings.trimFileNames.levelFault?) =
          some fault ∧ settings.validate = (some fault, settings.trimFileNames)) ∨
        settings.trimFileNames.namesFault? = none ∧ settings.trimFileNames.levelFault? = none ∧
          settings.validate = (settings.trimFileNames.canonicalLevel.limitsFault?,
            settings.trimFileNames.canonicalLevel)) := by
  unfold validate
  cases hdir : pathFault? .outputDir settings.output.dir with
  | some fault => exact .inl ⟨fault, rfl, rfl⟩
  | none =>
    refine .inr ⟨rfl, ?_⟩
    dsimp only
    cases hfault : (settings.trimFileNames.namesFault? <|> settings.trimFileNames.levelFault?) with
    | some fault => exact .inl ⟨fault, rfl, rfl⟩
    | none =>
      simp only [Option.orElse_eq_orElse, Option.orElse_eq_or, Option.or_eq_none_iff] at hfault
      exact .inr ⟨hfault.1, hfault.2, rfl⟩

/-- What a check leaves behind is left as it is, with the same fault or with none. -/
theorem validate_validate (settings : Settings) :
    settings.validate.2.validate = settings.validate := by
  obtain ⟨fault, -, h⟩ | ⟨hdir, ⟨fault, hfault, h⟩ | ⟨hnames, hlevel, h⟩⟩ := validate_cases settings
  · rw [h, h]
  · -- the directory is the same, and so are the names that were trimmed before
    have hdir' : pathFault? .outputDir settings.trimFileNames.output.dir = none := hdir
    rw [h]
    dsimp only
    unfold validate
    rw [hdir']
    dsimp only
    rw [trimFileNames_trimFileNames, hfault]
  · have hdir' : pathFault? .outputDir settings.trimFileNames.canonicalLevel.output.dir = none :=
      hdir
    rw [h]
    dsimp only
    unfold validate
    rw [hdir']
    dsimp only
    rw [trimFileNames_canonicalLevel, trimFileNames_trimFileNames, namesFault?_canonicalLevel, hnames,
      levelFault?_canonicalLevel]
    rw [canonicalLevel_canonicalLevel]
    rfl

/-! ## What a check may change -/

theorem tidied_refl (settings : Settings) : Tidied settings settings :=
  ⟨fun _ => .inl rfl, .inl rfl, rfl, rfl, rfl, rfl⟩

theorem fileOf_trimFileNames (settings : Settings) (target : Target) :
    settings.trimFileNames.output.fileOf target = Text.trim (settings.output.fileOf target) := by
  cases target <;> rfl

theorem tidied_trimFileNames (settings : Settings) : Tidied settings settings.trimFileNames :=
  ⟨fun target => .inr (fileOf_trimFileNames settings target), .inl rfl, rfl, rfl, rfl, rfl⟩

/-- A level that holds is brought into its form. -/
theorem level?_canonicalLevel {settings : Settings} (h : settings.levelFault? = none) :
    settings.canonicalLevel.log.level? =
      settings.log.level?.map fun text => Text.lowerAscii (Text.trim text) := by
  unfold levelFault? at h
  unfold canonicalLevel
  dsimp only
  cases htext : settings.log.level? with
  | none => rfl
  | some text =>
    rw [htext] at h
    cases hlevel : level? text with
    | none => simp [hlevel] at h
    | some level =>
      rw [Option.bind_some, Option.map_some, hlevel, level?_eq_some_iff.mp hlevel]
      rfl

theorem tidied_validate (settings : Settings) : Tidied settings settings.validate.2 := by
  obtain ⟨fault, -, h⟩ | ⟨-, ⟨fault, -, h⟩ | ⟨-, hlevel, h⟩⟩ := validate_cases settings
  · rw [h]
    exact tidied_refl settings
  · rw [h]
    exact tidied_trimFileNames settings
  · rw [h]
    have htrimmed := tidied_trimFileNames settings
    exact ⟨htrimmed.names, .inr (level?_canonicalLevel hlevel), htrimmed.dir, htrimmed.templates,
      htrimmed.file, htrimmed.limits⟩

/-! ## What holds after a check -/

theorem inForm_of_validate {settings found : Settings} (h : settings.validate = (none, found)) :
    found.InForm := by
  obtain ⟨fault, -, hend⟩ | ⟨hdir, ⟨fault, -, hend⟩ | ⟨hnames, -, hend⟩⟩ :=
    validate_cases settings
  · rw [hend] at h
    cases h
  · rw [hend] at h
    cases h
  · rw [hend] at h
    obtain ⟨hlimits, rfl⟩ := Prod.mk.inj h
    have hnamed := named_of_namesFault? hnames
    unfold namesFault? at hnames
    unfold limitsFault? at hlimits
    simp only [Option.orElse_eq_orElse, Option.orElse_eq_or, Option.or_eq_none_iff]
      at hnames hlimits
    obtain ⟨hfacility, himitation, -, htemplate, htemplate'⟩ := hnames
    obtain ⟨hfile, hinput, hnesting⟩ := hlimits
    have hscripts : ∀ target, IsScriptName (settings.trimFileNames.output.fileOf target) := by
      intro target
      have htrimmed : Text.trim (settings.trimFileNames.output.fileOf target) =
          settings.trimFileNames.output.fileOf target := by
        rw [fileOf_trimFileNames, Text.trim_trim]
      cases target with
      | facility => exact isScriptName_of_fileNameFault? htrimmed hfacility
      | imitation => exact isScriptName_of_fileNameFault? htrimmed himitation
    have hdiffer := hnamed.differ .facility .imitation nofun
    refine ⟨hscripts, hdiffer, fun directory target hdirectory => ?_, fun directory heq => ?_, ?_,
      isUsablePath_of_pathFault? hdir, ?_, isUsablePath_of_bind hfile, bounds_of_limitFault? hinput,
      bounds_of_limitFault? hnesting⟩
    · exact Path.isChild_join hdirectory (hscripts target).file
    · -- equal paths would end in equal names
      have hpaths := congrArg Path.names heq
      have hends := (Path.names_join (hscripts .facility).file).symm.trans
        (hpaths.trans (Path.names_join (hscripts .imitation).file))
      exact hdiffer (List.singleton_inj.mp (List.append_cancel_left hends))
    · intro text htext
      obtain ⟨_, -, hname⟩ := Option.bind_eq_some_iff.mp htext
      obtain ⟨level, -, rfl⟩ := Option.map_eq_some_iff.mp hname
      exact ⟨level, rfl⟩
    · rintro path (hpath | hpath)
      · exact isUsablePath_of_bind htemplate path hpath
      · exact isUsablePath_of_bind htemplate' path hpath

/-- **A check is a projection.** If it finds nothing wrong, the settings are in the form in which they
are used. What it leaves behind, it leaves as it is when it is repeated, and says the same of it. It
changes nothing but the file names and the level, each to its form. -/
theorem validate_projects (settings : Settings) :
    (∀ found, settings.validate = (none, found) →
      found.InForm ∧ found.validate = (none, found)) ∧
    (∀ fault left, settings.validate = (some fault, left) → left.validate = (some fault, left)) ∧
    Tidied settings settings.validate.2 := by
  have htwice := validate_validate settings
  refine ⟨fun found h => ⟨inForm_of_validate h, ?_⟩, fun fault left h => ?_, tidied_validate settings⟩
  · simpa only [h] using htwice
  · simpa only [h] using htwice

/-- Settings with blanks around the file names and the level. -/
def roomy (maxNesting : Nat) : Settings where
  output := { dir := " out", facilityFile := " f.py\u2003", imitationFile := "i.py\n" }
  log := { level? := some " WARN " }
  limits := ⟨1, maxNesting⟩

/-- The same settings without these blanks. -/
def unroomy (maxNesting : Nat) : Settings where
  output := { dir := " out", facilityFile := "f.py", imitationFile := "i.py" }
  log := { level? := some "warn" }
  limits := ⟨1, maxNesting⟩

/-- The blanks go, whether a fault is found after that or not. -/
theorem roomy_projects :
    ((roomy 32).validate = (none, unroomy 32) ∧ (unroomy 32).InForm ∧
      (unroomy 32).validate = (none, unroomy 32)) ∧
    (roomy 33).validate = (some (.outOfRange .maxNesting 32), unroomy 33) ∧
      (unroomy 33).validate = (some (.outOfRange .maxNesting 32), unroomy 33) ∧
      Tidied (roomy 33) (unroomy 33) := by
  have hfound : (roomy 32).validate = (none, unroomy 32) := by decide +kernel
  have hleft : (roomy 33).validate = (some (.outOfRange .maxNesting 32), unroomy 33) := by
    decide +kernel
  obtain ⟨hform, hagain⟩ := (validate_projects (roomy 32)).1 _ hfound
  obtain ⟨-, hstays, htidied⟩ := validate_projects (roomy 33)
  rw [hleft] at htidied
  exact ⟨⟨hfound, hform, hagain⟩, hleft, hstays _ _ hleft, htidied⟩

end Settings

end CausalRules
