import CausalRules.Settings.Read

/-!
# Names inside a directory

- `Text.splitAll_append_cons`: a text is split at a separator in the middle of it.
- `Path.IsFileName`: what names a file in a directory and leads nowhere else.
- `Path.names_join`, `Path.isAbsolute_join`, `Path.endsWithSlash_join`: such a name behind a directory.
- `OutputSettings.Named`: the scripts have such names, and different ones. `Settings.named_of_ofText`
  finds them so in all settings that are read.
-/

namespace CausalRules

/-! ## Splitting -/

namespace Text

variable {separator : Char} {xs ys part : List Char} {parts : List (List Char)}

theorem splitFrom_eq_append : splitFrom separator xs part parts =
    parts.reverse ++ splitFrom separator xs part [] := by
  induction xs generalizing part parts with
  | nil => simp [splitFrom]
  | cons c xs ih =>
    rw [splitFrom, splitFrom]
    split
    · rw [@ih [] (part.reverse :: parts), @ih [] [part.reverse]]
      simp
    · exact ih

theorem splitFrom_append_cons : splitFrom separator (xs ++ separator :: ys) part parts =
    splitFrom separator xs part parts ++ splitAll separator ys := by
  induction xs generalizing part parts with
  | nil =>
    show splitFrom separator (separator :: ys) part parts = _
    rw [splitFrom.eq_def, splitFrom]
    simp only [if_true]
    exact splitFrom_eq_append
  | cons c xs ih =>
    rw [List.cons_append, splitFrom, splitFrom]
    split
    · exact ih
    · exact ih

theorem splitAll_append_cons :
    splitAll separator (xs ++ separator :: ys) = splitAll separator xs ++ splitAll separator ys :=
  splitFrom_append_cons

theorem splitFrom_of_not_mem (h : separator ∉ xs) :
    splitFrom separator xs part [] = [part.reverse ++ xs] := by
  induction xs generalizing part with
  | nil => simp [splitFrom]
  | cons c xs ih =>
    obtain ⟨hc, hxs⟩ := not_or.mp (mt List.mem_cons.mpr h)
    rw [splitFrom, if_neg (Ne.symm hc), ih hxs]
    simp

theorem splitAll_of_not_mem (h : separator ∉ xs) : splitAll separator xs = [xs] :=
  splitFrom_of_not_mem h

end Text

/-! ## Names -/

namespace Path

/-- The name of a file in a directory. -/
structure IsFileName (name : String) : Prop where
  ne_empty : name ≠ ""
  no_slash : '/' ∉ name.toList
  ne_dot : name ≠ "."
  ne_dots : name ≠ ".."

variable {directory name : String}

/-- A joined path is that of the directory, a slash and the name. -/
theorem exists_toList_join (directory : String) : ∃ before, names before = names directory ∧
    ∀ name, (join directory name).toList = before.toList ++ '/' :: name.toList := by
  by_cases hslash : endsWithSlash directory = true
  · -- the slash is that of the directory
    have hlast := hslash
    rw [endsWithSlash, decide_eq_true_iff] at hlast
    obtain ⟨cs, hcs⟩ := List.getLast?_eq_some_iff.mp hlast
    refine ⟨String.ofList cs, ?_, fun name => by simp [join, hslash, hcs]⟩
    rw [names, names, hcs, String.toList_ofList, Text.splitAll_append_cons]
    simp [Text.splitAll, Text.splitFrom]
  · exact ⟨directory, rfl, fun name => by simp [join, hslash]⟩

theorem names_join (h : IsFileName name) :
    names (join directory name) = names directory ++ [name] := by
  obtain ⟨before, hbefore, hjoin⟩ := exists_toList_join directory
  have hne : name.toList ≠ [] := mt String.toList_eq_nil_iff.mp h.ne_empty
  rw [← hbefore, names, names, hjoin, Text.splitAll_append_cons,
    Text.splitAll_of_not_mem h.no_slash]
  simp [hne]

/-- Where a joined path begins does not depend on the name. -/
theorem isAbsolute_join (directory name name' : String) :
    isAbsolute (join directory name) = isAbsolute (join directory name') := by
  obtain ⟨before, -, hjoin⟩ := exists_toList_join directory
  rw [isAbsolute, isAbsolute, hjoin, hjoin, List.head?_append, List.head?_append]
  rfl

theorem endsWithSlash_join (h : IsFileName name) : endsWithSlash (join directory name) = false := by
  obtain ⟨before, -, hjoin⟩ := exists_toList_join directory
  rw [endsWithSlash, hjoin, decide_eq_false_iff_not]
  intro hlast
  have hne : name.toList ≠ [] := mt String.toList_eq_nil_iff.mp h.ne_empty
  obtain ⟨c, cs, hcs⟩ := List.exists_cons_of_ne_nil hne
  rw [hcs, List.getLast?_append, List.getLast?_cons_cons, ← hcs] at hlast
  obtain ⟨last, hname⟩ : ∃ last, name.toList.getLast? = some last :=
    ⟨_, List.getLast?_eq_some_getLast hne⟩
  rw [hname] at hlast
  obtain rfl : last = '/' := Option.some.inj hlast
  exact h.no_slash (List.mem_of_getLast? hname)

end Path

/-! ## Names that settings give -/

/-- The scripts of the targets have names that lead nowhere else, and different ones. -/
structure OutputSettings.Named (output : OutputSettings) : Prop where
  name : ∀ target, Path.IsFileName (output.fileOf target)
  differ : ∀ target other, target ≠ other → output.fileOf target ≠ output.fileOf other

namespace Settings

theorem isFileName_of_fileNameFault? {field : Field} {name : String}
    (h : fileNameFault? field name = none) : Path.IsFileName name := by
  unfold fileNameFault? at h
  split at h
  · cases h
  · rename_i hne
    split at h
    · cases h
    · split at h
      · cases h
      · rename_i hplain
        simp only [Bool.or_eq_true, not_or, decide_eq_true_iff, List.any_eq_true] at hplain
        obtain ⟨⟨hslash, hdot⟩, hdots⟩ := hplain
        exact ⟨fun heq => hne (by simp [heq]), fun hmem => hslash ⟨'/', hmem, .inl rfl⟩, hdot, hdots⟩

theorem named_of_namesFault? {settings : Settings} (h : settings.namesFault? = none) :
    settings.output.Named := by
  unfold namesFault? at h
  simp only [Option.orElse_eq_orElse, Option.orElse_eq_or, Option.or_eq_none_iff] at h
  obtain ⟨hfacility, himitation, hdiffer, -⟩ := h
  have hne : settings.output.facilityFile ≠ settings.output.imitationFile := fun heq => by
    rw [if_pos heq] at hdiffer
    cases hdiffer
  refine ⟨fun target => ?_, fun target other htargets => ?_⟩
  · cases target with
    | facility => exact isFileName_of_fileNameFault? hfacility
    | imitation => exact isFileName_of_fileNameFault? himitation
  · cases target <;> cases other
    · exact absurd rfl htargets
    · exact hne
    · exact hne.symm
    · exact absurd rfl htargets

/-- Settings that hold after a check name their files properly. -/
theorem named_of_checked {settings found : Settings} (h : settings.checked = .ok found) :
    found.output.Named := by
  have hvalidate : settings.validate = (none, found) := by
    unfold checked at h
    split at h
    · rename_i heq
      rw [heq, Except.ok.inj h]
    · cases h
  unfold validate at hvalidate
  split at hvalidate
  · cases hvalidate
  · dsimp only at hvalidate
    split at hvalidate
    · cases hvalidate
    · rename_i hfault
      simp only [Option.orElse_eq_orElse, Option.orElse_eq_or, Option.or_eq_none_iff] at hfault
      obtain ⟨-, rfl⟩ := Prod.mk.inj hvalidate
      exact (named_of_namesFault? hfault.1 : settings.trimFileNames.output.Named)

theorem named_of_ofText {text : String} {read : String → Option Document.Members} {settings : Settings}
    (h : ofText text read = .ok settings) : settings.output.Named := by
  unfold ofText at h
  split at h
  · cases h
  · split at h
    · cases h
    · rename_i found _
      cases hchecked : found.checked with
      | error fault =>
        rw [hchecked] at h
        cases h
      | ok settings' =>
        rw [hchecked] at h
        obtain rfl := Except.ok.inj h
        exact named_of_checked hchecked

/-- The names that are used when no others are given. -/
theorem named_default : ({} : Settings).output.Named :=
  named_of_namesFault? (by decide +kernel)

end Settings

end CausalRules
