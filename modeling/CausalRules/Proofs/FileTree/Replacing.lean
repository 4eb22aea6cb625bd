import CausalRules.Host
import CausalRules.Proofs.FileTree.Places
import CausalRules.Proofs.Path.Parts
import CausalRules.Proofs.World

/-!
# Replacing a file, or not

A file is replaced by way of a temporary one. Either that succeeds, and only the file itself changes,
or it fails, and what is left after the temporary file was removed is as before. Both hold where no
file has the temporary path beforehand. Where the system does not let the temporary file be removed, it
is left with a part of the content or the whole.

- `FileTree.Sound`: files are numbered properly; `FileTree.HasFile`: a file with a content stands at a
  location.
- `endsWithSlash_temporaryPath`: a temporary path is that of a file.
- `draft_fresh_spec`: a file that is made.
- `replaces_fresh_spec`, `settled_of_removed`, `settled_of_unwritten`: the outcomes.
- `SameFiles`: trees with the same files, apart from some.
- `World.replacing`: what the system answers to replacing a file; `World.Leaves`: what is left where it
  could not be replaced. `settled_of_leaves` and `exists_replacing_iff` say what they come to.
-/

namespace CausalRules

/-! ## Temporary paths -/

theorem no_slash_toString (number : Nat) : '/' ∉ (toString number).toList := by
  intro h
  rw [Nat.toString_eq_ofList_toDigits, String.toList_ofList] at h
  exact absurd (Nat.isDigit_of_mem_toDigits (by omega) (by omega) h) (by decide)

theorem toList_temporaryName (name : String) (number : Nat) : (s!".{name}.{number}.tmp").toList =
    '.' :: (name.toList ++ '.' :: ((toString number).toList ++ ['.', 't', 'm', 'p'])) := by
  simp [toString]

theorem isPart_temporaryName {last : String} (hlast : '/' ∉ last.toList) (number : Nat) :
    Path.IsPart s!".{last}.{number}.tmp" := by
  refine ⟨?_, ?_⟩
  · rw [Ne, ← String.toList_eq_nil_iff, toList_temporaryName]
    exact List.cons_ne_nil _ _
  · rw [toList_temporaryName]
    simpa [hlast] using no_slash_toString number

/-- A temporary name is longer than the name that it is made from, and than names of directories that
stay in place or lead up. -/
theorem length_temporaryName (name : String) (number : Nat) :
    name.length + 6 ≤ (s!".{name}.{number}.tmp").length := by
  rw [← String.length_toList, ← String.length_toList, toList_temporaryName]
  simp only [List.length_cons, List.length_append, List.length_nil]
  omega

theorem temporaryName_inj {name other : String} {number : Nat}
    (h : s!".{name}.{number}.tmp" = s!".{other}.{number}.tmp") : name = other := by
  have hlists := congrArg String.toList h
  rw [toList_temporaryName, toList_temporaryName] at hlists
  exact String.toList_inj.mp (List.append_cancel_right (List.cons.inj hlists).2)

theorem no_slash_lastPart (path : String) : '/' ∉ ((Path.parts path).getLastD "output").toList := by
  rcases List.eq_nil_or_concat (Path.parts path) with hnil | ⟨above, name, hparts⟩
  · rw [hnil]
    decide
  · rw [hparts, List.concat_eq_append, List.getLastD_concat]
    have hmem : name ∈ Path.parts path := by simp [hparts]
    exact (Path.isPart_of_mem_names ((Path.parts_sublist path).subset hmem)).2

/-- A temporary path is that of a file. -/
theorem endsWithSlash_temporaryPath (path : String) (number : Nat) :
    Path.endsWithSlash (temporaryPath path number) = false := by
  refine Path.endsWithSlash_ofParts (fun name hname => ?_) (by simp)
  rcases List.mem_append.mp hname with hname | hname
  · exact Path.isPart_of_mem_names
      ((Path.parts_sublist path).subset (List.dropLast_subset _ hname))
  · rw [List.mem_singleton.mp hname]
    exact isPart_temporaryName (no_slash_lastPart path) number

namespace FileTree

/-- Files have numbers that there are. -/
def Sound (tree : FileTree) : Prop :=
  ∀ l number, tree.entry? l = some (.file number) → number < tree.contents.length

/-- No file stands at a location. -/
def NoFile (tree : FileTree) (location : Location) : Prop :=
  ∀ number, tree.entry? location ≠ some (.file number)

/-- A file with a content stands at a location. -/
def HasFile (tree : FileTree) (location : Location) (content : ByteArray) : Prop :=
  ∃ number, tree.entry? location = some (.file number) ∧ tree.content number = content

/-- Nothing was changed but files at the locations to replace, and directories stand where they
stood. -/
structure Settled (replaced : Location → Prop) (tree tree' : FileTree) : Prop where
  keeps : Keeps replaced (fun _ => False) tree tree'
  directories : SameDirectories tree tree'
  sound : tree'.Sound

section Settled

variable {replaced : Location → Prop} {tree tree' tree'' : FileTree} {location : Location}

theorem Settled.refl (h : tree.Sound) : Settled replaced tree tree :=
  ⟨.refl tree, .refl tree, h⟩

/-- Directories stand where they stood if none was replaced and none replaces anything. -/
theorem Settled.of_keeps (h : Keeps replaced (fun _ => False) tree tree')
    (hfree : ∀ l, replaced l → tree'.isDirectoryAt l = false) (hsound : tree'.Sound) :
    Settled replaced tree tree' := by
  refine ⟨h, ⟨h.workingDirectory, fun l => ?_⟩, hsound⟩
  by_cases hl : replaced l
  · rw [hfree l hl]
    cases hdirectory : tree.isDirectoryAt l with
    | false => rfl
    | true => rw [← hfree l hl, h.directory l hdirectory]
  · rw [isDirectoryAt, isDirectoryAt, h.entry l hl False.elim]

theorem Settled.trans (h : Settled replaced tree tree') (h' : Settled replaced tree' tree'') :
    Settled replaced tree tree'' :=
  ⟨h.keeps.trans h'.keeps, h.directories.trans h'.directories, h'.sound⟩

theorem Settled.mono {replaced' : Location → Prop} (h : Settled replaced tree tree')
    (himp : ∀ l, replaced l → replaced' l) : Settled replaced' tree tree' :=
  ⟨h.keeps.mono himp fun _ => id, h.directories, h.sound⟩

theorem Settled.noFile (h : Settled replaced tree tree') (hl : ¬replaced location)
    (hfree : tree.NoFile location) : tree'.NoFile location := fun number => by
  rw [h.keeps.entry location hl nofun]
  exact hfree number

theorem Settled.hasFile {content : ByteArray} (h : Settled replaced tree tree')
    (hl : ¬replaced location) (hfile : tree.HasFile location content) :
    tree'.HasFile location content := by
  obtain ⟨number, hentry, rfl⟩ := hfile
  exact ⟨number, (h.keeps.entry location hl nofun).trans hentry, h.keeps.content _ _ hl hentry⟩

theorem Settled.hasFile_iff (h : Settled replaced tree tree') (hl : ¬replaced location)
    {content : ByteArray} :
    tree'.HasFile location content ↔ tree.HasFile location content := by
  refine ⟨?_, h.hasFile hl⟩
  rintro ⟨number, hentry, rfl⟩
  rw [h.keeps.entry location hl nofun] at hentry
  exact ⟨number, hentry, (h.keeps.content _ _ hl hentry).symm⟩

theorem HasFile.unique {content other : ByteArray} (h : tree.HasFile location content)
    (hother : tree.HasFile location other) : other = content := by
  obtain ⟨number, hentry, rfl⟩ := h
  obtain ⟨number', hentry', rfl⟩ := hother
  rw [Entry.file.inj (Option.some.inj (hentry'.symm.trans hentry))]

end Settled

/-- The same directories and the same files, which hold the same, but for the locations that are set
apart: files stand there in both. -/
structure SameFiles (apart : Location → Prop) (tree tree' : FileTree) : Prop where
  directories : SameDirectories tree tree'
  files : ∀ l, ¬apart l → ∀ content, tree'.HasFile l content ↔ tree.HasFile l content
  present : ∀ l, apart l → ¬tree.NoFile l ∧ ¬tree'.NoFile l

theorem SameFiles.refl (tree : FileTree) : SameFiles (fun _ => False) tree tree :=
  ⟨.refl tree, fun _ _ _ => Iff.rfl, fun _ => False.elim⟩

section Replacing

variable {tree tree' drafted : FileTree} {path newPath : String} {content : ByteArray}
  {replaced : Location → Prop} {location : Location}

theorem Sound.ready (h : tree.Sound) (hfree : tree.NoFile location) :
    Ready (· = location) tree where
  sound := h
  sole := by
    rintro _ other number rfl hl
    exact (hfree number hl).elim

theorem isDirectoryAt_of_file {number : Nat} (h : tree.entry? location = some (.file number)) :
    tree.isDirectoryAt location = false := by
  rw [isDirectoryAt, h]
  rfl

/-- What fits where no file stands comes where nothing stands. -/
theorem Fits.entry_eq_none (h : tree.Fits path) (hfree : tree.NoFile (tree.spot path)) :
    tree.entry? (tree.spot path) = none := by
  obtain ⟨-, -, -, hdirectory⟩ := h
  cases hentry : tree.entry? (tree.spot path) with
  | none => rfl
  | some entry =>
    cases entry with
    | directory =>
      rw [isDirectoryAt, hentry] at hdirectory
      cases hdirectory
    | file number => exact (hfree number hentry).elim

/-- A file that is made where none stood. -/
theorem draft_fresh_spec (hsound : tree.Sound) (hfree : tree.NoFile (tree.spot path))
    (hslash : Path.endsWithSlash path = false) (h : tree.draft path content = .ok drafted) :
    drafted.HasFile (tree.spot path) content ∧ tree.entry? (tree.spot path) = none ∧
      Settled (· = tree.spot path) tree drafted ∧ Ready (· = tree.spot path) drafted := by
  obtain ⟨number, hentry, hcontent, hkeeps, hready⟩ := draft_spec (hsound.ready hfree) rfl h
  have hfits : tree.Fits path := (exists_draft_iff hslash).mp ⟨drafted, h⟩
  refine ⟨⟨number, hentry, hcontent⟩, hfits.entry_eq_none hfree,
    .of_keeps hkeeps ?_ hready.sound, hready⟩
  rintro _ rfl
  exact isDirectoryAt_of_file hentry

/-- A file was replaced, and nothing else has changed. -/
theorem replaces_fresh_spec (hsound : tree.Sound) (hfree : tree.NoFile (tree.spot path))
    (hslash : Path.endsWithSlash path = false) (h : tree.Replaces path newPath content tree') :
    tree'.HasFile (tree.spot newPath) content ∧ Settled (· = tree.spot newPath) tree tree' := by
  obtain ⟨drafted, hdraft, hrename⟩ := h
  obtain ⟨⟨number, hentry, hcontent⟩, hnone, ⟨hkeeps, hsame, -⟩, hready⟩ :=
    draft_fresh_spec hsound hfree hslash hdraft
  obtain ⟨_, _, number', hnew, -, hdirectory, hentry', rfl⟩ := rename_eq_ok hrename
  rw [hsame.spot_eq] at hentry' hdirectory ⊢
  rw [hsame.spot_eq]
  cases hentry.symm.trans hentry'
  have hne : tree.spot newPath ≠ [] := by
    rw [← hsame.spot_eq, spot_of_locateNew hnew]
    simp
  have hmoved := entry_moved hentry hne
  have hnewEntry := hmoved (tree.spot newPath)
  rw [if_pos rfl] at hnewEntry
  have hmovedKeeps := keeps_moved hentry hne hdirectory
  -- at the temporary path there is nothing again
  have hkeeps' : Keeps (· = tree.spot newPath) (fun _ => False) tree
      ((drafted.take (tree.spot path)).put (tree.spot newPath) (.file number)) := by
    refine ⟨hkeeps.workingDirectory, fun l hl => hmovedKeeps.directory l (hkeeps.directory l hl),
      fun l hl _ => ?_, fun l other hl hother => ?_⟩
    · rw [hmoved, if_neg hl]
      split
      · rename_i heq
        rw [heq, hnone]
      · rename_i hl'
        exact hkeeps.entry l hl' nofun
    · have hl' : l ≠ tree.spot path := by
        rintro rfl
        exact hfree other hother
      exact hkeeps.content l other hl' hother
  refine ⟨⟨number, hnewEntry, hcontent⟩, .of_keeps hkeeps' ?_
    (ready_moved hready rfl id hentry hne).sound⟩
  rintro _ rfl
  exact isDirectoryAt_of_file hnewEntry

theorem remove_eq_ok (h : tree.remove path = .ok tree') :
    tree.isDirectoryAt (tree.spot path) = false ∧ tree' = tree.take (tree.spot path) := by
  obtain ⟨location, hlocate, h⟩ := bind_eq_ok.mp h
  obtain rfl := spot_of_locate hlocate
  cases hdirectory : tree.isDirectoryAt (tree.spot path) with
  | true =>
    simp only [hdirectory] at h
    cases h
  | false =>
    simp only [hdirectory] at h
    exact ⟨rfl, (Except.ok.inj h).symm⟩

theorem Sound.take (h : tree.Sound) (hne : location ≠ []) : (tree.take location).Sound := by
  intro l number hl
  by_cases heq : l = location
  · rw [heq, entry_take_self _ hne] at hl
    cases hl
  · rw [entry_take_of_ne _ heq] at hl
    exact h l number hl

/-- A file was made and was removed again. -/
theorem settled_of_removed (hsound : tree.Sound) (hfree : tree.NoFile (tree.spot path))
    (hslash : Path.endsWithSlash path = false) (hdraft : tree.draft path content = .ok drafted) :
    drafted.remove path = .ok (drafted.take (tree.spot path)) ∧
      Settled (fun _ => False) tree (drafted.take (tree.spot path)) := by
  obtain ⟨⟨number, hentry, -⟩, hnone, ⟨hkeeps, hsame, -⟩, hready⟩ :=
    draft_fresh_spec hsound hfree hslash hdraft
  have hfits : tree.Fits path := (exists_draft_iff hslash).mp ⟨drafted, hdraft⟩
  have hne := hfits.spot_ne_nil
  have hlocate : drafted.locate path = .ok (tree.spot path) := by
    have := (hsame.fits_iff.mpr hfits).locate hslash (by rw [hsame.spot_eq, hentry]; exact nofun)
    rwa [hsame.spot_eq] at this
  refine ⟨?_, .of_keeps ⟨hkeeps.workingDirectory, fun l hl => ?_, fun l _ _ => ?_,
    fun l other _ hother => ?_⟩ nofun (Sound.take hready.sound hne)⟩
  · unfold remove
    rw [hlocate]
    simp only [bind, Except.bind, isDirectoryAt_of_file hentry]
    rfl
  · rw [(sameDirectories_take hne (isDirectoryAt_of_file hentry)).directory]
    exact hkeeps.directory l hl
  · by_cases heq : l = tree.spot path
    · rw [heq, entry_take_self _ hne, hnone]
    · rw [entry_take_of_ne _ heq]
      exact hkeeps.entry l heq nofun
  · refine hkeeps.content l other ?_ hother
    rintro rfl
    exact hfree other hother

/-- Where no file stands nothing is removed. -/
theorem settled_of_unwritten (hsound : tree.Sound) (hfree : tree.NoFile (tree.spot path))
    (h : tree.remove path = .ok tree') : Settled (fun _ => False) tree tree' := by
  obtain ⟨hdirectory, rfl⟩ := remove_eq_ok h
  have hne : tree.spot path ≠ [] := by
    intro hnil
    rw [hnil] at hdirectory
    cases hdirectory
  have hnone : tree.entry? (tree.spot path) = none := by
    cases hentry : tree.entry? (tree.spot path) with
    | none => rfl
    | some entry =>
      cases entry with
      | directory =>
        rw [isDirectoryAt, hentry] at hdirectory
        cases hdirectory
      | file number => exact (hfree number hentry).elim
  have hentry : ∀ l, FileTree.entry? (tree.take (tree.spot path)) l = tree.entry? l := by
    intro l
    by_cases heq : l = tree.spot path
    · rw [heq, entry_take_self _ hne, hnone]
    · rw [entry_take_of_ne _ heq]
  exact .of_keeps ⟨rfl, fun l hl => by rwa [isDirectoryAt, hentry], fun l _ _ => hentry l,
    fun _ _ _ _ => rfl⟩ (fun _ => False.elim) (hsound.take hne)

/-- A file can be replaced by way of a temporary one exactly if both fit. -/
theorem exists_replaces_iff (hsound : tree.Sound) (hfree : tree.NoFile (tree.spot path))
    (hslash : Path.endsWithSlash path = false) :
    (∃ tree', tree.Replaces path newPath content tree') ↔ tree.Fits path ∧ tree.Fits newPath := by
  have hrename : ∀ drafted, tree.draft path content = .ok drafted →
      ((∃ tree', drafted.rename path newPath = .ok tree') ↔ tree.Fits newPath) := by
    intro drafted hdraft
    obtain ⟨⟨number, hentry, -⟩, -, ⟨-, hsame, -⟩, -⟩ := draft_fresh_spec hsound hfree hslash hdraft
    have hfits : drafted.Fits path :=
      hsame.fits_iff.mpr ((exists_draft_iff hslash).mp ⟨drafted, hdraft⟩)
    rw [← hsame.spot_eq] at hentry
    rw [exists_rename_iff (hfits.locate hslash (by rw [hentry]; exact nofun)) hentry,
      hsame.fits_iff]
  constructor
  · rintro ⟨tree', drafted, hdraft, hrenamed⟩
    exact ⟨(exists_draft_iff hslash).mp ⟨drafted, hdraft⟩, (hrename drafted hdraft).mp ⟨_, hrenamed⟩⟩
  · rintro ⟨hfits, hfits'⟩
    obtain ⟨drafted, hdraft⟩ : ∃ drafted, tree.draft path content = .ok drafted :=
      (exists_draft_iff hslash).mpr hfits
    obtain ⟨tree', hrenamed⟩ := (hrename drafted hdraft).mpr hfits'
    exact ⟨tree', drafted, hdraft, hrenamed⟩

end Replacing

end FileTree

/-! ## In a world -/

namespace World

open FileTree (Settled)

/-- What the system answers to making a file with a content: the tree with the file, once its content is
stored. -/
def drafting (w : World) (tree : FileTree) (path : String) (content : ByteArray) :
    Except Failure FileTree := do
  let (number, begun) ← w.answer tree (.create path) (tree.create path)
  let drafted ← w.answer begun (.extend path content) (.ok (begun.append number content))
  w.answer drafted (.sync path) (.ok drafted)

/-- What the system answers to replacing a file by way of a temporary one. -/
def replacing (w : World) (tree : FileTree) (temporary path : String) (content : ByteArray) :
    Except Failure FileTree := do
  let drafted ← w.drafting tree temporary content
  w.answer drafted (.rename temporary path) (drafted.rename temporary path)

/-- What is left where a file could not be replaced: nothing was written, or a part of the content or
the whole to the temporary file, which was removed as far as that was possible. -/
def Leaves (w : World) (tree : FileTree) (temporary : String) (tree' : FileTree) : Prop :=
  ∃ failed, (failed = tree ∨ ∃ part, tree.draft temporary part = .ok failed) ∧
    match w.answer failed (.remove temporary) (failed.remove temporary) with
    | .ok removed => tree' = removed
    | .error _ => tree' = failed

/-- Writing to a temporary file and giving it another path is not refused, whatever files there are. -/
structure LetsReplace (w : World) (temporary path : String) (content : ByteArray) : Prop where
  create : ∀ tree, w.Grants tree (.create temporary)
  extend : ∀ tree, w.Grants tree (.extend temporary content)
  sync : ∀ tree, w.Grants tree (.sync temporary)
  rename : ∀ tree, w.Grants tree (.rename temporary path)

section Replacing

variable {w : World} {tree tree' drafted : FileTree} {path newPath : String} {content : ByteArray}

theorem drafting_eq_ok_iff : w.drafting tree path content = .ok drafted ↔
    ∃ number begun, w.Grants tree (.create path) ∧ tree.create path = .ok (number, begun) ∧
      w.Grants begun (.extend path content) ∧ w.Grants drafted (.sync path) ∧
        drafted = begun.append number content := by
  unfold drafting
  simp only [bind_eq_ok, answer_eq_ok_iff, Prod.exists, Except.ok.injEq]
  constructor
  · rintro ⟨number, begun, ⟨hcreate, hbegun⟩, _, ⟨hextend, rfl⟩, hsync, rfl⟩
    exact ⟨number, begun, hcreate, hbegun, hextend, hsync, rfl⟩
  · rintro ⟨number, begun, hcreate, hbegun, hextend, hsync, rfl⟩
    exact ⟨number, begun, ⟨hcreate, hbegun⟩, _, ⟨hextend, rfl⟩, hsync, rfl⟩

theorem draft_of_drafting (h : w.drafting tree path content = .ok drafted) :
    tree.draft path content = .ok drafted := by
  obtain ⟨number, begun, -, hcreate, -, -, rfl⟩ := drafting_eq_ok_iff.mp h
  rcases tree.create_cases path with ⟨failure, hfails, -⟩ | ⟨number', begun', hcreate', hdraft⟩
  · cases hcreate.symm.trans hfails
  · obtain ⟨rfl, rfl⟩ := Prod.mk.inj (Except.ok.inj (hcreate.symm.trans hcreate'))
    exact hdraft content

theorem replacing_eq_ok_iff : w.replacing tree path newPath content = .ok tree' ↔
    ∃ drafted, w.drafting tree path content = .ok drafted ∧
      w.Grants drafted (.rename path newPath) ∧ drafted.rename path newPath = .ok tree' := by
  unfold replacing
  rw [bind_eq_ok]
  exact exists_congr fun drafted => and_congr_right fun _ => answer_eq_ok_iff

/-- A file that the system lets be replaced is replaced in the tree. -/
theorem replaces_of_replacing (h : w.replacing tree path newPath content = .ok tree') :
    tree.Replaces path newPath content tree' := by
  obtain ⟨drafted, hdraft, -, hrename⟩ := replacing_eq_ok_iff.mp h
  exact ⟨drafted, draft_of_drafting hdraft, hrename⟩

theorem LetsReplace.drafting_eq_ok_iff (h : w.LetsReplace path newPath content) :
    w.drafting tree path content = .ok drafted ↔ tree.draft path content = .ok drafted := by
  refine ⟨draft_of_drafting, fun hdraft => ?_⟩
  rcases tree.create_cases path with ⟨failure, -, hfails⟩ | ⟨number, begun, hcreate, hdraft'⟩
  · cases (hfails content).symm.trans hdraft
  · exact World.drafting_eq_ok_iff.mpr ⟨number, begun, h.create _, hcreate, h.extend _, h.sync _,
      Except.ok.inj (hdraft.symm.trans (hdraft' content))⟩

theorem LetsReplace.replacing_eq_ok_iff (h : w.LetsReplace path newPath content) :
    w.replacing tree path newPath content = .ok tree' ↔
      tree.Replaces path newPath content tree' := by
  rw [World.replacing_eq_ok_iff]
  refine exists_congr fun drafted => ?_
  rw [h.drafting_eq_ok_iff, and_iff_right (h.rename drafted)]

theorem Obliging.letsReplace (h : w.Obliging) (temporary path : String) (content : ByteArray) :
    w.LetsReplace temporary path content :=
  ⟨fun _ => h _ _, fun _ => h _ _, fun _ => h _ _, fun _ => h _ _⟩

/-- Where no file has the temporary path, nothing is changed but what the system keeps at it. -/
theorem settled_of_leaves (hsound : tree.Sound) (hfree : tree.NoFile (tree.spot path))
    (hslash : Path.endsWithSlash path = false) (h : w.Leaves tree path tree') :
    Settled (fun l => ¬w.Grants tree' (.remove path) ∧ l = tree.spot path) tree tree' := by
  obtain ⟨failed, hfailed, htree'⟩ := h
  rcases w.grants_or_refused failed (.remove path) with hgrants | ⟨refusal, hrefuses⟩
  · rw [answer_of_grants hgrants] at htree'
    rcases hfailed with rfl | ⟨part, hdraft⟩
    · cases hremove : failed.remove path with
      | error failure =>
        rw [hremove] at htree'
        obtain rfl : tree' = failed := htree'
        exact .refl hsound
      | ok removed =>
        rw [hremove] at htree'
        obtain rfl : tree' = removed := htree'
        exact (FileTree.settled_of_unwritten hsound hfree hremove).mono fun _ => False.elim
    · obtain ⟨hremove, hsettled⟩ := FileTree.settled_of_removed hsound hfree hslash hdraft
      rw [hremove] at htree'
      obtain rfl : tree' = failed.take (tree.spot path) := htree'
      exact hsettled.mono fun _ => False.elim
  · rw [answer_of_refused hrefuses] at htree'
    obtain rfl : tree' = failed := htree'
    have hkept : ¬w.Grants tree' (.remove path) := fun hgrants => nomatch hgrants.symm.trans hrefuses
    rcases hfailed with rfl | ⟨part, hdraft⟩
    · exact .refl hsound
    · exact (FileTree.draft_fresh_spec hsound hfree hslash hdraft).2.2.1.mono fun _ hl => ⟨hkept, hl⟩

/-- Where what is refused does not depend on the files, a file can be replaced exactly if the system lets
it be replaced and both paths fit. -/
theorem exists_replacing_iff (hsteady : w.Steady) (hsound : tree.Sound)
    (hfree : tree.NoFile (tree.spot path)) (hslash : Path.endsWithSlash path = false) :
    (∃ tree', w.replacing tree path newPath content = .ok tree') ↔
      w.LetsReplace path newPath content ∧ tree.Fits path ∧ tree.Fits newPath := by
  have hfits : (∃ tree', tree.Replaces path newPath content tree') ↔
      tree.Fits path ∧ tree.Fits newPath :=
    FileTree.exists_replaces_iff hsound hfree hslash
  rw [← hfits]
  constructor
  · rintro ⟨tree', h⟩
    refine ⟨?_, tree', replaces_of_replacing h⟩
    obtain ⟨drafted, hdraft, hrename, -⟩ := replacing_eq_ok_iff.mp h
    obtain ⟨number, begun, hcreate, -, hextend, hsync, -⟩ := drafting_eq_ok_iff.mp hdraft
    exact ⟨fun _ => hsteady.grants_iff.mpr hcreate, fun _ => hsteady.grants_iff.mpr hextend,
      fun _ => hsteady.grants_iff.mpr hsync, fun _ => hsteady.grants_iff.mpr hrename⟩
  · rintro ⟨hlets, tree', h⟩
    exact ⟨tree', hlets.replacing_eq_ok_iff.mpr h⟩

end Replacing

end World

end CausalRules
