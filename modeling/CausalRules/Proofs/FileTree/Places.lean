import CausalRules.Proofs.FileTree

/-!
# Where files can be put

Whether a file can be put at a path depends on where directories stand, and on nothing else.

- `FileTree.Passes`: directories stand wherever names lead. `isDirectory_iff` says so of paths.
- `FileTree.Inside`: a path ends with a name inside a directory.
- `FileTree.Fits`: a file can be put at a path. `exists_draft_iff` and `exists_replaces_iff` say that
  operations succeed exactly then.
- `SameDirectories`: trees in which the same paths fit.
-/

namespace CausalRules.FileTree

/-! ## Directories along a path -/

/-- Directories stand at a location and wherever names lead from it. -/
def Passes (tree : FileTree) : Location → List String → Prop
  | location, [] => tree.isDirectoryAt location = true
  | location, name :: rest => tree.isDirectoryAt location = true ∧
      name.utf8ByteSize ≤ maxNameBytes ∧ tree.Passes (child location name) rest

section Passes

variable {tree : FileTree} {location found : Location} {names rest : List String} {path : String}

theorem Passes.directory (h : tree.Passes location names) : tree.isDirectoryAt location = true := by
  cases names with
  | nil => exact h
  | cons => exact h.1

/-- Names lead to a directory if directories stand all along. -/
theorem walk_iff_passes : (tree.walk location names = .ok found ∧ tree.isDirectoryAt found = true) ↔
    tree.Passes location names ∧ found = names.foldl child location := by
  induction names generalizing location with
  | nil =>
    constructor
    · rintro ⟨hwalk, hfound⟩
      obtain rfl := Except.ok.inj hwalk
      exact ⟨hfound, rfl⟩
    · rintro ⟨hpasses, rfl⟩
      exact ⟨rfl, hpasses⟩
  | cons name rest ih =>
    rw [walk_cons_eq_ok_iff, Nat.not_lt]
    constructor
    · rintro ⟨⟨hdirectory, hlength, -, hrest⟩, hfound⟩
      obtain ⟨hpasses, rfl⟩ := ih.mp ⟨hrest, hfound⟩
      exact ⟨⟨hdirectory, hlength, hpasses⟩, rfl⟩
    · rintro ⟨⟨hdirectory, hlength, hpasses⟩, rfl⟩
      obtain ⟨hwalk, hfound⟩ := ih.mpr ⟨hpasses, rfl⟩
      have hpresent : tree.entry? (child location name) ≠ none := by
        rw [of_decide_eq_true hpasses.directory]
        exact nofun
      exact ⟨⟨hdirectory, hlength, hpresent, hwalk⟩, hfound⟩

theorem passes_append : tree.Passes location (names ++ rest) ↔
    tree.Passes location names ∧ tree.Passes (names.foldl child location) rest := by
  induction names generalizing location with
  | nil => exact ⟨fun h => ⟨h.directory, h⟩, And.right⟩
  | cons name names ih =>
    rw [List.cons_append, Passes, Passes, ih, List.foldl_cons, and_assoc, and_assoc]

theorem Passes.mono {other : FileTree} (hmono : ∀ l, tree.isDirectoryAt l = true →
    other.isDirectoryAt l = true) (h : tree.Passes location names) :
    other.Passes location names := by
  induction names generalizing location with
  | nil => exact hmono _ h
  | cons name rest ih => exact ⟨hmono _ h.1, h.2.1, ih h.2.2⟩

theorem isDirectory_iff : tree.isDirectory path = true ↔
    checkPath path = .ok () ∧ tree.Passes (tree.start path) (Path.names path) := by
  unfold isDirectory
  cases hlocate : tree.locate path with
  | ok location =>
    obtain ⟨hcheck, hwalk, hslash⟩ := locate_eq_ok_iff.mp hlocate
    constructor
    · exact fun h => ⟨hcheck, (walk_iff_passes.mp ⟨hwalk, h⟩).1⟩
    · rintro ⟨-, hpasses⟩
      obtain ⟨hwalk', hfound⟩ := walk_iff_passes.mpr ⟨hpasses, rfl⟩
      rwa [← Except.ok.inj (hwalk'.symm.trans hwalk)]
  | error failure =>
    refine ⟨nofun, ?_⟩
    rintro ⟨hcheck, hpasses⟩
    obtain ⟨hwalk, hfound⟩ := walk_iff_passes.mpr ⟨hpasses, rfl⟩
    cases hlocate.symm.trans (locate_eq_ok_iff.mpr ⟨hcheck, hwalk, fun _ => hfound⟩)

end Passes

/-! ## Names inside directories -/

/-- A path ends with a name inside a directory. -/
structure Inside (tree : FileTree) (path : String) (name : String) : Prop where
  check : checkPath path = .ok ()
  names : Path.names path = (Path.names path).dropLast ++ [name]
  ne_dot : name ≠ "."
  ne_dots : name ≠ ".."
  passes : tree.Passes (tree.start path) (Path.names path).dropLast

section Inside

variable {tree : FileTree} {path name : String} {found : Location}

/-- The directory that a path leads into. -/
def above (tree : FileTree) (path : String) : Location :=
  (Path.names path).dropLast.foldl child (tree.start path)

theorem Inside.spot (h : tree.Inside path name) : tree.spot path = tree.above path ++ [name] := by
  rw [FileTree.spot, h.names, List.foldl_append, List.foldl_cons, List.foldl_nil, child,
    if_neg h.ne_dot, if_neg h.ne_dots, above]

theorem Inside.child (h : tree.Inside path name) : child (tree.above path) name = tree.spot path := by
  rw [h.spot, FileTree.child, if_neg h.ne_dot, if_neg h.ne_dots]

theorem locateNew_eq_ok_iff :
    tree.locateNew path = .ok (found, some name) ↔ tree.Inside path name ∧ found = tree.above path := by
  unfold locateNew
  constructor
  · intro h
    obtain ⟨⟨⟩, hcheck, h⟩ := bind_eq_ok.mp h
    obtain ⟨directory, hwalk, h⟩ := bind_eq_ok.mp h
    cases hdirectory : tree.isDirectoryAt directory with
    | false =>
      simp only [hdirectory] at h
      cases h
    | true =>
      obtain ⟨hpasses, rfl⟩ := walk_iff_passes.mp ⟨hwalk, hdirectory⟩
      simp only [hdirectory] at h
      cases hlast : (Path.names path).getLast? with
      | none =>
        rw [hlast] at h
        cases h
      | some last =>
        rw [hlast] at h
        by_cases hdots : last = "." ∨ last = ".."
        · simp only [if_pos hdots] at h
          cases h
        · simp only [if_neg hdots] at h
          cases h
          obtain ⟨hdot, hup⟩ := not_or.mp hdots
          exact ⟨⟨hcheck, (List.dropLast_append_getLast? name hlast).symm, hdot, hup, hpasses⟩, rfl⟩
  · rintro ⟨h, rfl⟩
    obtain ⟨hwalk, hdirectory⟩ := walk_iff_passes.mpr ⟨h.passes, rfl⟩
    refine bind_eq_ok.mpr ⟨(), h.check, bind_eq_ok.mpr ⟨_, hwalk, ?_⟩⟩
    have hlast : (Path.names path).getLast? = some name := by rw [h.names, List.getLast?_concat]
    have hdots : ¬(name = "." ∨ name = "..") := not_or.mpr ⟨h.ne_dot, h.ne_dots⟩
    simp only [hdirectory, hlast, if_neg hdots]
    rfl

end Inside

/-! ## Files that fit -/

/-- A file can be put at a path: the path ends with a name inside a directory, and no directory has
that name. -/
def Fits (tree : FileTree) (path : String) : Prop :=
  ∃ name, tree.Inside path name ∧ name.utf8ByteSize ≤ maxNameBytes ∧
    tree.isDirectoryAt (tree.spot path) = false

section Fits

variable {tree tree' : FileTree} {path newPath name : String} {content : ByteArray}

theorem Fits.spot_ne_nil (h : tree.Fits path) : tree.spot path ≠ [] := by
  obtain ⟨name, hinside, -⟩ := h
  simp [hinside.spot]

/-- A file is opened for writing exactly if one fits. -/
theorem exists_openFile_iff (hslash : Path.endsWithSlash path = false) :
    (∃ number tree', tree.openFile path = .ok (number, tree')) ↔ tree.Fits path := by
  constructor
  · rintro ⟨number, tree', h⟩
    unfold openFile at h
    obtain ⟨⟨directory, name?⟩, hnew, h⟩ := bind_eq_ok.mp h
    cases name? with
    | none => cases h
    | some name =>
      obtain ⟨hinside, rfl⟩ := locateNew_eq_ok_iff.mp hnew
      simp only [hslash, hinside.child] at h
      by_cases hlength : maxNameBytes < name.utf8ByteSize
      · simp only [if_pos hlength] at h
        cases h
      · simp only [if_neg hlength] at h
        refine ⟨name, hinside, Nat.le_of_not_lt hlength, ?_⟩
        rw [isDirectoryAt, decide_eq_false_iff_not]
        intro hdirectory
        rw [hdirectory] at h
        cases h
  · rintro ⟨name, hinside, hlength, hfree⟩
    unfold openFile
    rw [locateNew_eq_ok_iff.mpr ⟨hinside, rfl⟩]
    simp only [bind, Except.bind, hslash, hinside.child, if_neg (Nat.not_lt.mpr hlength)]
    cases hentry : tree.entry? (tree.spot path) with
    | none => exact ⟨_, _, rfl⟩
    | some entry =>
      cases entry with
      | directory =>
        rw [isDirectoryAt, hentry] at hfree
        cases hfree
      | file number => exact ⟨number, tree, rfl⟩

/-- A file is written exactly if it fits. -/
theorem exists_draft_iff (hslash : Path.endsWithSlash path = false) :
    (∃ tree', tree.draft path content = .ok tree') ↔ tree.Fits path := by
  rw [← exists_openFile_iff hslash]
  constructor
  · rintro ⟨tree', h⟩
    obtain ⟨⟨number, opened⟩, hopen, -⟩ := bind_eq_ok.mp h
    exact ⟨number, opened, hopen⟩
  · rintro ⟨number, opened, hopen⟩
    exact ⟨_, bind_eq_ok.mpr ⟨(number, opened), hopen, rfl⟩⟩

/-- A file that was opened is opened again, as long as it has its path. -/
theorem openFile_again {opened : FileTree} {number : Nat}
    (h : tree.openFile path = .ok (number, opened))
    (hplace : tree'.workingDirectory = tree.workingDirectory)
    (hmono : ∀ l, tree.isDirectoryAt l = true → tree'.isDirectoryAt l = true)
    (hentry : tree'.entry? (tree.spot path) = some (.file number)) :
    tree'.openFile path = .ok (number, tree') := by
  unfold openFile at h ⊢
  obtain ⟨⟨directory, name?⟩, hnew, h⟩ := bind_eq_ok.mp h
  cases name? with
  | none => cases h
  | some name =>
    obtain ⟨hinside, rfl⟩ := locateNew_eq_ok_iff.mp hnew
    have hstart : tree'.start path = tree.start path := by rw [start, start, hplace]
    have hinside' : tree'.Inside path name :=
      ⟨hinside.check, hinside.names, hinside.ne_dot, hinside.ne_dots,
        hstart ▸ hinside.passes.mono hmono⟩
    have hspot : tree'.spot path = tree.spot path := by rw [spot, spot, hstart]
    rw [locateNew_eq_ok_iff.mpr ⟨hinside', rfl⟩]
    simp only [hinside.child] at h
    simp only [bind, Except.bind, hinside'.child, hspot, hentry]
    by_cases hslash : Path.endsWithSlash path = true
    · simp only [if_pos hslash] at h
      cases h
    · simp only [if_neg hslash] at h ⊢
      by_cases hlength : maxNameBytes < name.utf8ByteSize
      · simp only [if_pos hlength] at h
        cases h
      · simp only [if_neg hlength]
        rfl

/-- What is put at a path that fits is found there. -/
theorem Fits.locate (h : tree.Fits path) (hslash : Path.endsWithSlash path = false)
    (hentry : tree.entry? (tree.spot path) ≠ none) : tree.locate path = .ok (tree.spot path) := by
  obtain ⟨name, hinside, hlength, -⟩ := h
  obtain ⟨hwalk, hdirectory⟩ := walk_iff_passes.mpr ⟨hinside.passes, rfl⟩
  refine locate_eq_ok_iff.mpr ⟨hinside.check, ?_, hslash ▸ nofun⟩
  rw [hinside.names, walk_append hwalk, walk_cons_eq_ok_iff]
  change _ ∧ _ ∧ tree.entry? (FileTree.child (tree.above path) name) ≠ none ∧
    tree.walk (FileTree.child (tree.above path) name) [] = _
  rw [hinside.child]
  exact ⟨hdirectory, Nat.not_lt.mpr hlength, hentry, rfl⟩

/-- A file gets another path exactly if one fits there. -/
theorem exists_rename_iff {number : Nat} (hlocate : tree.locate path = .ok (tree.spot path))
    (hentry : tree.entry? (tree.spot path) = some (.file number)) :
    (∃ tree', tree.rename path newPath = .ok tree') ↔ tree.Fits newPath := by
  unfold rename
  rw [hlocate]
  constructor
  · rintro ⟨tree', h⟩
    obtain ⟨_, hsame, h⟩ := bind_eq_ok.mp h
    obtain rfl := Except.ok.inj hsame
    obtain ⟨⟨directory, name?⟩, hnew, h⟩ := bind_eq_ok.mp h
    cases name? with
    | none => cases h
    | some name =>
      obtain ⟨hinside, rfl⟩ := locateNew_eq_ok_iff.mp hnew
      simp only [hinside.child] at h
      by_cases hlength : maxNameBytes < name.utf8ByteSize
      · simp only [if_pos hlength] at h
        cases h
      · simp only [if_neg hlength] at h
        refine ⟨name, hinside, Nat.le_of_not_lt hlength, ?_⟩
        cases hdirectory : tree.isDirectoryAt (tree.spot newPath) with
        | false => rfl
        | true =>
          simp only [hdirectory] at h
          cases h
  · rintro ⟨name, hinside, hlength, hfree⟩
    rw [locateNew_eq_ok_iff.mpr ⟨hinside, rfl⟩]
    simp only [bind, Except.bind, hinside.child, if_neg (Nat.not_lt.mpr hlength), hfree, hentry]
    exact ⟨_, rfl⟩

end Fits

/-! ## The same directories -/

/-- Directories stand at the same locations. -/
structure SameDirectories (tree tree' : FileTree) : Prop where
  workingDirectory : tree'.workingDirectory = tree.workingDirectory
  directory : ∀ l, tree'.isDirectoryAt l = tree.isDirectoryAt l

section SameDirectories

variable {tree tree' tree'' : FileTree} {location : Location} {path : String}

theorem SameDirectories.refl (tree : FileTree) : SameDirectories tree tree :=
  ⟨rfl, fun _ => rfl⟩

theorem SameDirectories.symm (h : SameDirectories tree tree') : SameDirectories tree' tree :=
  ⟨h.workingDirectory.symm, fun l => (h.directory l).symm⟩

theorem SameDirectories.trans (h : SameDirectories tree tree') (h' : SameDirectories tree' tree'') :
    SameDirectories tree tree'' :=
  ⟨h'.workingDirectory.trans h.workingDirectory, fun l => (h'.directory l).trans (h.directory l)⟩

theorem SameDirectories.start_eq (h : SameDirectories tree tree') (path : String) :
    tree'.start path = tree.start path := by
  rw [start, start, h.workingDirectory]

theorem SameDirectories.spot_eq (h : SameDirectories tree tree') (path : String) :
    tree'.spot path = tree.spot path := by
  rw [spot, spot, h.start_eq]

theorem SameDirectories.passes_iff (h : SameDirectories tree tree') {names : List String} :
    tree'.Passes location names ↔ tree.Passes location names := by
  induction names generalizing location with
  | nil => rw [Passes, Passes, h.directory]
  | cons name rest ih => rw [Passes, Passes, h.directory, ih]

theorem SameDirectories.isDirectory_eq (h : SameDirectories tree tree') (path : String) :
    tree'.isDirectory path = tree.isDirectory path := by
  rw [Bool.eq_iff_iff, isDirectory_iff, isDirectory_iff, h.start_eq, h.passes_iff]

/-- The same files fit. -/
theorem SameDirectories.fits_iff (h : SameDirectories tree tree') :
    tree'.Fits path ↔ tree.Fits path := by
  have hinside : ∀ {tree tree' : FileTree} {name}, SameDirectories tree tree' →
      tree.Inside path name → tree'.Inside path name := fun h hinside =>
    ⟨hinside.check, hinside.names, hinside.ne_dot, hinside.ne_dots,
      by rw [h.start_eq, h.passes_iff]; exact hinside.passes⟩
  unfold Fits
  rw [h.spot_eq, h.directory]
  exact exists_congr fun name => and_congr_left fun _ => ⟨hinside h.symm, hinside h⟩

/-- What is no directory is taken away. -/
theorem sameDirectories_take (hne : location ≠ []) (hfree : tree.isDirectoryAt location = false) :
    SameDirectories tree (tree.take location) := by
  refine ⟨rfl, fun l => ?_⟩
  by_cases h : l = location
  · rw [h, hfree, isDirectoryAt, entry_take_self _ hne]
    rfl
  · rw [isDirectoryAt, isDirectoryAt, entry_take_of_ne _ h]

end SameDirectories

end CausalRules.FileTree
