import CausalRules.FileTree
import CausalRules.Proofs.Traversal

/-!
# What operations on file trees leave alone

An operation changes what stands at few locations. A file at another location is read as before, since
directories stay where they are.

- `FileTree.spot`: the location that the names of a path lead to, whether or not anything is there.
- `Keeps`: from one tree to another, what stands at other than the given locations is kept.
  `read_of_keeps` and `missing_of_keeps` say what this means for reading.
- `Ready`: files are numbered properly, and those at the given locations have no other names.
- `draft`: a file to which something was written; `create_cases` says how one comes about.
- `keeps_makeDirectory`, `draft_spec`, `rename_spec`: what operations keep, and what is there
  afterwards; `replace_spec` for a file that is replaced by way of a temporary one.
-/

namespace CausalRules

namespace FileTree

/-! ## Where paths lead -/

/-- The location that the names of a path lead to. -/
def spot (tree : FileTree) (path : String) : Location :=
  (Path.names path).foldl child (tree.start path)

section Paths

variable {tree : FileTree} {path : String} {location found : Location}

theorem walk_cons_eq_ok_iff {name : String} {rest : List String} :
    tree.walk location (name :: rest) = .ok found ↔ tree.isDirectoryAt location = true ∧
      ¬maxNameBytes < name.utf8ByteSize ∧ tree.entry? (child location name) ≠ none ∧
        tree.walk (child location name) rest = .ok found := by
  rw [walk]
  split
  · simp_all
  · split
    · simp_all
    · split
      · simp_all
      · simp_all

theorem walk_eq {names : List String} (h : tree.walk location names = .ok found) :
    found = names.foldl child location := by
  induction names generalizing location with
  | nil => exact (Except.ok.inj h).symm
  | cons name rest ih => exact ih (walk_cons_eq_ok_iff.mp h).2.2.2

theorem walk_append {names rest : List String} (h : tree.walk location names = .ok found) :
    tree.walk location (names ++ rest) = tree.walk found rest := by
  induction names generalizing location with
  | nil =>
    obtain rfl := Except.ok.inj h
    rfl
  | cons name names ih =>
    obtain ⟨hdirectory, hlength, hpresent, hrest⟩ := walk_cons_eq_ok_iff.mp h
    rw [List.cons_append, walk, if_neg (by simpa using hdirectory), if_neg hlength,
      if_neg (by simpa using hpresent)]
    exact ih hrest

theorem locate_eq_ok_iff : tree.locate path = .ok found ↔
    checkPath path = .ok () ∧ tree.walk (tree.start path) (Path.names path) = .ok found ∧
      (Path.endsWithSlash path = true → tree.isDirectoryAt found = true) := by
  unfold locate
  rw [bind_eq_ok]
  constructor
  · rintro ⟨⟨⟩, hcheck, h⟩
    obtain ⟨location, hwalk, h⟩ := bind_eq_ok.mp h
    by_cases hslash : Path.endsWithSlash path = true ∧ (!tree.isDirectoryAt location) = true
    · simp only [if_pos hslash] at h
      cases h
    · simp only [if_neg hslash] at h
      obtain rfl := Except.ok.inj h
      refine ⟨hcheck, hwalk, fun hends => ?_⟩
      by_contra hdirectory
      exact hslash ⟨hends, by simpa using hdirectory⟩
  · rintro ⟨hcheck, hwalk, hends⟩
    refine ⟨(), hcheck, bind_eq_ok.mpr ⟨found, hwalk, ?_⟩⟩
    rw [if_neg (by simpa using hends)]
    rfl

theorem read_eq_ok_iff {content : ByteArray} : tree.read path = .ok content ↔
    ∃ location number, tree.locate path = .ok location ∧
      tree.entry? location = some (.file number) ∧ tree.content number = content := by
  unfold read
  rw [bind_eq_ok]
  refine exists_congr fun location => ?_
  cases tree.entry? location with
  | none => simp
  | some entry =>
    cases entry with
    | directory => simp
    | file number => simp [pure_eq_ok]

theorem spot_of_locate (h : tree.locate path = .ok found) : found = tree.spot path :=
  walk_eq (locate_eq_ok_iff.mp h).2.1

/-- The location of something new is that of the path, inside a directory. -/
theorem locateNew_eq_ok {name : String} (h : tree.locateNew path = .ok (found, some name)) :
    checkPath path = .ok () ∧ Path.names path = (Path.names path).dropLast ++ [name] ∧
      tree.walk (tree.start path) (Path.names path).dropLast = .ok found ∧
      tree.isDirectoryAt found = true ∧ child found name = found ++ [name] := by
  unfold locateNew at h
  obtain ⟨⟨⟩, hcheck, h⟩ := bind_eq_ok.mp h
  obtain ⟨directory, hwalk, h⟩ := bind_eq_ok.mp h
  cases hdirectory : tree.isDirectoryAt directory with
  | false =>
    simp only [hdirectory] at h
    cases h
  | true =>
    simp only [hdirectory] at h
    cases hlast : (Path.names path).getLast? with
    | none =>
      rw [hlast] at h
      cases h
    | some last =>
      rw [hlast] at h
      by_cases hdots : last = "." ∨ last = ".."
      · simp only [if_pos hdots] at h
        cases h
      · simp only [if_neg hdots] at h
        cases h
        refine ⟨hcheck, ?_, hwalk, hdirectory, ?_⟩
        · exact (List.dropLast_append_getLast? name hlast).symm
        · obtain ⟨hdot, hup⟩ := not_or.mp hdots
          rw [child, if_neg hdot, if_neg hup]

theorem spot_of_locateNew {name : String} (h : tree.locateNew path = .ok (found, some name)) :
    tree.spot path = found ++ [name] := by
  obtain ⟨-, hnames, hwalk, -, hchild⟩ := locateNew_eq_ok h
  rw [spot, hnames, List.foldl_append, ← walk_eq hwalk]
  exact hchild

theorem read_eq_notFound_iff (hcheck : checkPath path = .ok ()) :
    tree.read path = .error .notFound ↔
      tree.walk (tree.start path) (Path.names path) = .error .notFound := by
  unfold read locate
  rw [hcheck]
  cases tree.walk (tree.start path) (Path.names path) with
  | error failure =>
    exact ⟨fun h => congrArg _ (Except.error.inj h), fun h => congrArg _ (Except.error.inj h)⟩
  | ok location =>
    refine ⟨fun h => ?_, nofun⟩
    by_cases hslash : Path.endsWithSlash path = true ∧ (!tree.isDirectoryAt location) = true
    · simp only [bind, Except.bind, if_pos hslash] at h
      cases h
    · simp only [bind, Except.bind, if_neg hslash] at h
      cases hentry : tree.entry? location with
      | none => simp [hentry, pure, Except.pure, throw, throwThe, MonadExceptOf.throw] at h
      | some entry =>
        cases entry with
        | directory => simp [hentry, pure, Except.pure, throw, throwThe, MonadExceptOf.throw] at h
        | file number => simp [hentry, pure, Except.pure] at h

theorem walk_singleton_eq_notFound_iff {name : String} :
    tree.walk location [name] = .error .notFound ↔ tree.isDirectoryAt location = true ∧
      ¬maxNameBytes < name.utf8ByteSize ∧ tree.entry? (child location name) = none := by
  rw [walk]
  split
  · simp_all
  · split
    · simp_all
    · split
      · simp_all
      · simp_all [walk]

end Paths

/-! ## Entries and contents -/

section Entries

variable (tree : FileTree) {location other : Location}

theorem entry_put_self {entry : Entry} (h : location ≠ []) :
    FileTree.entry? (tree.put location entry) location = some entry := by
  simp [put, entry?, h]

theorem lookup_filter_of_ne {entries : List (Location × Entry)} (h : other ≠ location) :
    (entries.filter (·.1 ≠ location)).lookup other = entries.lookup other := by
  induction entries with
  | nil => rfl
  | cons entry entries ih =>
    obtain ⟨l, e⟩ := entry
    by_cases hl : l = location
    · subst hl
      rw [List.filter_cons_of_neg (by simp), ih, List.lookup_cons, beq_false_of_ne h]
    · rw [List.filter_cons_of_pos (by simpa using hl), List.lookup_cons, List.lookup_cons, ih]

theorem entry_put_of_ne {entry : Entry} (h : other ≠ location) :
    FileTree.entry? (tree.put location entry) other = tree.entry? other := by
  unfold entry? put
  dsimp only
  rw [List.lookup_cons, beq_false_of_ne h, lookup_filter_of_ne h]

theorem entry_take_of_ne (h : other ≠ location) :
    FileTree.entry? (tree.take location) other = tree.entry? other := by
  unfold entry? take
  dsimp only
  rw [lookup_filter_of_ne h]

theorem entry_take_self (h : location ≠ []) :
    FileTree.entry? (tree.take location) location = none := by
  have hnone : (tree.entries.filter (·.1 ≠ location)).lookup location = none := by
    rw [List.lookup_eq_none_iff]
    intro entry hentry
    have hne : entry.1 ≠ location := of_decide_eq_true (List.mem_filter.mp hentry).2
    exact bne_iff_ne.mpr hne.symm
  unfold entry? take
  dsimp only
  rw [hnone, if_neg (by simpa using h)]

end Entries

/-! ## What is kept -/

/-- Nothing was changed but what stands at the locations to replace, and directories were made at
locations to make where nothing stood. -/
structure Keeps (replaced made : Location → Prop) (tree tree' : FileTree) : Prop where
  workingDirectory : tree'.workingDirectory = tree.workingDirectory
  directory : ∀ l, tree.isDirectoryAt l = true → tree'.isDirectoryAt l = true
  entry : ∀ l, ¬replaced l → (made l → tree.entry? l ≠ none) → tree'.entry? l = tree.entry? l
  content : ∀ l number, ¬replaced l → tree.entry? l = some (.file number) →
    tree'.content number = tree.content number

section Keeps

variable {replaced made : Location → Prop} {tree tree' tree'' : FileTree} {path : String}

theorem Keeps.refl (tree : FileTree) : Keeps replaced made tree tree :=
  ⟨rfl, fun _ => id, fun _ _ _ => rfl, fun _ _ _ _ => rfl⟩

theorem Keeps.trans (h : Keeps replaced made tree tree') (h' : Keeps replaced made tree' tree'') :
    Keeps replaced made tree tree'' := by
  refine ⟨h'.workingDirectory.trans h.workingDirectory, fun l hl => h'.directory l (h.directory l hl),
    fun l hl hmade => ?_, fun l number hl hentry => ?_⟩
  · have heq := h.entry l hl hmade
    exact (h'.entry l hl fun hm => heq ▸ hmade hm).trans heq
  · have heq : tree'.entry? l = some (.file number) :=
      (h.entry l hl fun _ => hentry ▸ nofun).trans hentry
    exact (h'.content l number hl heq).trans (h.content l number hl hentry)

theorem Keeps.mono {replaced' made' : Location → Prop} (h : Keeps replaced made tree tree')
    (hreplaced : ∀ l, replaced l → replaced' l) (hmade : ∀ l, made l → made' l) :
    Keeps replaced' made' tree tree' :=
  ⟨h.workingDirectory, h.directory, fun l hl hm => h.entry l (mt (hreplaced l) hl) fun hl' =>
    hm (hmade l hl'), fun l number hl => h.content l number (mt (hreplaced l) hl)⟩

theorem Keeps.spot_eq (h : Keeps replaced made tree tree') (path : String) :
    tree'.spot path = tree.spot path := by
  rw [spot, spot, start, start, h.workingDirectory]

/-- Directories are kept, so names lead to where they led. -/
theorem Keeps.walk (h : Keeps replaced made tree tree') {location found : Location}
    {names : List String} (hwalk : tree.walk location names = .ok found) (hfound : ¬replaced found) :
    tree'.walk location names = .ok found := by
  induction names generalizing location with
  | nil => exact hwalk
  | cons name rest ih =>
    rw [walk_cons_eq_ok_iff] at hwalk ⊢
    obtain ⟨hdirectory, hlength, hpresent, hrest⟩ := hwalk
    refine ⟨h.directory _ hdirectory, hlength, ?_, ih hrest⟩
    cases rest with
    | nil =>
      obtain rfl := Except.ok.inj hrest
      rwa [h.entry _ hfound fun _ => hpresent]
    | cons next rest =>
      -- names are looked up in what was found, which is a directory
      have hnext := h.directory _ (walk_cons_eq_ok_iff.mp hrest).1
      rw [of_decide_eq_true hnext]
      exact nofun

theorem read_of_keeps (h : Keeps replaced made tree tree') {content : ByteArray}
    (hread : tree.read path = .ok content) (hpath : ¬replaced (tree.spot path)) :
    tree'.read path = .ok content := by
  obtain ⟨location, number, hlocate, hentry, rfl⟩ := read_eq_ok_iff.mp hread
  obtain rfl := spot_of_locate hlocate
  obtain ⟨hcheck, hwalk, hslash⟩ := locate_eq_ok_iff.mp hlocate
  have hstart : tree'.start path = tree.start path := by rw [start, start, h.workingDirectory]
  refine read_eq_ok_iff.mpr ⟨_, number, locate_eq_ok_iff.mpr ⟨hcheck, ?_, fun hends =>
    h.directory _ (hslash hends)⟩, ?_, h.content _ number hpath hentry⟩
  · rw [hstart]
    exact h.walk hwalk hpath
  · exact (h.entry _ hpath fun _ => hentry ▸ nofun).trans hentry

/-- A file that was missing where its path starts is missing, unless it was made. -/
theorem missing_of_keeps (h : Keeps replaced made tree tree') {name : String}
    (hcheck : checkPath path = .ok ()) (hnames : Path.names path = [name])
    (hread : tree.read path = .error .notFound) (hreplaced : ¬replaced (tree.spot path))
    (hmade : ¬made (tree.spot path)) : tree'.read path = .error .notFound := by
  have hspot : tree.spot path = child (tree.start path) name := by
    rw [spot, hnames]
    rfl
  have hstart : tree'.start path = tree.start path := by rw [start, start, h.workingDirectory]
  rw [read_eq_notFound_iff hcheck, hnames, walk_singleton_eq_notFound_iff] at hread ⊢
  obtain ⟨hdirectory, hlength, hnone⟩ := hread
  rw [← hspot] at hnone
  rw [hstart, ← hspot]
  refine ⟨h.directory _ hdirectory, hlength, ?_⟩
  rw [h.entry _ hreplaced fun hl => (hmade hl).elim, hnone]

end Keeps

/-- Files have numbers that there are, and those at the given locations have no other names. -/
structure Ready (temporary : Location → Prop) (tree : FileTree) : Prop where
  sound : ∀ l number, tree.entry? l = some (.file number) → number < tree.contents.length
  sole : ∀ l other number, temporary l → tree.entry? l = some (.file number) →
    tree.entry? other = some (.file number) → other = l

theorem Ready.mono {temporary temporary' : Location → Prop} {tree : FileTree}
    (h : Ready temporary tree) (himp : ∀ l, temporary' l → temporary l) : Ready temporary' tree :=
  ⟨h.sound, fun l other number hl => h.sole l other number (himp l hl)⟩

/-! ## Making directories -/

section Operations

variable {temporary : Location → Prop} {tree tree' : FileTree} {path : String}

theorem makeDirectory_eq_ok (h : tree.makeDirectory path = .ok tree') :
    tree.spot path ≠ [] ∧ tree.entry? (tree.spot path) = none ∧
      tree' = tree.put (tree.spot path) .directory := by
  unfold makeDirectory at h
  obtain ⟨⟨directory, name?⟩, hnew, h⟩ := bind_eq_ok.mp h
  cases name? with
  | none => cases h
  | some name =>
    rw [spot_of_locateNew hnew, ← (locateNew_eq_ok hnew).2.2.2.2]
    by_cases hlength : maxNameBytes < name.utf8ByteSize
    · simp only [if_pos hlength] at h
      cases h
    · simp only [if_neg hlength] at h
      cases hentry : tree.entry? (child directory name) with
      | some entry =>
        rw [hentry] at h
        cases h
      | none =>
        rw [hentry] at h
        refine ⟨?_, rfl, (Except.ok.inj h).symm⟩
        rw [(locateNew_eq_ok hnew).2.2.2.2]
        simp

theorem entry_of_makeDirectory (h : tree.makeDirectory path = .ok tree') {l : Location}
    {number : Nat} (hl : tree'.entry? l = some (.file number)) :
    tree.entry? l = some (.file number) := by
  obtain ⟨hne, -, rfl⟩ := makeDirectory_eq_ok h
  by_cases heq : l = tree.spot path
  · rw [heq, tree.entry_put_self hne] at hl
    cases hl
  · rwa [tree.entry_put_of_ne heq] at hl

/-- Making a directory keeps all that was there. -/
theorem keeps_makeDirectory (h : tree.makeDirectory path = .ok tree') :
    Keeps (fun _ => False) (· = tree.spot path) tree tree' := by
  obtain ⟨-, hnone, rfl⟩ := makeDirectory_eq_ok h
  have hother : ∀ l, l ≠ tree.spot path →
      FileTree.entry? (tree.put (tree.spot path) .directory) l = tree.entry? l :=
    fun l => tree.entry_put_of_ne
  refine ⟨rfl, fun l hl => ?_, fun l _ hmade => hother l ?_, fun _ _ _ _ => rfl⟩
  · have hl' : l ≠ tree.spot path := by
      rintro rfl
      rw [isDirectoryAt, hnone] at hl
      cases hl
    rwa [isDirectoryAt, hother l hl']
  · rintro rfl
    exact hmade rfl hnone

theorem ready_makeDirectory (h : tree.makeDirectory path = .ok tree')
    (hready : Ready temporary tree) : Ready temporary tree' := by
  have hcontents : tree'.contents = tree.contents := by
    obtain ⟨-, -, rfl⟩ := makeDirectory_eq_ok h
    rfl
  refine ⟨fun l number hl => ?_, fun l other number ht hl ho => ?_⟩
  · rw [hcontents]
    exact hready.sound l number (entry_of_makeDirectory h hl)
  · exact hready.sole l other number ht (entry_of_makeDirectory h hl) (entry_of_makeDirectory h ho)

/-! ## Replacing a file -/

theorem openFile_eq_ok {number : Nat} (h : tree.openFile path = .ok (number, tree')) :
    tree.spot path ≠ [] ∧
      (tree.entry? (tree.spot path) = some (.file number) ∧ tree' = tree ∨
        tree.entry? (tree.spot path) = none ∧ number = tree.contents.length ∧
          tree' = { tree with contents := tree.contents ++ [ByteArray.empty] }.put
            (tree.spot path) (.file number)) := by
  unfold openFile at h
  obtain ⟨⟨directory, name?⟩, hnew, h⟩ := bind_eq_ok.mp h
  cases name? with
  | none => cases h
  | some name =>
    have hchild := (locateNew_eq_ok hnew).2.2.2.2
    rw [spot_of_locateNew hnew, ← hchild]
    by_cases hslash : Path.endsWithSlash path = true
    · simp only [if_pos hslash] at h
      cases h
    · simp only [if_neg hslash] at h
      by_cases hlength : maxNameBytes < name.utf8ByteSize
      · simp only [if_pos hlength] at h
        cases h
      · simp only [if_neg hlength] at h
        refine ⟨by simp [hchild], ?_⟩
        cases hentry : tree.entry? (child directory name) with
        | none =>
          rw [hentry] at h
          cases h
          exact .inr ⟨rfl, rfl, rfl⟩
        | some entry =>
          rw [hentry] at h
          cases entry with
          | directory => cases h
          | file n =>
            cases h
            exact .inl ⟨rfl, rfl⟩

/-- A file that is opened is there afterwards. A new one has a number of its own. -/
theorem openFile_spec {number : Nat} (hready : Ready temporary tree)
    (h : tree.openFile path = .ok (number, tree')) :
    tree'.entry? (tree.spot path) = some (.file number) ∧
      Keeps (· = tree.spot path) (fun _ => False) tree tree' ∧ Ready temporary tree' := by
  obtain ⟨hne, ⟨hentry, rfl⟩ | ⟨hentry, rfl, htree'⟩⟩ := openFile_eq_ok h
  · exact ⟨hentry, .refl _, hready⟩
  · have hself : tree'.entry? (tree.spot path) = some (.file tree.contents.length) := by
      rw [htree']
      exact entry_put_self _ hne
    have hother : ∀ l, l ≠ tree.spot path → tree'.entry? l = tree.entry? l := by
      intro l hl
      rw [htree']
      exact entry_put_of_ne _ hl
    have hlength : tree'.contents.length = tree.contents.length + 1 := by
      simp [htree', put]
    refine ⟨hself, ⟨?_, fun l hl => ?_, fun l hl _ => hother l hl, fun l other hl hentry' => ?_⟩,
      fun l other hl => ?_, fun l other n ht hl ho => ?_⟩
    · rw [htree']
      rfl
    · have hne' : l ≠ tree.spot path := by
        rintro rfl
        rw [isDirectoryAt, hentry] at hl
        cases hl
      rwa [isDirectoryAt, hother l hne']
    · have hlt := hready.sound l other hentry'
      simp [htree', put, FileTree.content, List.getElem?_append_left hlt]
    · by_cases heq : l = tree.spot path
      · subst heq
        cases hself.symm.trans hl
        omega
      · rw [hother l heq] at hl
        have hlt := hready.sound l other hl
        omega
    · by_cases heq : l = tree.spot path
      · subst heq
        cases hself.symm.trans hl
        by_contra hne'
        rw [hother other hne'] at ho
        exact Nat.lt_irrefl _ (hready.sound _ _ ho)
      · rw [hother l heq] at hl
        by_cases heq' : other = tree.spot path
        · subst heq'
          cases hself.symm.trans ho
          exact absurd (hready.sound _ _ hl) (Nat.lt_irrefl _)
        · rw [hother other heq'] at ho
          exact hready.sole l other n ht hl ho

/-- A file without other names gets another content, and other files keep theirs. -/
theorem setContent_spec {l : Location} {number : Nat} (content : ByteArray)
    (hready : Ready temporary tree) (htemporary : temporary l)
    (hentry : tree.entry? l = some (.file number)) :
    (tree.setContent number content).content number = content ∧
      Keeps (· = l) (fun _ => False) tree (tree.setContent number content) ∧
        Ready temporary (tree.setContent number content) := by
  refine ⟨?_, ⟨rfl, fun _ => id, fun _ _ _ => rfl, fun other n hne hother => ?_⟩,
    fun other n hother => ?_, hready.sole⟩
  · simp [FileTree.content, setContent, hready.sound l number hentry]
  · have hn : number ≠ n := by
      rintro rfl
      exact hne (hready.sole l other number htemporary hentry hother)
    simp [FileTree.content, setContent, List.getElem?_set_ne hn]
  · have hlt := hready.sound other n hother
    simpa [setContent] using hlt

/-- The tree with a file at a path that has come to have a content. Before a file takes its place, a
part of what is meant for it or the whole has been written to such a draft. -/
def draft (tree : FileTree) (path : String) (content : ByteArray) : Except Failure FileTree := do
  let (number, tree) ← tree.openFile path
  return tree.setContent number content

/-- A file is made empty, or that fails for the same reason as any draft. -/
theorem create_cases (tree : FileTree) (path : String) :
    (∃ failure, tree.create path = .error failure ∧
      ∀ content, tree.draft path content = .error failure) ∨
    ∃ number begun, tree.create path = .ok (number, begun) ∧
      ∀ content, tree.draft path content = .ok (begun.append number content) := by
  unfold create draft
  cases tree.openFile path with
  | error failure => exact .inl ⟨failure, rfl, fun _ => rfl⟩
  | ok found =>
    obtain ⟨number, opened⟩ := found
    refine .inr ⟨number, _, rfl, fun content => congrArg Except.ok ?_⟩
    have hempty : (opened.setContent number ByteArray.empty).content number = ByteArray.empty := by
      unfold FileTree.content setContent
      by_cases hnumber : number < opened.contents.length
      · simp [hnumber]
      · simp [Nat.le_of_not_lt hnumber]
    rw [append, hempty, ByteArray.empty_append, setContent, setContent, setContent, List.set_set]

/-- The file at the path of a draft has the content, and other files have theirs. -/
theorem draft_spec {content : ByteArray} (hready : Ready temporary tree)
    (htemporary : temporary (tree.spot path)) (h : tree.draft path content = .ok tree') :
    ∃ number, tree'.entry? (tree.spot path) = some (.file number) ∧
      tree'.content number = content ∧
      Keeps (· = tree.spot path) (fun _ => False) tree tree' ∧ Ready temporary tree' := by
  obtain ⟨⟨number, opened⟩, hopen, h⟩ := bind_eq_ok.mp h
  obtain rfl := Except.ok.inj h
  obtain ⟨hentry, hkeeps, hready⟩ := openFile_spec hready hopen
  obtain ⟨hcontent, hkeeps', hready⟩ := setContent_spec content hready htemporary hentry
  exact ⟨number, hentry, hcontent, hkeeps.trans hkeeps', hready⟩

theorem rename_eq_ok {newPath : String} (h : tree.rename path newPath = .ok tree') :
    ∃ directory name number, tree.locateNew newPath = .ok (directory, some name) ∧
      ¬maxNameBytes < name.utf8ByteSize ∧ tree.isDirectoryAt (tree.spot newPath) = false ∧
      tree.entry? (tree.spot path) = some (.file number) ∧
      tree' = (tree.take (tree.spot path)).put (tree.spot newPath) (.file number) := by
  unfold rename at h
  obtain ⟨location, hlocate, h⟩ := bind_eq_ok.mp h
  obtain rfl := spot_of_locate hlocate
  obtain ⟨⟨directory, name?⟩, hnew, h⟩ := bind_eq_ok.mp h
  cases name? with
  | none => cases h
  | some name =>
    refine ⟨directory, name, ?_⟩
    rw [spot_of_locateNew hnew, ← (locateNew_eq_ok hnew).2.2.2.2]
    by_cases hlength : maxNameBytes < name.utf8ByteSize
    · simp only [if_pos hlength] at h
      cases h
    · simp only [if_neg hlength] at h
      cases hdirectory : tree.isDirectoryAt (child directory name) with
      | true =>
        simp only [hdirectory] at h
        cases h
      | false =>
        simp only [hdirectory] at h
        cases hentry : tree.entry? (tree.spot path) with
        | none =>
          rw [hentry] at h
          cases h
        | some entry =>
          rw [hentry] at h
          cases entry with
          | directory => cases h
          | file number => exact ⟨number, hnew, hlength, rfl, rfl, (Except.ok.inj h).symm⟩

section Moved

variable {source target : Location} {number : Nat}

theorem ne_nil_of_file (h : tree.entry? source = some (.file number)) : source ≠ [] := by
  rintro rfl
  cases h

theorem ne_of_file (h : tree.entry? source = some (.file number)) {l : Location}
    (hl : tree.isDirectoryAt l = true) : l ≠ source := by
  rintro rfl
  rw [isDirectoryAt, h] at hl
  cases hl

theorem entry_moved (hsource : tree.entry? source = some (.file number)) (htarget : target ≠ [])
    (l : Location) : FileTree.entry? ((tree.take source).put target (.file number)) l =
      if l = target then some (.file number) else if l = source then none else tree.entry? l := by
  by_cases h : l = target
  · subst h
    rw [entry_put_self _ htarget, if_pos rfl]
  · rw [entry_put_of_ne _ h, if_neg h]
    by_cases h' : l = source
    · subst h'
      rw [entry_take_self _ (ne_nil_of_file hsource), if_pos rfl]
    · rw [entry_take_of_ne _ h', if_neg h']

theorem keeps_moved (hsource : tree.entry? source = some (.file number)) (htarget : target ≠ [])
    (hfree : tree.isDirectoryAt target = false) :
    Keeps (fun l => l = source ∨ l = target) (fun _ => False) tree
      ((tree.take source).put target (.file number)) := by
  have hother : ∀ l, ¬(l = source ∨ l = target) →
      FileTree.entry? ((tree.take source).put target (.file number)) l = tree.entry? l := by
    intro l hl
    obtain ⟨hsource', htarget'⟩ := not_or.mp hl
    rw [entry_moved hsource htarget, if_neg htarget', if_neg hsource']
  refine ⟨rfl, fun l hl => ?_, fun l hl _ => hother l hl, fun _ _ _ _ => rfl⟩
  rw [isDirectoryAt, hother l]
  · exact hl
  · rintro (rfl | rfl)
    · exact ne_of_file hsource hl rfl
    · rw [hfree] at hl
      cases hl

theorem ready_moved (hready : Ready temporary tree) (htemporary : temporary source)
    (htarget : temporary target → target = source)
    (hsource : tree.entry? source = some (.file number)) (hne : target ≠ []) :
    Ready temporary ((tree.take source).put target (.file number)) := by
  -- what has a number has it in the old tree already, the target under the old name
  have hback : ∀ l n,
      FileTree.entry? ((tree.take source).put target (.file number)) l = some (.file n) →
        l = target ∧ n = number ∨ l ≠ source ∧ tree.entry? l = some (.file n) := by
    intro l n hl
    rw [entry_moved hsource hne] at hl
    split at hl
    · rename_i heq
      cases hl
      exact .inl ⟨heq, rfl⟩
    · split at hl
      · cases hl
      · rename_i hl'
        exact .inr ⟨hl', hl⟩
  refine ⟨fun l n hl => ?_, fun l other n ht hl ho => ?_⟩
  · rcases hback l n hl with ⟨-, rfl⟩ | ⟨-, hl⟩
    · exact hready.sound _ _ hsource
    · exact hready.sound _ _ hl
  · rcases hback l n hl with ⟨rfl, rfl⟩ | ⟨hl', hold⟩
    · rcases hback other n ho with ⟨rfl, -⟩ | ⟨ho', ho⟩
      · rfl
      · exact (ho' (hready.sole _ _ _ htemporary hsource ho)).elim
    · rcases hback other n ho with ⟨rfl, rfl⟩ | ⟨-, ho⟩
      · exact (hl' (hready.sole _ _ _ ht hold hsource).symm).elim
      · exact hready.sole _ _ _ ht hold ho

end Moved

/-- After a file was renamed it is read under its new path, and other files are as they were. -/
theorem rename_spec {newPath : String} (hready : Ready temporary tree)
    (htemporary : temporary (tree.spot path))
    (hnew : temporary (tree.spot newPath) → tree.spot newPath = tree.spot path)
    (hslash : Path.endsWithSlash newPath = false) {number : Nat}
    (hentry : tree.entry? (tree.spot path) = some (.file number))
    (h : tree.rename path newPath = .ok tree') :
    tree'.read newPath = .ok (tree.content number) ∧
      Keeps (fun l => l = tree.spot path ∨ l = tree.spot newPath) (fun _ => False) tree tree' ∧
        Ready temporary tree' := by
  obtain ⟨directory, name, number', hlocate, hlength, hfree, hentry', rfl⟩ := rename_eq_ok h
  cases hentry.symm.trans hentry'
  have hspot := spot_of_locateNew hlocate
  obtain ⟨hcheck, hnames, hwalk, hdirectory, hchild⟩ := locateNew_eq_ok hlocate
  have hne : tree.spot newPath ≠ [] := by simp [hspot]
  have hkeeps := keeps_moved hentry hne hfree
  refine ⟨?_, hkeeps, ready_moved hready htemporary hnew hentry hne⟩
  -- the directory of the new path is still there
  have hwalk' := hkeeps.walk hwalk <| by
    rintro (heq | heq)
    · exact ne_of_file hentry hdirectory heq
    · rw [heq, hfree] at hdirectory
      cases hdirectory
  have hself := entry_moved hentry hne (tree.spot newPath)
  rw [if_pos rfl] at hself
  refine read_eq_ok_iff.mpr ⟨_, number, locate_eq_ok_iff.mpr ⟨hcheck, ?_, hslash ▸ nofun⟩, hself, rfl⟩
  show FileTree.walk _ (tree.start newPath) _ = _
  rw [hnames, walk_append hwalk', walk_cons_eq_ok_iff, hchild, ← hspot]
  exact ⟨hkeeps.directory _ hdirectory, hlength, hself ▸ nofun, rfl⟩

/-- A file was replaced by way of a temporary one. -/
def Replaces (tree : FileTree) (temporaryPath path : String) (content : ByteArray)
    (tree' : FileTree) : Prop :=
  ∃ drafted, tree.draft temporaryPath content = .ok drafted ∧
    drafted.rename temporaryPath path = .ok tree'

/-- **A file that was replaced** holds the content, and nothing else was changed but the temporary
file. -/
theorem replace_spec {newPath : String} {content : ByteArray} (hready : Ready temporary tree)
    (htemporary : temporary (tree.spot path))
    (hnew : temporary (tree.spot newPath) → tree.spot newPath = tree.spot path)
    (hslash : Path.endsWithSlash newPath = false) (h : tree.Replaces path newPath content tree') :
    tree'.read newPath = .ok content ∧
      Keeps (fun l => l = tree.spot path ∨ l = tree.spot newPath) (fun _ => False) tree tree' ∧
        Ready temporary tree' := by
  obtain ⟨drafted, hdraft, hrename⟩ := h
  obtain ⟨number, hentry, hcontent, hkeeps, hready⟩ := draft_spec hready htemporary hdraft
  rw [← hkeeps.spot_eq] at htemporary hentry
  rw [← hkeeps.spot_eq, ← hkeeps.spot_eq path] at hnew
  obtain ⟨hread, hkeeps', hready⟩ := rename_spec hready htemporary hnew hslash hentry hrename
  rw [hkeeps.spot_eq, hkeeps.spot_eq] at hkeeps'
  exact ⟨hcontent ▸ hread, (hkeeps.mono (fun _ => .inl) fun _ => id).trans hkeeps', hready⟩

end Operations

end FileTree

end CausalRules
