import CausalRules.Proofs.FileTree.Replacing

/-!
# What one content makes no difference to

Operations look at names, and at the content of the file that is read. So they come to the same in two
trees that differ in the content of one file, such as a file that a log is written to, as long as it is
another file that is read.

- `withContents`: a tree with other contents. `locate_withContents` and those after it say that places
  do not depend on contents.
- `AgreeBut`: trees that differ in one content at most.
- `Outcomes`: operations that fail alike, or succeed with related results.
- `Twin`: trees that differ in one content at most, the file of which has got no further names.
  `Twin.makeDirectory`, `Twin.create`, `Twin.append`, `Twin.rename`, `Twin.remove` say that it stays
  so.
-/

namespace CausalRules.FileTree

/-! ## Places -/

/-- The tree with other contents. -/
def withContents (tree : FileTree) (contents : List ByteArray) : FileTree :=
  { tree with contents := contents }

section Places

variable (tree : FileTree) (contents : List ByteArray) (location : Location) (path newPath : String)

theorem entry_withContents :
    FileTree.entry? (tree.withContents contents) location = tree.entry? location :=
  rfl

theorem isDirectoryAt_withContents :
    (tree.withContents contents).isDirectoryAt location = tree.isDirectoryAt location :=
  rfl

theorem walk_withContents (names : List String) :
    (tree.withContents contents).walk location names = tree.walk location names := by
  induction names generalizing location with
  | nil => rfl
  | cons name rest ih =>
    rw [walk, walk, ih]
    rfl

theorem locate_withContents : (tree.withContents contents).locate path = tree.locate path := by
  unfold locate
  rw [walk_withContents]
  rfl

theorem locateNew_withContents :
    (tree.withContents contents).locateNew path = tree.locateNew path := by
  unfold locateNew
  simp only [walk_withContents]
  rfl

theorem makeDirectory_withContents : (tree.withContents contents).makeDirectory path =
    (tree.makeDirectory path).map (·.withContents contents) := by
  unfold makeDirectory
  rw [locateNew_withContents]
  cases tree.locateNew path with
  | error => rfl
  | ok found =>
    obtain ⟨directory, name?⟩ := found
    cases name? with
    | none => rfl
    | some name =>
      simp only [bind, Except.bind, entry_withContents]
      split
      · rfl
      · split
        · rfl
        · rfl

theorem rename_withContents : (tree.withContents contents).rename path newPath =
    (tree.rename path newPath).map (·.withContents contents) := by
  unfold rename
  rw [locate_withContents, locateNew_withContents]
  cases tree.locate path with
  | error => rfl
  | ok location =>
    cases tree.locateNew newPath with
    | error => rfl
    | ok found =>
      obtain ⟨directory, name?⟩ := found
      cases name? with
      | none => rfl
      | some name =>
        simp only [bind, Except.bind, entry_withContents]
        have hsame := isDirectoryAt_withContents tree contents (child directory name)
        split
        · rfl
        · cases hdirectory : tree.isDirectoryAt (child directory name) with
          | true =>
            simp only [hsame.trans hdirectory]
            rfl
          | false =>
            simp only [hsame.trans hdirectory, Bool.false_eq_true, if_false]
            split
            · rfl
            · rfl

theorem remove_withContents : (tree.withContents contents).remove path =
    (tree.remove path).map (·.withContents contents) := by
  unfold remove
  rw [locate_withContents]
  cases tree.locate path with
  | error => rfl
  | ok location =>
    simp only [bind, Except.bind]
    have hsame := isDirectoryAt_withContents tree contents location
    cases hdirectory : tree.isDirectoryAt location with
    | true | false =>
      simp only [hsame.trans hdirectory]
      rfl

/-- A new file comes behind the other contents. -/
theorem openFile_withContents (hlength : contents.length = tree.contents.length) :
    (tree.withContents contents).openFile path = (tree.openFile path).map fun opened =>
      (opened.1, opened.2.withContents (contents ++ opened.2.contents.drop contents.length)) := by
  unfold openFile
  rw [locateNew_withContents]
  cases tree.locateNew path with
  | error => rfl
  | ok found =>
    obtain ⟨directory, name?⟩ := found
    cases name? with
    | none => rfl
    | some name =>
      simp only [bind, Except.bind, entry_withContents]
      split
      · rfl
      · split
        · rfl
        · split
          · rfl
          · simp [withContents, hlength, Except.map, pure, Except.pure]
          · simp [withContents, hlength, Except.map, pure, Except.pure, put]

end Places

/-! ## Agreeing but for one content -/

/-- The trees are the same but for the content of the file with the given number, if there is one. -/
structure AgreeBut (number? : Option Nat) (tree tree' : FileTree) : Prop where
  same : tree' = tree.withContents tree'.contents
  count : tree'.contents.length = tree.contents.length
  content : ∀ number, number? ≠ some number → tree'.contents[number]? = tree.contents[number]?

/-- A path leads elsewhere than to the file with the given number. -/
def Misses (tree : FileTree) (number? : Option Nat) (path : String) : Prop :=
  ∀ number ∈ number?, tree.entry? (tree.spot path) ≠ some (.file number)

section AgreeBut

variable {number? : Option Nat} {tree tree' : FileTree} {location : Location} {path : String}

theorem AgreeBut.refl (number? : Option Nat) (tree : FileTree) : AgreeBut number? tree tree :=
  ⟨rfl, rfl, fun _ _ => rfl⟩

theorem AgreeBut.entry_eq (h : AgreeBut number? tree tree') (location : Location) :
    tree'.entry? location = tree.entry? location := by
  rw [h.same, entry_withContents]

theorem AgreeBut.sameDirectories (h : AgreeBut number? tree tree') : SameDirectories tree tree' := by
  refine ⟨?_, fun l => by rw [isDirectoryAt, isDirectoryAt, h.entry_eq]⟩
  rw [h.same]
  rfl

theorem AgreeBut.content_eq (h : AgreeBut number? tree tree') {number : Nat}
    (hne : number? ≠ some number) : tree'.content number = tree.content number := by
  rw [FileTree.content, FileTree.content, h.content number hne]

theorem AgreeBut.misses (h : AgreeBut number? tree tree') (hpath : tree.Misses number? path) :
    tree'.Misses number? path := by
  intro number hnumber
  rw [h.entry_eq, h.sameDirectories.spot_eq]
  exact hpath number hnumber

theorem AgreeBut.locate_eq (h : AgreeBut number? tree tree') (path : String) :
    tree'.locate path = tree.locate path := by
  rw [h.same, locate_withContents]

/-- A file that is found elsewhere has the same content. -/
theorem AgreeBut.content_of_locate (h : AgreeBut number? tree tree')
    (hpath : tree.Misses number? path) (hlocate : tree.locate path = .ok location) {number : Nat}
    (hentry : tree.entry? location = some (.file number)) :
    tree'.content number = tree.content number := by
  obtain rfl := spot_of_locate hlocate
  exact h.content_eq fun heq => hpath number heq hentry

/-- What is read elsewhere is the same. -/
theorem AgreeBut.read_eq (h : AgreeBut number? tree tree') (hpath : tree.Misses number? path) :
    tree'.read path = tree.read path := by
  unfold read
  rw [h.locate_eq]
  cases hlocate : tree.locate path with
  | error => rfl
  | ok location =>
    simp only [bind, Except.bind, h.entry_eq]
    split
    · rename_i number hentry
      rw [h.content_of_locate hpath hlocate hentry]
    · rfl

theorem AgreeBut.size_eq (h : AgreeBut number? tree tree') (hpath : tree.Misses number? path) :
    tree'.size path = tree.size path := by
  unfold size
  rw [h.locate_eq]
  cases hlocate : tree.locate path with
  | error => rfl
  | ok location =>
    simp only [bind, Except.bind, h.entry_eq]
    split
    · rename_i number hentry
      rw [h.content_of_locate hpath hlocate hentry]
    · rfl

/-- Other files are the same. -/
theorem AgreeBut.hasFile_iff (h : AgreeBut number? tree tree')
    (hother : ∀ number ∈ number?, tree.entry? location ≠ some (.file number)) {content : ByteArray} :
    tree'.HasFile location content ↔ tree.HasFile location content := by
  unfold HasFile
  rw [h.entry_eq]
  refine exists_congr fun number => and_congr_right fun hentry => ?_
  rw [h.content_eq fun heq => hother number heq hentry]

end AgreeBut

/-! ## Operations on both -/

/-- Both fail for the same reason, or both succeed and their results are related. -/
inductive Outcomes {ε α β : Type} (R : α → β → Prop) : Except ε α → Except ε β → Prop
  | ok {a : α} {b : β} (h : R a b) : Outcomes R (.ok a) (.ok b)
  | error (e : ε) : Outcomes R (.error e) (.error e)

theorem Outcomes.of_map {ε α β : Type} {R : α → β → Prop} {x : Except ε α} {f : α → β}
    (h : ∀ a, x = .ok a → R a (f a)) : Outcomes R x (x.map f) := by
  cases x with
  | ok a => exact .ok (h a rfl)
  | error e => exact .error e

theorem Outcomes.map {ε α β γ δ : Type} {R : α → β → Prop} {S : γ → δ → Prop} {f : α → γ} {g : β → δ}
    {x : Except ε α} {y : Except ε β} (h : Outcomes R x y) (hS : ∀ a b, R a b → S (f a) (g b)) :
    Outcomes S (x.map f) (y.map g) := by
  cases h with
  | ok hR => exact .ok (hS _ _ hR)
  | error e => exact .error e

/-- The trees agree but for the content of the file with the given number, and that file has no more
names in them than in a tree before. -/
structure Twin (number? : Option Nat) (origin tree tree' : FileTree) : Prop where
  agree : AgreeBut number? tree tree'
  workingDirectory : tree.workingDirectory = origin.workingDirectory
  names : ∀ number ∈ number?, ∀ l, tree.entry? l = some (.file number) →
    origin.entry? l = some (.file number)
  there : ∀ number ∈ number?, number < tree.contents.length

section Twin

variable {number? : Option Nat} {origin tree tree' moved : FileTree} {path newPath : String}
  {number : Nat} {content : ByteArray} {contents : List ByteArray}

theorem Twin.spot_eq (h : Twin number? origin tree tree') (path : String) :
    tree.spot path = origin.spot path := by
  rw [spot, spot, start, start, h.workingDirectory]

theorem Twin.misses (h : Twin number? origin tree tree') (hpath : origin.Misses number? path) :
    tree.Misses number? path := by
  intro number hnumber hentry
  rw [h.spot_eq] at hentry
  exact hpath number hnumber (h.names number hnumber _ hentry)

/-- The same change of names in both trees. -/
theorem Twin.relocate (h : Twin number? origin tree (tree.withContents contents))
    (hcontents : moved.contents = tree.contents)
    (hplace : moved.workingDirectory = tree.workingDirectory)
    (hnames : ∀ number ∈ number?, ∀ l, moved.entry? l = some (.file number) →
      tree.entry? l = some (.file number)) :
    Twin number? origin moved (moved.withContents contents) where
  agree := ⟨rfl, by rw [hcontents]; exact h.agree.count, fun number hne => by
    rw [hcontents]
    exact h.agree.content number hne⟩
  workingDirectory := hplace.trans h.workingDirectory
  names := fun number hnumber l hl => h.names number hnumber l (hnames number hnumber l hl)
  there := by
    rw [hcontents]
    exact h.there

theorem Twin.makeDirectory (h : Twin number? origin tree tree') (path : String) :
    Outcomes (Twin number? origin) (tree.makeDirectory path) (tree'.makeDirectory path) := by
  obtain ⟨contents, rfl⟩ : ∃ contents, tree' = tree.withContents contents := ⟨_, h.agree.same⟩
  rw [makeDirectory_withContents]
  refine .of_map fun made hmade => ?_
  obtain ⟨-, -, hput⟩ := makeDirectory_eq_ok hmade
  exact h.relocate (hput ▸ rfl) (hput ▸ rfl) fun _ _ _ => entry_of_makeDirectory hmade

theorem Twin.rename (h : Twin number? origin tree tree') (hpath : origin.Misses number? path)
    (newPath : String) :
    Outcomes (Twin number? origin) (tree.rename path newPath) (tree'.rename path newPath) := by
  obtain ⟨contents, rfl⟩ : ∃ contents, tree' = tree.withContents contents := ⟨_, h.agree.same⟩
  rw [rename_withContents]
  refine .of_map fun renamed hrenamed => ?_
  obtain ⟨_, _, number', hnew, -, -, hentry, hput⟩ := rename_eq_ok hrenamed
  have hne : tree.spot newPath ≠ [] := by simp [spot_of_locateNew hnew]
  refine h.relocate (hput ▸ rfl) (hput ▸ rfl) fun number hnumber l hl => ?_
  rw [hput, entry_moved hentry hne] at hl
  split at hl
  · -- the file that was moved is another one
    obtain rfl := Entry.file.inj (Option.some.inj hl)
    exact (h.misses hpath number' hnumber hentry).elim
  · split at hl
    · cases hl
    · exact hl

theorem entry_of_take {l location : Location} {entry : Entry}
    (h : FileTree.entry? (tree.take location) l = some entry) : tree.entry? l = some entry := by
  by_cases heq : l = location
  · subst heq
    by_cases hnil : l = []
    · rwa [hnil] at h ⊢
    · rw [entry_take_self _ hnil] at h
      cases h
  · rwa [entry_take_of_ne _ heq] at h

theorem Twin.remove (h : Twin number? origin tree tree') (path : String) :
    Outcomes (Twin number? origin) (tree.remove path) (tree'.remove path) := by
  obtain ⟨contents, rfl⟩ : ∃ contents, tree' = tree.withContents contents := ⟨_, h.agree.same⟩
  rw [remove_withContents]
  refine .of_map fun removed hremoved => ?_
  obtain ⟨-, htake⟩ := remove_eq_ok hremoved
  refine h.relocate (htake ▸ rfl) (htake ▸ rfl) fun number _ l hl => ?_
  rw [htake] at hl
  exact entry_of_take hl

/-- A file gets the same content in both trees, or contents in which the trees may differ. -/
theorem Twin.setContent (h : Twin number? origin tree tree') {number : Nat}
    {content content' : ByteArray}
    (hcontent : number ∉ number? → content' = content) :
    Twin number? origin (tree.setContent number content) (tree'.setContent number content') := by
  obtain ⟨contents, rfl⟩ : ∃ contents, tree' = tree.withContents contents := ⟨_, h.agree.same⟩
  have hcount : contents.length = tree.contents.length := h.agree.count
  refine ⟨⟨rfl, ?_, fun other hne => ?_⟩, h.workingDirectory, h.names, ?_⟩
  · simpa [FileTree.setContent, withContents] using hcount
  · have hother : contents[other]? = tree.contents[other]? := h.agree.content other hne
    simp only [FileTree.setContent, withContents, List.getElem?_set, hcount, hother]
    by_cases heq : number = other
    · rw [hcontent (heq ▸ hne)]
    · simp only [if_neg heq]
  · simpa [FileTree.setContent] using h.there

/-- The same is added to a file in both trees. -/
theorem Twin.append (h : Twin number? origin tree tree') (number : Nat) (more : ByteArray) :
    Twin number? origin (tree.append number more) (tree'.append number more) :=
  h.setContent fun hother => congrArg (· ++ more) (h.agree.content_eq hother)

/-- The content in which the trees may differ is changed in one of them. -/
theorem Twin.setContent_left (h : Twin number? origin tree tree') (hnumber : number ∈ number?)
    (content : ByteArray) : Twin number? origin (tree.setContent number content) tree' := by
  obtain ⟨contents, rfl⟩ : ∃ contents, tree' = tree.withContents contents := ⟨_, h.agree.same⟩
  refine ⟨⟨rfl, ?_, fun other hne => ?_⟩, h.workingDirectory, h.names, ?_⟩
  · simpa [FileTree.setContent] using h.agree.count
  · have hother : number ≠ other := by
      rintro rfl
      exact hne hnumber
    simp only [FileTree.setContent, List.getElem?_set_ne hother]
    exact h.agree.content other hne
  · simpa [FileTree.setContent] using h.there

theorem Twin.openFile (h : Twin number? origin tree tree') (path : String) :
    Outcomes (fun a b => b.1 = a.1 ∧ Twin number? origin a.2 b.2)
      (tree.openFile path) (tree'.openFile path) := by
  obtain ⟨contents, rfl⟩ : ∃ contents, tree' = tree.withContents contents := ⟨_, h.agree.same⟩
  have hcount : contents.length = tree.contents.length := h.agree.count
  rw [openFile_withContents _ _ _ hcount]
  refine .of_map fun ⟨number, opened⟩ hopen => ⟨rfl, ?_⟩
  dsimp only
  obtain ⟨hne, ⟨-, rfl⟩ | ⟨-, rfl, hput⟩⟩ := openFile_eq_ok hopen
  · rw [hcount, List.drop_length, List.append_nil]
    exact h
  · -- the new file comes behind those that are there
    have hcontents : opened.contents = tree.contents ++ [ByteArray.empty] := hput ▸ rfl
    have hnew : contents ++ opened.contents.drop contents.length = contents ++ [ByteArray.empty] := by
      rw [hcontents, hcount, List.drop_left]
    rw [hnew]
    refine ⟨⟨rfl, ?_, fun other hother => ?_⟩, ?_, fun n hn l hl => ?_, fun n hn => ?_⟩
    · simp [withContents, hcontents, hcount]
    · have hsame : contents[other]? = tree.contents[other]? := h.agree.content other hother
      simp only [withContents, hcontents, List.getElem?_append, hcount, hsame]
    · rw [hput]
      exact h.workingDirectory
    · rw [hput] at hl
      by_cases hspot : l = tree.spot path
      · rw [hspot, entry_put_self _ hne] at hl
        obtain rfl := Entry.file.inj (Option.some.inj hl)
        exact (Nat.lt_irrefl _ (h.there _ hn)).elim
      · rw [entry_put_of_ne _ hspot] at hl
        exact h.names n hn l hl
    · have := h.there n hn
      simp only [hcontents, List.length_append, List.length_singleton]
      omega

theorem Twin.create (h : Twin number? origin tree tree') (path : String) :
    Outcomes (fun a b => b.1 = a.1 ∧ Twin number? origin a.2 b.2)
      (tree.create path) (tree'.create path) := by
  have hopen := h.openFile path
  unfold FileTree.create
  generalize tree.openFile path = r at hopen ⊢
  generalize tree'.openFile path = r' at hopen ⊢
  cases hopen with
  | error failure => exact .error failure
  | ok hopened =>
    rename_i a b
    obtain ⟨number, opened⟩ := a
    obtain ⟨number', opened'⟩ := b
    obtain ⟨rfl, htwin⟩ := hopened
    exact .ok ⟨rfl, htwin.setContent fun _ => rfl⟩

end Twin

end CausalRules.FileTree
