import CausalRules.Proofs.FileTree.Places
import CausalRules.Proofs.Path.Parts
import CausalRules.Proofs.World

/-!
# Making directories twice

Making a directory with those above it a second time changes nothing, and it succeeds exactly if it
did so the first time.

- `makeDirectory_eq_ok_iff`, `makeDirectory_of_isDirectory`: when a directory is made.
- `LeadsThrough`: a path is inside another one, from the names alone. `ancestors_leadThrough` says
  that the paths above a path are such.
- `World.makingFirst`: what making directories comes to in a file tree; `makingFirst_again` for the
  second time, and `makingFirst_of_sameDirectories` where files have come to be meanwhile. Both hold
  where the system refuses the same whatever files there are.
-/

namespace CausalRules

namespace FileTree

/-! ## One directory -/

section MakeDirectory

variable {tree tree' : FileTree} {path name : String} {failure : Failure}

theorem makeDirectory_eq_ok_iff : tree.makeDirectory path = .ok tree' ↔
    ∃ name, tree.Inside path name ∧ name.utf8ByteSize ≤ maxNameBytes ∧
      tree.entry? (tree.spot path) = none ∧ tree' = tree.put (tree.spot path) .directory := by
  unfold makeDirectory
  constructor
  · intro h
    obtain ⟨⟨directory, name?⟩, hnew, h⟩ := bind_eq_ok.mp h
    cases name? with
    | none => cases h
    | some name =>
      obtain ⟨hinside, rfl⟩ := locateNew_eq_ok_iff.mp hnew
      simp only [hinside.child] at h
      by_cases hlength : maxNameBytes < name.utf8ByteSize
      · simp only [if_pos hlength] at h
        cases h
      · simp only [if_neg hlength] at h
        cases hentry : tree.entry? (tree.spot path) with
        | some entry =>
          rw [hentry] at h
          cases h
        | none =>
          rw [hentry] at h
          exact ⟨name, hinside, Nat.le_of_not_lt hlength, rfl, (Except.ok.inj h).symm⟩
  · rintro ⟨name, hinside, hlength, hentry, rfl⟩
    rw [locateNew_eq_ok_iff.mpr ⟨hinside, rfl⟩]
    simp only [bind, Except.bind, hinside.child, if_neg (Nat.not_lt.mpr hlength), hentry]
    rfl

/-- A directory that was made is there. -/
theorem isDirectory_of_makeDirectory (h : tree.makeDirectory path = .ok tree') :
    tree'.isDirectory path = true := by
  have hkeeps := keeps_makeDirectory h
  obtain ⟨name, hinside, hlength, -, rfl⟩ := makeDirectory_eq_ok_iff.mp h
  have hpasses : ∀ {names location}, tree.Passes location names →
      Passes (tree.put (tree.spot path) .directory) location names := by
    intro names
    induction names with
    | nil => exact hkeeps.directory _
    | cons name rest ih => exact fun h => ⟨hkeeps.directory _ h.1, h.2.1, ih h.2.2⟩
  have hself : FileTree.isDirectoryAt (tree.put (tree.spot path) .directory) (tree.spot path) =
      true := by
    rw [isDirectoryAt, entry_put_self]
    · rfl
    · simp [hinside.spot]
  rw [isDirectory_iff, hinside.names, passes_append]
  refine ⟨hinside.check, hpasses hinside.passes, hkeeps.directory _ ?_, hlength, ?_⟩
  · exact (walk_iff_passes.mpr ⟨hinside.passes, rfl⟩).2
  · show FileTree.isDirectoryAt _ (FileTree.child (tree.above path) name) = true
    rwa [hinside.child]

/-- A path that ends without a name of its own gives no location to anything new. -/
theorem makeDirectory_of_nameless (hcheck : checkPath path = .ok ())
    (hpasses : tree.Passes (tree.start path) (Path.names path).dropLast)
    (hlast : ∀ name, (Path.names path).getLast? = some name → name = "." ∨ name = "..") :
    tree.makeDirectory path = .error .alreadyExists := by
  obtain ⟨hwalk, hdirectory⟩ := walk_iff_passes.mpr ⟨hpasses, rfl⟩
  have hnew : tree.locateNew path = .ok (tree.above path, none) := by
    refine bind_eq_ok.mpr ⟨(), hcheck, bind_eq_ok.mpr ⟨_, hwalk, ?_⟩⟩
    cases hname : (Path.names path).getLast? with
    | none =>
      simp only [hdirectory]
      rfl
    | some name =>
      simp only [hdirectory, if_pos (hlast name hname)]
      rfl
  rw [makeDirectory, hnew]
  rfl

/-- A directory that is there is not made. -/
theorem makeDirectory_of_isDirectory (h : tree.isDirectory path = true) :
    tree.makeDirectory path = .error .alreadyExists := by
  obtain ⟨hcheck, hpasses⟩ := isDirectory_iff.mp h
  rcases List.eq_nil_or_concat (Path.names path) with hnil | ⟨above, name, hnames⟩
  · exact makeDirectory_of_nameless hcheck (by rwa [hnil] at hpasses ⊢) (by simp [hnil])
  · rw [List.concat_eq_append] at hnames
    have hdrop : (Path.names path).dropLast = above := by rw [hnames, List.dropLast_concat]
    rw [hnames, passes_append, ← hdrop] at hpasses
    obtain ⟨habove, -, hlength, hself⟩ := hpasses
    by_cases hdots : name = "." ∨ name = ".."
    · refine makeDirectory_of_nameless hcheck habove fun last hlast => ?_
      rw [hnames, List.getLast?_concat] at hlast
      rwa [← Option.some.inj hlast]
    · obtain ⟨hdot, hup⟩ := not_or.mp hdots
      have hinside : tree.Inside path name := ⟨hcheck, hdrop.symm ▸ hnames, hdot, hup, habove⟩
      have hentry : tree.entry? (tree.spot path) = some .directory := by
        rw [← hinside.child]
        exact of_decide_eq_true hself
      rw [makeDirectory, locateNew_eq_ok_iff.mpr ⟨hinside, rfl⟩]
      simp only [bind, Except.bind, hinside.child, if_neg (Nat.not_lt.mpr hlength), hentry]
      rfl

end MakeDirectory

/-! ## Paths inside others -/

/-- Whatever stands on the way of the first path, the second path leads to a directory on it, if the
first is a path at all. -/
def LeadsThrough (path parent : String) : Prop :=
  checkPath path = .ok () → ∀ tree : FileTree,
    tree.Passes (tree.start path) (Path.names path).dropLast → tree.isDirectory parent = true

section Ancestors

variable {tree : FileTree} {location : Location} {names : List String} {path : String}

theorem Passes.initial {names' : List String} (h : tree.Passes location names)
    (hinitial : names' <+: names) : tree.Passes location names' := by
  obtain ⟨rest, rfl⟩ := hinitial
  exact (passes_append.mp h).1

/-- Names that stay in place may be left out. -/
theorem Passes.filter (h : tree.Passes location names) :
    tree.Passes location (names.filter (· ≠ ".")) := by
  induction names generalizing location with
  | nil => exact h
  | cons name rest ih =>
    obtain ⟨hdirectory, hlength, hrest⟩ := h
    by_cases hdot : name = "."
    · rw [List.filter_cons_of_neg (by simp [hdot])]
      rw [child, if_pos hdot] at hrest
      exact ih hrest
    · rw [List.filter_cons_of_pos (by simpa using hdot)]
      exact ⟨hdirectory, hlength, ih hrest⟩

theorem dropLast_filter_prefix {α : Type} (p : α → Bool) (as : List α) :
    (as.filter p).dropLast <+: as.dropLast.filter p := by
  rcases List.eq_nil_or_concat as with rfl | ⟨rest, a, rfl⟩
  · exact List.prefix_rfl
  · rw [List.concat_eq_append, List.filter_append, List.dropLast_concat]
    cases ha : p a with
    | true => simp [ha]
    | false => simpa [ha] using List.dropLast_prefix _

/-- What leads to the directory of a path leads to that of its parts. -/
theorem Passes.parts (h : tree.Passes location (Path.names path).dropLast) :
    tree.Passes location (Path.parts path).dropLast := by
  unfold Path.parts
  cases hnames : Path.names path with
  | nil => simpa [hnames] using h
  | cons first rest =>
    have hfilter := dropLast_filter_prefix (fun name => decide (name ≠ ".")) rest
    rcases List.eq_nil_or_concat rest with rfl | ⟨above, name, hrest⟩
    · rw [hnames] at h
      dsimp only
      split
      · exact h
      · exact h
    · rw [List.concat_eq_append] at hrest
      rw [hrest, List.dropLast_concat] at hfilter
      rw [hnames, hrest, ← List.cons_append, List.dropLast_concat] at h
      rw [hrest]
      dsimp only
      obtain ⟨hdirectory, hlength, habove⟩ := h
      split
      · rename_i hdot
        rw [child, if_pos hdot.1] at habove
        exact habove.filter.initial hfilter
      · have hpasses : tree.Passes location (first :: above.filter (· ≠ ".")) :=
          ⟨hdirectory, hlength, habove.filter⟩
        refine hpasses.initial ?_
        cases hkept : (above ++ [name]).filter (fun name => decide (name ≠ ".")) with
        | nil => exact List.nil_prefix
        | cons next others =>
          rw [hkept] at hfilter
          rw [List.dropLast_cons_cons]
          exact List.cons_prefix_cons.mpr ⟨rfl, hfilter⟩

/-- A part of the names of a path leads to a directory if directories stand on its way. -/
theorem isDirectory_ofParts {names' : List String} (hcheck : checkPath path = .ok ())
    (hparts : names'.Sublist (Path.names path)) (hne : names' ≠ [])
    (hpasses : tree.Passes (tree.start path) names') :
    tree.isDirectory (Path.ofParts (Path.isAbsolute path) names') = true := by
  have hpart : ∀ name ∈ names', Path.IsPart name := fun name hname =>
    Path.isPart_of_mem_names (hparts.subset hname)
  rw [isDirectory_iff, Path.names_ofParts hpart hne, start, Path.isAbsolute_ofParts hpart]
  exact ⟨Path.checkPath_ofParts hcheck hparts hne, hpasses⟩

theorem take_sublist (path : String) (count : Nat) :
    ((Path.parts path).take count).Sublist (Path.names path) :=
  (List.take_sublist ..).trans (Path.parts_sublist path)

/-- Each of the paths above a path leads through the next. -/
theorem parents_leadThrough {count : Nat} (hcount : count ≤ (Path.parts path).length) :
    (Path.parents path count).IsChain LeadsThrough := by
  induction count with
  | zero => exact .nil
  | succ count ih =>
    cases count with
    | zero => exact .singleton _
    | succ count =>
      refine .cons_cons ?_ (ih (Nat.le_of_succ_le hcount))
      intro hcheck tree hpasses
      have hne : ∀ n, n < (Path.parts path).length → (Path.parts path).take (n + 1) ≠ [] := by
        intro n hn hnil
        have := congrArg List.length hnil
        rw [List.length_take, List.length_nil] at this
        omega
      have hpart : ∀ name ∈ (Path.parts path).take (count + 2), Path.IsPart name :=
        fun name hname => Path.isPart_of_mem_names ((take_sublist path _).subset hname)
      have hnames : Path.names (Path.ofParts (Path.isAbsolute path)
          ((Path.parts path).take (count + 2))) = (Path.parts path).take (count + 2) :=
        Path.names_ofParts hpart (hne _ hcount)
      have habsolute : Path.isAbsolute (Path.ofParts (Path.isAbsolute path)
          ((Path.parts path).take (count + 2))) = Path.isAbsolute path :=
        Path.isAbsolute_ofParts hpart
      have hdrop : ((Path.parts path).take (count + 2)).dropLast =
          (Path.parts path).take (count + 1) := by
        rw [List.dropLast_eq_take, List.length_take, List.take_take]
        exact congrArg (fun n => (Path.parts path).take n) (by omega)
      rw [hnames, hdrop] at hpasses
      have hsublist : ((Path.parts path).take (count + 1)).Sublist
          (Path.names (Path.ofParts (Path.isAbsolute path) ((Path.parts path).take (count + 2)))) := by
        rw [hnames]
        exact (List.take_prefix_take_left (by omega)).sublist
      have hparent := isDirectory_ofParts hcheck hsublist (hne count (by omega)) hpasses
      rwa [habsolute] at hparent

/-- A path leads through the one above it, which leads through the next, and so on. -/
theorem ancestors_leadThrough (path : String) : (Path.ancestors path).IsChain LeadsThrough := by
  unfold Path.ancestors
  split
  · exact .nil
  · rename_i count hcount
    have hparents : (Path.parents path count).IsChain LeadsThrough :=
      parents_leadThrough (by omega)
    cases count with
    | zero => exact .singleton _
    | succ count =>
      refine .cons_cons (fun hcheck tree hpasses => ?_) hparents
      have htake : (Path.parts path).take (count + 1) = (Path.parts path).dropLast := by
        rw [List.dropLast_eq_take, hcount]
        rfl
      refine isDirectory_ofParts hcheck (take_sublist path _) ?_ (htake ▸ hpasses.parts)
      intro hnil
      have := congrArg List.length hnil
      rw [List.length_take, List.length_nil] at this
      omega

/-- Without a directory above it there is none. -/
theorem isDirectory_eq_false_of_leads {parent : String} (hleads : LeadsThrough path parent)
    (h : tree.isDirectory parent = false) : tree.isDirectory path = false := by
  rw [← Bool.not_eq_true] at h ⊢
  intro hpath
  obtain ⟨hcheck, hpasses⟩ := isDirectory_iff.mp hpath
  exact h (hleads hcheck tree (hpasses.initial ( List.dropLast_prefix _)))

end Ancestors

end FileTree

/-! ## All that are missing -/

namespace World

open FileTree (LeadsThrough SameDirectories)

/-- What the system answers to making a directory. -/
def makeDirectory (w : World) (tree : FileTree) (path : String) : Except Failure FileTree :=
  w.answer tree (.makeDirectory path) (tree.makeDirectory path)

/-- Whether a directory is found. -/
def isDirectory (w : World) (tree : FileTree) (path : String) : Bool :=
  w.answer tree (.isDirectory path) (.ok (tree.isDirectory path)) matches .ok true

/-- A failure to make a directory, unless one is found. -/
def unlessDirectory (w : World) (tree : FileTree) (path : String) (failure : Failure) :
    Except Failure Unit :=
  if w.isDirectory tree path then .ok () else .error failure

/-- What comes of making the first of the directories, and those after it if need be. -/
def makingFirst (w : World) (tree : FileTree) : List String → Except Failure Unit × FileTree
  | [] => (.ok (), tree)
  | path :: above =>
    match w.makeDirectory tree path with
    | .ok made => (.ok (), made)
    | .error .notFound =>
      match w.makingFirst tree above with
      | (.error failure, made) => (.error failure, made)
      | (.ok (), made) =>
        match w.makeDirectory made path with
        | .ok made' => (.ok (), made')
        | .error failure => (w.unlessDirectory made path failure, made)
    | .error failure => (w.unlessDirectory tree path failure, tree)

section Making

variable {w : World} {tree made : FileTree} {path : String} {above paths : List String}
  {failure : Failure} {r : Except Failure Unit}

theorem makingFirst_of_error (hmake : w.makeDirectory tree path = .error failure)
    (hother : failure ≠ .notFound) :
    w.makingFirst tree (path :: above) = (w.unlessDirectory tree path failure, tree) := by
  rw [makingFirst, hmake]
  cases failure with
  | notFound => exact (hother rfl).elim
  | _ => rfl

theorem makingFirst_of_notFound (hmake : w.makeDirectory tree path = .error .notFound)
    {failure' : Failure} (hagain : ∀ made, w.makingFirst tree above = (.ok (), made) →
      w.makeDirectory made path = .error failure') :
    w.makingFirst tree (path :: above) = match w.makingFirst tree above with
      | (.error failure, made) => (.error failure, made)
      | (.ok (), made) => (w.unlessDirectory made path failure', made) := by
  rw [makingFirst, hmake]
  dsimp only
  cases habove : w.makingFirst tree above with
  | mk r made =>
    cases r with
    | error => rfl
    | ok =>
      dsimp only
      rw [hagain made habove]

theorem isDirectory_eq (h : w.Steady) : w.isDirectory tree path = tree.isDirectory path := by
  rw [isDirectory, answer_of_grants (h.finds tree path)]
  cases tree.isDirectory path with
  | true | false => rfl

theorem unlessDirectory_cases (h : w.Steady) (tree : FileTree) (path : String) (failure : Failure) :
    w.unlessDirectory tree path failure = .ok () ∧ tree.isDirectory path = true ∨
      w.unlessDirectory tree path failure = .error failure ∧ tree.isDirectory path = false := by
  rw [unlessDirectory, isDirectory_eq h]
  cases tree.isDirectory path with
  | true => exact .inl ⟨rfl, rfl⟩
  | false => exact .inr ⟨rfl, rfl⟩

/-- Either the first directory is there afterwards, or it cannot be made: at once, because one above it
cannot be made, or even so. -/
theorem makingFirst_cases (hsteady : w.Steady) (h : w.makingFirst tree (path :: above) = (r, made)) :
    (r = .ok () ∧ made.isDirectory path = true) ∨
    (∃ failure, w.makeDirectory tree path = .error failure ∧ failure ≠ .notFound ∧ made = tree ∧
      r = .error failure ∧ made.isDirectory path = false) ∨
    (∃ failure, w.makeDirectory tree path = .error .notFound ∧
      w.makingFirst tree above = (.error failure, made) ∧ r = .error failure) ∨
    (∃ failure, w.makeDirectory tree path = .error .notFound ∧
      w.makingFirst tree above = (.ok (), made) ∧ w.makeDirectory made path = .error failure ∧
      r = .error failure ∧ made.isDirectory path = false) := by
  cases hmake : w.makeDirectory tree path with
  | ok made' =>
    rw [makingFirst, hmake] at h
    obtain ⟨rfl, rfl⟩ := Prod.mk.inj h
    exact .inl ⟨rfl, FileTree.isDirectory_of_makeDirectory (answer_eq_ok_iff.mp hmake).2⟩
  | error failure =>
    by_cases hmissing : failure = .notFound
    · subst hmissing
      rw [makingFirst, hmake] at h
      dsimp only at h
      cases habove : w.makingFirst tree above with
      | mk r' made' =>
        rw [habove] at h
        cases r' with
        | error failure =>
          obtain ⟨rfl, rfl⟩ := Prod.mk.inj h
          exact .inr (.inr (.inl ⟨failure, rfl, rfl, rfl⟩))
        | ok =>
          dsimp only at h
          cases hagain : w.makeDirectory made' path with
          | ok made'' =>
            rw [hagain] at h
            obtain ⟨rfl, rfl⟩ := Prod.mk.inj h
            exact .inl ⟨rfl, FileTree.isDirectory_of_makeDirectory (answer_eq_ok_iff.mp hagain).2⟩
          | error failure =>
            rw [hagain] at h
            obtain ⟨rfl, rfl⟩ := Prod.mk.inj h
            rcases unlessDirectory_cases hsteady made' path failure with hok | hfails
            · exact .inl hok
            · exact .inr (.inr (.inr ⟨failure, rfl, rfl, hagain, hfails⟩))
    · obtain ⟨rfl, rfl⟩ := Prod.mk.inj ((makingFirst_of_error hmake hmissing).symm.trans h)
      rcases unlessDirectory_cases hsteady tree path failure with hok | ⟨hfails, hnone⟩
      · exact .inl hok
      · exact .inr (.inl ⟨failure, rfl, hmissing, rfl, hfails, hnone⟩)

/-- Making directories succeeds if the first is there afterwards. -/
theorem makingFirst_ok_iff (hsteady : w.Steady) (hleads : (path :: above).IsChain LeadsThrough)
    (h : w.makingFirst tree (path :: above) = (r, made)) :
    r = .ok () ↔ made.isDirectory path = true := by
  induction above generalizing path r with
  | nil =>
    rcases makingFirst_cases hsteady h with ⟨rfl, hthere⟩ | ⟨_, -, -, -, rfl, hnone⟩ |
      ⟨_, -, hnil, -⟩ | ⟨_, -, -, -, rfl, hnone⟩
    · exact ⟨fun _ => hthere, fun _ => rfl⟩
    · simp [hnone]
    · cases hnil
    · simp [hnone]
  | cons parent above ih =>
    rcases makingFirst_cases hsteady h with ⟨rfl, hthere⟩ | ⟨_, -, -, -, rfl, hnone⟩ |
      ⟨_, -, habove, rfl⟩ | ⟨_, -, -, -, rfl, hnone⟩
    · exact ⟨fun _ => hthere, fun _ => rfl⟩
    · simp [hnone]
    · obtain ⟨hparent, hrest⟩ := List.isChain_cons_cons.mp hleads
      have hnone : made.isDirectory parent = false := by
        rw [← Bool.not_eq_true, ← ih hrest habove]
        exact nofun
      simp [FileTree.isDirectory_eq_false_of_leads hparent hnone]
    · simp [hnone]

/-- A directory is refused whatever files there are, or it has no path at all; or else what comes of
making it depends on the files alone. -/
theorem makeDirectory_cases (hsteady : w.Steady) (path : String) :
    (∃ failure, ∀ tree, w.makeDirectory tree path = .error failure) ∨
      FileTree.checkPath path = .ok () ∧
        ∀ tree, w.makeDirectory tree path = tree.makeDirectory path := by
  cases hcheck : FileTree.checkPath path with
  | error failure =>
    rcases w.grants_or_refused (.empty []) (.makeDirectory path) with hgrants | ⟨refusal, hrefuses⟩
    · refine .inl ⟨failure, fun tree => ?_⟩
      rw [makeDirectory, answer_of_grants (hsteady.grants_iff.mpr hgrants), FileTree.makeDirectory,
        FileTree.locateNew, hcheck]
      rfl
    · exact .inl ⟨refusal.failure, fun tree =>
        answer_of_refused ((hsteady.same _ tree _).trans hrefuses)⟩
  | ok =>
    rcases w.grants_or_refused (.empty []) (.makeDirectory path) with hgrants | ⟨refusal, hrefuses⟩
    · exact .inr ⟨rfl, fun tree => answer_of_grants (hsteady.grants_iff.mpr hgrants)⟩
    · exact .inl ⟨refusal.failure, fun tree =>
        answer_of_refused ((hsteady.same _ tree _).trans hrefuses)⟩

/-- **Making directories again** changes nothing and succeeds if it did so before. -/
theorem makingFirst_again (hsteady : w.Steady) (hleads : paths.IsChain LeadsThrough)
    (h : w.makingFirst tree paths = (r, made)) :
    ∃ r', w.makingFirst made paths = (r', made) ∧ (r' = .ok () ↔ r = .ok ()) := by
  induction paths generalizing r with
  | nil =>
    obtain ⟨rfl, rfl⟩ := Prod.mk.inj h
    exact ⟨_, rfl, Iff.rfl⟩
  | cons path above ih =>
    have hrest : above.IsChain LeadsThrough := hleads.of_cons
    -- where the directory still cannot be made, that fails again
    have hfails : ∀ failure r', w.makeDirectory made path = .error failure →
        w.makingFirst made above = (r', made) → made.isDirectory path = false →
          ∃ failure', w.makingFirst made (path :: above) = (.error failure', made) := by
      intro failure r' hmake habove hnone
      have hunless : ∀ failure, w.unlessDirectory made path failure = .error failure :=
        fun failure => if_neg (by simp [isDirectory_eq hsteady, hnone])
      by_cases hmissing : failure = .notFound
      · subst hmissing
        have hagain : ∀ made', w.makingFirst made above = (.ok (), made') →
            w.makeDirectory made' path = .error .notFound := by
          intro made' hmade
          rw [habove] at hmade
          exact (Prod.mk.inj hmade).2 ▸ hmake
        rw [makingFirst_of_notFound hmake hagain, habove]
        cases r' with
        | error failure' => exact ⟨failure', rfl⟩
        | ok =>
          dsimp only
          rw [hunless]
          exact ⟨_, rfl⟩
      · rw [makingFirst_of_error hmake hmissing, hunless]
        exact ⟨_, rfl⟩
    rcases makeDirectory_cases hsteady path with ⟨failure, hconstant⟩ | ⟨hcheck, hmake⟩
    · by_cases hmissing : failure = .notFound
      · subst hmissing
        rw [makingFirst_of_notFound (hconstant _) fun made _ => hconstant made] at h ⊢
        cases habove : w.makingFirst tree above with
        | mk ra made' =>
          rw [habove] at h
          cases ra with
          | error failure' =>
            obtain ⟨rfl, rfl⟩ := Prod.mk.inj h
            obtain ⟨r', habove', hr'⟩ := ih hrest habove
            rw [habove']
            cases r' with
            | ok => cases hr'.mp rfl
            | error => exact ⟨_, rfl, by simp⟩
          | ok =>
            obtain ⟨rfl, rfl⟩ := Prod.mk.inj h
            obtain ⟨r', habove', hr'⟩ := ih hrest habove
            rw [habove', hr'.mpr rfl]
            exact ⟨_, rfl, Iff.rfl⟩
      · rw [makingFirst_of_error (hconstant _) hmissing] at h
        obtain ⟨rfl, rfl⟩ := Prod.mk.inj h
        exact ⟨_, makingFirst_of_error (hconstant _) hmissing, Iff.rfl⟩
    rcases makingFirst_cases hsteady h with ⟨rfl, hthere⟩ | ⟨failure, -, -, rfl, rfl, -⟩ |
      ⟨failure, -, habove, rfl⟩ | ⟨failure, -, habove, hagain, rfl, hnone⟩
    · have hmade : w.makeDirectory made path = .error .alreadyExists := by
        rw [hmake]
        exact FileTree.makeDirectory_of_isDirectory hthere
      rw [makingFirst_of_error hmade nofun, unlessDirectory, isDirectory_eq hsteady, if_pos hthere]
      exact ⟨_, rfl, Iff.rfl⟩
    · exact ⟨_, h, Iff.rfl⟩
    · cases above with
      | nil => cases habove
      | cons parent above =>
        obtain ⟨hparent, -⟩ := List.isChain_cons_cons.mp hleads
        obtain ⟨r', habove', -⟩ := ih hrest habove
        have hnone : made.isDirectory parent = false := by
          rw [← Bool.not_eq_true, ← makingFirst_ok_iff hsteady hrest habove]
          exact nofun
        cases hmade : w.makeDirectory made path with
        | ok made' =>
          rw [hmake] at hmade
          obtain ⟨name, hinside, -⟩ := FileTree.makeDirectory_eq_ok_iff.mp hmade
          rw [hparent hcheck made hinside.passes] at hnone
          cases hnone
        | error failure' =>
          obtain ⟨_, hmaking⟩ := hfails failure' r' hmade habove'
            (FileTree.isDirectory_eq_false_of_leads hparent hnone)
          exact ⟨_, hmaking, by simp⟩
    · obtain ⟨r', habove', -⟩ := ih hrest habove
      obtain ⟨_, hmaking⟩ := hfails failure r' hagain habove' hnone
      exact ⟨_, hmaking, by simp⟩

/-- Directories that were made are not made again where directories stand as they stood then. -/
theorem makingFirst_of_sameDirectories (hsteady : w.Steady) {tree' : FileTree}
    (h : w.makingFirst tree paths = (.ok (), made)) (hsame : SameDirectories made tree') :
    w.makingFirst tree' paths = (.ok (), tree') := by
  induction paths generalizing made with
  | nil => rfl
  | cons path above ih =>
    have hthere : made.isDirectory path = true := by
      rcases makingFirst_cases hsteady h with ⟨-, hthere⟩ | ⟨_, -, -, -, hfails, -⟩ |
        ⟨_, -, -, hfails⟩ | ⟨_, -, -, -, hfails, -⟩
      · exact hthere
      · cases hfails
      · cases hfails
      · cases hfails
    have hunless : ∀ failure, w.unlessDirectory tree' path failure = .ok () := fun failure =>
      if_pos (by rw [isDirectory_eq hsteady, hsame.isDirectory_eq, hthere])
    rcases makeDirectory_cases hsteady path with ⟨failure, hconstant⟩ | ⟨-, hmake⟩
    · by_cases hmissing : failure = .notFound
      · subst hmissing
        rw [makingFirst_of_notFound (hconstant _) fun made _ => hconstant made] at h ⊢
        cases habove : w.makingFirst tree above with
        | mk ra made' =>
          rw [habove] at h
          cases ra with
          | error => cases (Prod.mk.inj h).1
          | ok =>
            obtain ⟨-, rfl⟩ := Prod.mk.inj h
            rw [ih habove hsame]
            exact Prod.ext (hunless _) rfl
      · rw [makingFirst_of_error (hconstant _) hmissing, hunless]
    · have hmade : w.makeDirectory tree' path = .error .alreadyExists := by
        rw [hmake]
        exact FileTree.makeDirectory_of_isDirectory (hsame.isDirectory_eq path ▸ hthere)
      rw [makingFirst_of_error hmade nofun, hunless]

/-- Where nothing is refused, a directory that is there is not made. -/
theorem makingFirst_of_isDirectory (h : w.Obliging) (hthere : tree.isDirectory path = true) :
    w.makingFirst tree (path :: above) = (.ok (), tree) := by
  have hmake : w.makeDirectory tree path = .error .alreadyExists := by
    rw [makeDirectory, answer_of_grants (h _ _), FileTree.makeDirectory_of_isDirectory hthere]
  rw [makingFirst_of_error hmake nofun, unlessDirectory, isDirectory_eq h.steady, if_pos hthere]

end Making

end World

end CausalRules
