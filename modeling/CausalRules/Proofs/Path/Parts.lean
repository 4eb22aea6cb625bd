import CausalRules.FileTree
import CausalRules.Host
import CausalRules.Proofs.Path
import Mathlib.Algebra.GroupWithZero.Nat
import Mathlib.Algebra.Order.BigOperators.Group.List
import Mathlib.Algebra.Order.Group.Nat

/-!
# Paths made of parts

A path above another, or beside it, is made of parts of the other.

- `Path.IsPart`: what stands between slashes.
- `names_ofParts`, `isAbsolute_ofParts`, `endsWithSlash_ofParts`: what a path of parts leads to.
- `checkPath_ofParts`: it is no worse than a path with these parts.
-/

namespace CausalRules

/-! ## Pieces -/

namespace Text

variable {separator : Char} {xs ys part : List Char} {parts : List (List Char)}

theorem not_mem_of_mem_splitFrom (hpart : separator ∉ part) (hparts : ∀ p ∈ parts, separator ∉ p) :
    ∀ p ∈ splitFrom separator xs part parts, separator ∉ p := by
  induction xs generalizing part parts with
  | nil =>
    intro p hp
    rw [splitFrom, List.mem_reverse, List.mem_cons] at hp
    rcases hp with rfl | hp
    · rwa [List.mem_reverse]
    · exact hparts p hp
  | cons c xs ih =>
    rw [splitFrom]
    split
    · refine ih List.not_mem_nil (List.forall_mem_cons.mpr ⟨?_, hparts⟩)
      rwa [List.mem_reverse]
    · rename_i hc
      exact ih (not_or.mpr ⟨Ne.symm hc, hpart⟩ ∘ List.mem_cons.mp) hparts

theorem mem_of_mem_splitFrom {c : Char} {piece : List Char}
    (hpiece : piece ∈ splitFrom separator xs part parts) (hc : c ∈ piece) :
    c ∈ xs ∨ c ∈ part ∨ ∃ p ∈ parts, c ∈ p := by
  induction xs generalizing part parts with
  | nil =>
    rw [splitFrom, List.mem_reverse, List.mem_cons] at hpiece
    rcases hpiece with rfl | hpiece
    · exact .inr (.inl (List.mem_reverse.mp hc))
    · exact .inr (.inr ⟨piece, hpiece, hc⟩)
  | cons d xs ih =>
    rw [splitFrom] at hpiece
    split at hpiece
    · rcases ih hpiece with hxs | hnil | ⟨p, hp, hcp⟩
      · exact .inl (List.mem_cons_of_mem _ hxs)
      · cases hnil
      · rcases List.mem_cons.mp hp with rfl | hp
        · exact .inr (.inl (List.mem_reverse.mp hcp))
        · exact .inr (.inr ⟨p, hp, hcp⟩)
    · rcases ih hpiece with hxs | hpart | hparts
      · exact .inl (List.mem_cons_of_mem _ hxs)
      · rcases List.mem_cons.mp hpart with rfl | hpart
        · exact .inl List.mem_cons_self
        · exact .inr (.inl hpart)
      · exact .inr (.inr hparts)

/-- The pieces with a separator after each are as large as the text with one. -/
theorem sum_splitFrom {size : Char → Nat} (hseparator : size separator = 1) :
    ((splitFrom separator xs part parts).map fun p => (p.map size).sum + 1).sum =
      (parts.map fun p => (p.map size).sum + 1).sum + (part.map size).sum + (xs.map size).sum + 1 := by
  induction xs generalizing part parts with
  | nil =>
    simp only [splitFrom, List.map_reverse, List.sum_reverse, List.map_cons, List.sum_cons,
      List.map_nil, List.sum_nil]
    omega
  | cons c xs ih =>
    rw [splitFrom]
    split
    · rename_i hc
      simp only [ih, List.map_reverse, List.sum_reverse, List.map_cons, List.sum_cons, List.map_nil,
        List.sum_nil, hc, hseparator]
      omega
    · simp only [ih, List.map_cons, List.sum_cons]
      omega

theorem splitAll_intercalate (hparts : ∀ p ∈ parts, separator ∉ p) (hne : parts ≠ []) :
    splitAll separator ([separator].intercalate parts) = parts := by
  induction parts with
  | nil => exact (hne rfl).elim
  | cons p parts ih =>
    obtain ⟨hp, hparts⟩ := List.forall_mem_cons.mp hparts
    cases parts with
    | nil => rw [List.intercalate_singleton, splitAll_of_not_mem hp]
    | cons q parts =>
      rw [List.intercalate_cons_cons, List.append_assoc]
      show splitAll separator (p ++ separator :: [separator].intercalate (q :: parts)) = _
      rw [splitAll_append_cons, splitAll_of_not_mem hp, ih hparts (List.cons_ne_nil _ _)]
      rfl

end Text

namespace Path

/-! ## Names -/

/-- A part of a path is not empty and has no slash in it. -/
def IsPart (name : String) : Prop :=
  name ≠ "" ∧ '/' ∉ name.toList

section Parts

variable {path name : String} {names' : List String} {absolute : Bool}

theorem isPart_of_mem_names (h : name ∈ names path) : IsPart name := by
  obtain ⟨piece, hpiece, rfl⟩ := List.mem_map.mp h
  obtain ⟨hpiece, hne⟩ := List.mem_filter.mp hpiece
  refine ⟨?_, ?_⟩
  · rw [Ne, ← String.toList_eq_nil_iff, String.toList_ofList]
    simpa using hne
  · rw [String.toList_ofList]
    exact Text.not_mem_of_mem_splitFrom List.not_mem_nil (List.forall_mem_nil _) piece hpiece

theorem mem_of_mem_names {c : Char} (h : name ∈ names path) (hc : c ∈ name.toList) :
    c ∈ path.toList := by
  obtain ⟨piece, hpiece, rfl⟩ := List.mem_map.mp h
  rw [String.toList_ofList] at hc
  rcases Text.mem_of_mem_splitFrom (List.mem_filter.mp hpiece).1 hc with hc | hc | ⟨_, hnil, -⟩
  · exact hc
  · cases hc
  · cases hnil

theorem parts_sublist (path : String) : (parts path).Sublist (names path) := by
  unfold parts
  split
  · rename_i h
    rw [h]
  · rename_i first rest h
    rw [h]
    split
    · exact List.filter_sublist.trans (List.sublist_cons_self ..)
    · exact List.filter_sublist.cons_cons first

theorem toList_ofParts : (ofParts absolute names').toList =
    (if absolute then ['/'] else []) ++ ['/'].intercalate (names'.map String.toList) := by
  have hjoined : ("/".intercalate names').toList = ['/'].intercalate (names'.map String.toList) := by
    rw [String.toList_intercalate]
    rfl
  rw [ofParts, String.toList_append, hjoined]
  split
  · rfl
  · rfl

theorem names_ofParts (h : ∀ name ∈ names', IsPart name) (hne : names' ≠ []) :
    names (ofParts absolute names') = names' := by
  have hpieces : Text.splitAll '/' (['/'].intercalate (names'.map String.toList)) =
      names'.map String.toList := by
    refine Text.splitAll_intercalate ?_ (by simpa using hne)
    exact List.forall_mem_map.mpr fun name hname => (h name hname).2
  have hfilter : (names'.map String.toList).filter (!·.isEmpty) = names'.map String.toList := by
    rw [List.filter_eq_self]
    refine List.forall_mem_map.mpr fun name hname => ?_
    simpa [String.toList_eq_nil_iff] using (h name hname).1
  have hback : (names'.map String.toList).map String.ofList = names' := by
    rw [List.map_map]
    exact List.map_id'' (fun name => String.ofList_toList) names'
  rw [names, toList_ofParts]
  cases absolute with
  | false =>
    show ((Text.splitAll '/' (['/'].intercalate (names'.map String.toList))).filter _).map _ = _
    rw [hpieces, hfilter, hback]
  | true =>
    show ((Text.splitAll '/' ([] ++ '/' :: ['/'].intercalate (names'.map String.toList))).filter
      _).map _ = _
    rw [Text.splitAll_append_cons, hpieces, List.filter_append, hfilter]
    show ([] ++ names'.map String.toList).map _ = _
    rw [List.nil_append, hback]

theorem head?_toList_intercalate (h : ∀ name ∈ names', IsPart name) :
    (['/'].intercalate (names'.map String.toList)).head? ≠ some '/' := by
  cases names' with
  | nil => simp [List.intercalate]
  | cons name rest =>
    obtain ⟨hne, hslash⟩ := h name List.mem_cons_self
    obtain ⟨c, cs, hcs⟩ := List.exists_cons_of_ne_nil (mt String.toList_eq_nil_iff.mp hne)
    have hhead : (['/'].intercalate ((name :: rest).map String.toList)).head? = some c := by
      cases rest with
      | nil => simp [hcs]
      | cons => simp [List.intercalate_cons_cons, hcs]
    rw [hhead]
    rintro heq
    rw [hcs, Option.some.inj heq] at hslash
    exact hslash List.mem_cons_self

theorem isAbsolute_ofParts (h : ∀ name ∈ names', IsPart name) :
    isAbsolute (ofParts absolute names') = absolute := by
  rw [isAbsolute, toList_ofParts]
  cases absolute with
  | true => rfl
  | false => exact decide_eq_false (head?_toList_intercalate h)

theorem intercalate_ne_nil (h : ∀ name ∈ names', IsPart name) (hne : names' ≠ []) :
    ['/'].intercalate (names'.map String.toList) ≠ [] := by
  intro hnil
  have hpieces : Text.splitAll '/' (['/'].intercalate (names'.map String.toList)) =
      names'.map String.toList :=
    Text.splitAll_intercalate (List.forall_mem_map.mpr fun name hname => (h name hname).2)
      (by simpa using hne)
  rw [hnil] at hpieces
  obtain ⟨name, hname⟩ := List.exists_mem_of_ne_nil _ hne
  have hmem : name.toList ∈ Text.splitAll '/' [] := hpieces ▸ List.mem_map_of_mem hname
  exact (h name hname).1 (String.toList_eq_nil_iff.mp (List.mem_singleton.mp hmem))

theorem getLast?_toList_intercalate (h : ∀ name ∈ names', IsPart name) :
    (['/'].intercalate (names'.map String.toList)).getLast? ≠ some '/' := by
  induction names' with
  | nil => simp [List.intercalate]
  | cons name rest ih =>
    obtain ⟨hname, hrest⟩ := List.forall_mem_cons.mp h
    cases rest with
    | nil =>
      intro hlast
      rw [List.map_singleton, List.intercalate_singleton] at hlast
      exact hname.2 (List.mem_of_getLast? hlast)
    | cons next rest =>
      rw [List.map_cons, List.map_cons, List.intercalate_cons_cons, ← List.map_cons,
        List.getLast?_append_of_ne_nil _ (intercalate_ne_nil hrest (List.cons_ne_nil _ _))]
      exact ih hrest

theorem endsWithSlash_ofParts (h : ∀ name ∈ names', IsPart name) (hne : names' ≠ []) :
    endsWithSlash (ofParts absolute names') = false := by
  rw [endsWithSlash, toList_ofParts, List.getLast?_append_of_ne_nil _ (intercalate_ne_nil h hne),
    decide_eq_false_iff_not]
  exact getLast?_toList_intercalate h

/-! ## Sizes -/

theorem size_eq_sum (text : String) : text.utf8ByteSize = (text.toList.map Char.utf8Size).sum := by
  have hlist : ∀ cs : List Char, (String.ofList cs).utf8ByteSize = (cs.map Char.utf8Size).sum := by
    intro cs
    induction cs with
    | nil => rfl
    | cons c cs ih =>
      rw [String.ofList_cons, String.utf8ByteSize_append, String.utf8ByteSize_singleton, ih]
      rfl
  rw [← hlist, String.ofList_toList]

/-- The names of a path with a slash before each are no longer than the path with a slash. -/
theorem sum_names_le (path : String) :
    ((names path).map (·.utf8ByteSize + 1)).sum ≤
      path.utf8ByteSize + if isAbsolute path then 0 else 1 := by
  have hsum : ∀ pieces : List (List Char),
      ((((pieces.filter (!·.isEmpty)).map String.ofList).map (·.utf8ByteSize + 1)).sum) ≤
        (pieces.map fun p => (p.map Char.utf8Size).sum + 1).sum := by
    intro pieces
    rw [List.map_map]
    have heq : (fun name : String => name.utf8ByteSize + 1) ∘ String.ofList =
        fun p => (p.map Char.utf8Size).sum + 1 := by
      funext p
      simp [size_eq_sum]
    rw [heq]
    exact (List.filter_sublist.map _).sum_le_sum fun _ _ => Nat.zero_le _
  have hpieces : ∀ cs : List Char, ((Text.splitAll '/' cs).map fun p =>
      (p.map Char.utf8Size).sum + 1).sum = (cs.map Char.utf8Size).sum + 1 := by
    intro cs
    rw [Text.splitAll, Text.sum_splitFrom rfl]
    simp
  rw [names, size_eq_sum path]
  cases habsolute : isAbsolute path with
  | false => exact (hsum _).trans (hpieces _).le
  | true =>
    -- the piece before the slash is empty and no name
    obtain ⟨cs, hcs⟩ : ∃ cs, path.toList = '/' :: cs := by
      rw [isAbsolute, decide_eq_true_iff] at habsolute
      exact List.head?_eq_some_iff.mp habsolute
    have hsplit : Text.splitAll '/' path.toList = [] :: Text.splitAll '/' cs := by
      rw [hcs]
      exact @Text.splitAll_append_cons '/' [] cs
    rw [hsplit, hcs]
    refine (hsum (Text.splitAll '/' cs)).trans ?_
    rw [hpieces, List.map_cons, List.sum_cons]
    have : Char.utf8Size '/' = 1 := rfl
    simp only [if_true]
    omega

theorem size_ofParts (hne : names' ≠ []) : (ofParts absolute names').utf8ByteSize + 1 =
    (names'.map (·.utf8ByteSize + 1)).sum + if absolute then 1 else 0 := by
  have hjoined : ("/".intercalate names').utf8ByteSize + 1 =
      (names'.map (·.utf8ByteSize + 1)).sum := by
    induction names' with
    | nil => exact (hne rfl).elim
    | cons name rest ih =>
      cases rest with
      | nil => simp
      | cons next rest =>
        rw [String.intercalate_cons_cons, String.utf8ByteSize_append, String.utf8ByteSize_append,
          List.map_cons, List.sum_cons, ← ih (List.cons_ne_nil _ _)]
        have : "/".utf8ByteSize = 1 := rfl
        omega
  rw [ofParts, String.utf8ByteSize_append]
  cases absolute with
  | true =>
    have : "/".utf8ByteSize = 1 := rfl
    simp only [if_true]
    omega
  | false => simpa using hjoined

theorem checkPath_eq_ok_iff : FileTree.checkPath path = .ok () ↔
    '\x00' ∉ path.toList ∧ path ≠ "" ∧ path.utf8ByteSize ≤ FileTree.maxPathBytes := by
  unfold FileTree.checkPath
  split
  · rename_i h
    exact ⟨nofun, fun hcheck => (hcheck.1 (List.contains_iff_mem.mp h)).elim⟩
  · rename_i hmark
    split
    · rename_i h
      exact ⟨nofun, fun hcheck => (hcheck.2.1 (String.isEmpty_iff.mp h)).elim⟩
    · rename_i hempty
      split
      · rename_i h
        exact ⟨nofun, fun hcheck => (Nat.not_le_of_lt h hcheck.2.2).elim⟩
      · rename_i hsize
        exact ⟨fun _ => ⟨mt List.contains_iff_mem.mpr hmark, mt String.isEmpty_iff.mpr hempty,
          Nat.le_of_not_lt hsize⟩, fun _ => rfl⟩

theorem mem_toList_ofParts {c : Char} (hc : c ∈ (ofParts absolute names').toList) :
    c = '/' ∨ ∃ name ∈ names', c ∈ name.toList := by
  have hjoined : ∀ {pieces : List (List Char)}, c ∈ ['/'].intercalate pieces →
      c = '/' ∨ ∃ p ∈ pieces, c ∈ p := by
    intro pieces hmem
    induction pieces with
    | nil => cases hmem
    | cons p pieces ih =>
      cases pieces with
      | nil =>
        rw [List.intercalate_singleton] at hmem
        exact .inr ⟨p, List.mem_cons_self, hmem⟩
      | cons q pieces =>
        rw [List.intercalate_cons_cons, List.mem_append, List.mem_append] at hmem
        rcases hmem with (hmem | hmem) | hmem
        · exact .inr ⟨p, List.mem_cons_self, hmem⟩
        · exact .inl (List.mem_singleton.mp hmem)
        · exact (ih hmem).imp_right fun ⟨r, hr, hc⟩ => ⟨r, List.mem_cons_of_mem _ hr, hc⟩
  rw [toList_ofParts, List.mem_append] at hc
  rcases hc with hc | hc
  · split at hc
    · exact .inl (List.mem_singleton.mp hc)
    · cases hc
  · rcases hjoined hc with hc | ⟨p, hp, hc⟩
    · exact .inl hc
    · obtain ⟨name, hname, rfl⟩ := List.mem_map.mp hp
      exact .inr ⟨name, hname, hc⟩

/-- A path of parts of another is no worse. -/
theorem checkPath_ofParts (hcheck : FileTree.checkPath path = .ok ())
    (hparts : names'.Sublist (names path)) (hne : names' ≠ []) :
    FileTree.checkPath (ofParts (isAbsolute path) names') = .ok () := by
  rw [checkPath_eq_ok_iff] at hcheck ⊢
  obtain ⟨hmark, -, hsize⟩ := hcheck
  have hpart : ∀ name ∈ names', IsPart name := fun name hname =>
    isPart_of_mem_names (hparts.subset hname)
  refine ⟨fun hmem => ?_, fun hempty => ?_, ?_⟩
  · rcases mem_toList_ofParts hmem with heq | ⟨name, hname, hc⟩
    · cases heq
    · exact hmark (mem_of_mem_names (hparts.subset hname) hc)
  · have hnames : names (ofParts (isAbsolute path) names') = names' := names_ofParts hpart hne
    rw [hempty] at hnames
    exact hne (hnames.symm.trans rfl)
  · have hle : (names'.map (·.utf8ByteSize + 1)).sum ≤ ((names path).map (·.utf8ByteSize + 1)).sum :=
      (hparts.map _).sum_le_sum fun _ _ => Nat.zero_le _
    have hpath := sum_names_le path
    have heq := @size_ofParts names' (isAbsolute path) hne
    cases habsolute : isAbsolute path with
    | true =>
      simp only [habsolute, if_true] at hpath heq
      omega
    | false =>
      simp only [habsolute] at hpath heq
      simp only [Bool.false_eq_true, if_false] at hpath heq
      omega

end Parts

end Path

end CausalRules
