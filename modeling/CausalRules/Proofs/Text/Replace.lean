import CausalRules.Text.Replace
import Mathlib.Data.List.Basic

/-!
# The first place of a mark

- `FirstAt`: what stands before and after the first mark of a text. `splitAtMark?` finds it.
- `Apart`: two marks that never overlap, wherever they stand.
- `ReplacesBoth`: two marks replaced at once, each where it first stands in the text that is given.
-/

namespace CausalRules.Text

/-- Of two ways to cut a text, the one that cuts further right. -/
theorem exists_of_append_eq {a b x y : List Char} (h : a ++ b = x ++ y)
    (hle : a.length ≤ x.length) : ∃ w, x = a ++ w ∧ b = w ++ y := by
  rcases List.append_eq_append_iff.mp h with hright | ⟨w, rfl, rfl⟩
  · exact hright
  · have hnil : w = [] := List.length_eq_zero_iff.mp (by rw [List.length_append] at hle; omega)
    exact ⟨[], by simp [hnil], by simp [hnil]⟩

/-! ## One mark -/

/-- The mark stands between two parts of the text, and nowhere further left. -/
structure FirstAt (mark text before after : List Char) : Prop where
  stands : text = before ++ mark ++ after
  first : ∀ left right, text = left ++ mark ++ right → before.length ≤ left.length

section FirstAt

variable {mark text before after : List Char}

theorem FirstAt.unique {before' after' : List Char} (h : FirstAt mark text before after)
    (h' : FirstAt mark text before' after') : before = before' ∧ after = after' := by
  have hlength : before.length = before'.length :=
    Nat.le_antisymm (h.first _ _ h'.stands) (h'.first _ _ h.stands)
  have hparts : before ++ (mark ++ after) = before' ++ (mark ++ after') := by
    rw [← List.append_assoc, ← List.append_assoc, ← h.stands, ← h'.stands]
  obtain ⟨hbefore, hrest⟩ := List.append_inj hparts hlength
  exact ⟨hbefore, List.append_cancel_left hrest⟩

/-- Passing over a character keeps the first mark if the mark does not begin at it. -/
theorem FirstAt.cons {c : Char} (h : FirstAt mark text before after) (hc : ¬ mark <+: c :: text) :
    FirstAt mark (c :: text) (c :: before) after := by
  refine ⟨congrArg (c :: ·) h.stands, fun left right hleft => ?_⟩
  cases left with
  | nil => exact absurd ⟨right, hleft.symm⟩ hc
  | cons d left => exact Nat.succ_le_succ (h.first left right (List.cons.inj hleft).2)

/-- Where the search ends, the mark stands for the first time. -/
theorem firstAt_of_findMark {passed rest : List Char}
    (h : findMark mark passed rest = some (before, after)) :
    ∃ skipped, before = passed.reverse ++ skipped ∧ FirstAt mark rest skipped after := by
  fun_induction findMark mark passed rest with
  | case1 passed hmark =>
    obtain ⟨rfl, rfl⟩ := Prod.mk.inj (Option.some.inj h)
    rw [List.isEmpty_iff] at hmark
    exact ⟨[], (List.append_nil _).symm, by rw [hmark]; rfl, fun _ _ _ => Nat.zero_le _⟩
  | case2 => cases h
  | case3 passed c rest hmark =>
    obtain ⟨rfl, rfl⟩ := Prod.mk.inj (Option.some.inj h)
    refine ⟨[], (List.append_nil _).symm, ?_, fun _ _ _ => Nat.zero_le _⟩
    exact (List.prefix_iff_eq_append.mp (List.isPrefixOf_iff_prefix.mp hmark)).symm
  | case4 passed c rest hmark ih =>
    obtain ⟨skipped, hbefore, hfirst⟩ := ih h
    refine ⟨c :: skipped, ?_, hfirst.cons (mt List.isPrefixOf_iff_prefix.mpr hmark)⟩
    rw [hbefore, List.reverse_cons, List.append_assoc]
    rfl

/-- A mark that stands anywhere is found. -/
theorem isSome_findMark {passed left right : List Char} :
    (findMark mark passed (left ++ mark ++ right)).isSome = true := by
  induction left generalizing passed with
  | nil =>
    cases htext : mark ++ right with
    | nil =>
      rw [List.nil_append, htext, findMark, (List.append_eq_nil_iff.mp htext).1]
      rfl
    | cons c rest =>
      have hmark : mark.isPrefixOf (c :: rest) = true :=
        List.isPrefixOf_iff_prefix.mpr ⟨right, htext⟩
      rw [List.nil_append, htext, findMark, if_pos hmark]
      rfl
  | cons c left ih =>
    simp only [List.cons_append, findMark]
    split
    · rfl
    · exact ih

/-- A mark is found in lines that have it among them. -/
theorem holdsMark_intercalate {mark separator : String} {lines : List String} (h : mark ∈ lines) :
    holdsMark mark (separator.intercalate lines) = true := by
  have hlist : ∀ {texts : List (List Char)}, mark.toList ∈ texts → ∃ left right,
      separator.toList.intercalate texts = left ++ mark.toList ++ right := by
    intro texts hmem
    induction texts with
    | nil => cases hmem
    | cons text texts ih =>
      cases texts with
      | nil =>
        obtain rfl := List.mem_singleton.mp hmem
        exact ⟨[], [], by simp⟩
      | cons next texts =>
        rw [List.intercalate_cons_cons]
        rcases List.mem_cons.mp hmem with heq | hmem
        · exact ⟨[], separator.toList ++ separator.toList.intercalate (next :: texts), by simp [heq]⟩
        · obtain ⟨left, right, heq⟩ := ih hmem
          exact ⟨text ++ separator.toList ++ left, right, by simp [heq]⟩
  obtain ⟨left, right, htext⟩ := hlist (List.mem_map_of_mem h)
  rw [holdsMark, String.toList_intercalate, htext]
  exact isSome_findMark

theorem splitAtMark?_eq_some_iff :
    splitAtMark? mark text = some (before, after) ↔ FirstAt mark text before after := by
  have hfound : ∀ {before after}, splitAtMark? mark text = some (before, after) →
      FirstAt mark text before after := by
    intro before after h
    obtain ⟨skipped, rfl, hfirst⟩ := firstAt_of_findMark h
    exact hfirst
  refine ⟨hfound, fun h => ?_⟩
  have hsome : (splitAtMark? mark text).isSome = true := h.stands ▸ isSome_findMark
  obtain ⟨⟨before', after'⟩, hsplit⟩ := Option.isSome_iff_exists.mp hsome
  obtain ⟨rfl, rfl⟩ := (hfound hsplit).unique h
  exact hsplit

/-- A part before the first mark may be replaced if afterwards no mark overlaps with it. -/
theorem FirstAt.replace_before {a b c part value : List Char} (hmark : mark ≠ [])
    (h : FirstAt mark (a ++ part ++ b ++ mark ++ c) (a ++ part ++ b) c)
    (houtside : ∀ left right, a ++ value ++ (b ++ mark ++ c) = left ++ mark ++ right →
      left.length + mark.length ≤ a.length ∨ a.length + value.length ≤ left.length) :
    FirstAt mark (a ++ value ++ b ++ mark ++ c) (a ++ value ++ b) c := by
  refine ⟨rfl, fun left right hleft => ?_⟩
  have hpos : 0 < mark.length := List.length_pos_iff.mpr hmark
  have htext : a ++ value ++ (b ++ mark ++ c) = left ++ mark ++ right := by
    rw [← hleft, List.append_assoc, List.append_assoc, List.append_assoc, List.append_assoc,
      List.append_assoc]
  rcases houtside left right htext with hbefore | hafter
  · -- the mark would stand in the part that is kept, so further left before
    rw [List.append_assoc] at htext
    obtain ⟨kept, rfl, -⟩ := exists_of_append_eq htext.symm (by rwa [List.length_append])
    have := h.first left (kept ++ part ++ b ++ mark ++ c) (by simp only [List.append_assoc])
    simp only [List.length_append] at this ⊢
    omega
  · rw [List.append_assoc left] at htext
    obtain ⟨between, rfl, hbetween⟩ := exists_of_append_eq htext (by rwa [List.length_append])
    have hfirst := h.first (a ++ part ++ between) right
      (by simpa only [List.append_assoc, List.append_cancel_left_eq] using hbetween)
    simp only [List.length_append] at hfirst ⊢
    omega

/-- What stands after the first mark may be replaced. -/
theorem FirstAt.replace_after {a b rest rest' : List Char}
    (h : FirstAt mark (a ++ mark ++ b ++ rest) a (b ++ rest)) :
    FirstAt mark (a ++ mark ++ b ++ rest') a (b ++ rest') := by
  refine ⟨List.append_assoc .., fun left right hleft => ?_⟩
  by_contra hlt
  obtain ⟨kept, hkept, -⟩ := exists_of_append_eq hleft.symm
    (by simp only [List.length_append]; omega)
  refine hlt (h.first left (kept ++ rest) ?_)
  rw [hkept, List.append_assoc _ kept]

end FirstAt

theorem exists_firstAt {mark text : String} (h : holdsMark mark text = true) :
    ∃ before after, FirstAt mark.toList text.toList before after := by
  obtain ⟨⟨before, after⟩, hsplit⟩ := Option.isSome_iff_exists.mp h
  exact ⟨before, after, splitAtMark?_eq_some_iff.mp hsplit⟩

theorem toList_replaceFirst {mark value text : String} {before after : List Char}
    (h : FirstAt mark.toList text.toList before after) :
    (replaceFirst mark value text).toList = before ++ value.toList ++ after := by
  simp only [replaceFirst, splitAtMark?_eq_some_iff.mpr h, String.toList_append,
    String.toList_ofList]

/-! ## Two marks -/

/-- No mark begins inside another, and none begins with the end of another. -/
def Apart (mark other : List Char) : Prop :=
  ∀ skipped < mark.length, ¬ other <+: mark.drop skipped ∧ ¬ mark.drop skipped <+: other

instance (mark other : List Char) : Decidable (Apart mark other) :=
  inferInstanceAs (Decidable (∀ skipped < mark.length, _ ∧ _))

/-- Of two marks that are apart, one that does not stand further left stands after the other. -/
theorem Apart.exists_between {mark other a b x y : List Char} (hapart : Apart mark other)
    (htext : a ++ mark ++ b = x ++ other ++ y) (hle : a.length ≤ x.length) :
    ∃ between, x = a ++ mark ++ between ∧ b = between ++ other ++ y := by
  obtain ⟨w, rfl, hrest⟩ := exists_of_append_eq (a := a) (b := mark ++ b) (y := other ++ y)
    (by simpa only [List.append_assoc] using htext) hle
  have hpast : mark.length ≤ w.length := by
    by_contra hle
    have hlt := Nat.lt_of_not_le hle
    -- what is left of the mark where the other begins, and the other, begin the same text
    have hdrop : mark.drop w.length ++ b = other ++ y := by
      have := congrArg (List.drop w.length) hrest
      rwa [List.drop_append_of_le_length (Nat.le_of_lt hlt), List.drop_left] at this
    obtain ⟨hother, hmark⟩ := hapart w.length hlt
    rcases List.prefix_or_prefix_of_prefix ⟨b, hdrop⟩ ⟨y, rfl⟩ with h | h
    · exact hmark h
    · exact hother h
  obtain ⟨between, rfl, hb⟩ := exists_of_append_eq hrest hpast
  exact ⟨between, (List.append_assoc ..).symm, by rw [hb, List.append_assoc]⟩

/-- A text with two marks replaced by values, the first mark of the text before that of the other. -/
def ReplacesInOrder (mark value other otherValue text result : String) : Prop :=
  ∃ a b c : List Char,
    FirstAt mark.toList text.toList a (b ++ other.toList ++ c) ∧
    FirstAt other.toList text.toList (a ++ mark.toList ++ b) c ∧
    result.toList = a ++ value.toList ++ b ++ otherValue.toList ++ c

/-- A text with two marks replaced by values at once, each where it first stands. All else is kept. -/
def ReplacesBoth (mark value other otherValue text result : String) : Prop :=
  ReplacesInOrder mark value other otherValue text result ∨
    ReplacesInOrder other otherValue mark value text result

end CausalRules.Text
