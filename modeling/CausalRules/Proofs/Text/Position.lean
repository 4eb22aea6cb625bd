import CausalRules.Text.Position
import Mathlib.Data.String.Basic
import Mathlib.Order.Bounds.Defs

/-!
# A line and a column tell where one is in a text

Offsets count bytes, while lines and columns count characters. An offset inside of a character has
the place of the next one, and an offset past the end that of the end; apart from that no two
offsets have the same place, and a later one has a later place.

- `Place.EndOf`: the place at which a text ends, by its line ends and by what follows the last one.
- `Place.Before`: places in the order of the text.
- `Reached`: how far one has to go for an offset; `exists_advance` goes there, and
  `isLeast_of_reached` says which offset is reached.
- `placeAt_orders`: the place of every offset, and the order of places.
-/

namespace CausalRules.Text

open String (utf8Len)

/-! ## Places at the end of a text -/

/-- The place at which characters end: its line counts the line ends, and its column the characters
after the last line end, if there is one. -/
structure Place.EndOf (place : Place) (cs : List Char) : Prop where
  line : place.line = 1 + cs.count '\n'
  column : ∃ lines last, cs = lines ++ last ∧ (lines = [] ∨ ∃ earlier, lines = earlier ++ ['\n']) ∧
    '\n' ∉ last ∧ place.column = 1 + last.length

/-- A place stands before another one, on an earlier line or on the same one. -/
def Place.Before (p q : Place) : Prop :=
  p.line < q.line ∨ p.line = q.line ∧ p.column < q.column

namespace Place

variable {p q r : Place} {cs : List Char}

theorem endOf_start : start.EndOf [] :=
  ⟨rfl, [], [], rfl, .inl rfl, List.not_mem_nil, rfl⟩

/-- One more character moves the place by one line or by one column. -/
theorem EndOf.after (h : p.EndOf cs) (c : Char) : (p.after c).EndOf (cs ++ [c]) := by
  obtain ⟨lines, last, rfl, hlines, hlast, hcolumn⟩ := h.column
  unfold Place.after
  by_cases hc : c = '\n'
  · subst hc
    rw [if_pos rfl]
    refine ⟨?_, lines ++ last ++ ['\n'], [], by simp, .inr ⟨_, rfl⟩, List.not_mem_nil, rfl⟩
    rw [List.count_append, List.count_singleton_self, ← Nat.add_assoc, ← h.line]
  · rw [if_neg hc]
    refine ⟨?_, lines, last ++ [c], List.append_assoc .., hlines, ?_, ?_⟩
    · rw [List.count_append, List.count_singleton, if_neg (by simpa using hc), Nat.add_zero]
      exact h.line
    · simpa [Ne.symm hc] using hlast
    · rw [List.length_append, List.length_singleton, ← Nat.add_assoc, ← hcolumn]

theorem EndOf.foldl_after (h : p.EndOf cs) (ds : List Char) :
    (ds.foldl Place.after p).EndOf (cs ++ ds) := by
  induction ds generalizing p cs with
  | nil => rwa [List.append_nil]
  | cons d ds ih =>
    rw [List.foldl_cons, List.append_cons]
    exact ih (h.after d)

theorem Before.trans (h : p.Before q) (h' : q.Before r) : p.Before r := by
  unfold Before at *
  omega

theorem not_before_self (p : Place) : ¬ p.Before p := by
  unfold Before
  omega

theorem before_after (p : Place) (c : Char) : p.Before (p.after c) := by
  unfold Place.after
  split
  · exact .inl (Nat.lt_succ_self _)
  · exact .inr ⟨rfl, Nat.lt_succ_self _⟩

/-- Characters move a place forward. -/
theorem before_foldl_after (p : Place) {ds : List Char} (hne : ds ≠ []) :
    p.Before (ds.foldl Place.after p) := by
  induction ds generalizing p with
  | nil => exact absurd rfl hne
  | cons d ds ih =>
    rw [List.foldl_cons]
    by_cases hds : ds = []
    · rw [hds]
      exact before_after p d
    · exact (before_after p d).trans (ih _ hds)

end Place

/-! ## How far an offset reaches -/

/-- These are the characters to pass for an offset: all of them begin before it, and either the
offset or the end of the text is reached. -/
structure Reached (offset : Nat) (passed rest : List Char) : Prop where
  enough : rest = [] ∨ offset ≤ utf8Len passed
  needed : ∀ fewer, fewer <+: passed → fewer ≠ passed → utf8Len fewer < offset

/-- Advancing to an offset passes the characters that are needed. -/
theorem Place.exists_advance (p : Place) (cs : List Char) (offset : Nat) :
    ∃ passed rest, cs = passed ++ rest ∧ Reached offset passed rest ∧
      p.advance cs offset = passed.foldl Place.after p := by
  induction cs generalizing p offset with
  | nil =>
    exact ⟨[], [], rfl, ⟨.inl rfl, fun fewer h hne => (hne (List.prefix_nil.mp h)).elim⟩, rfl⟩
  | cons c cs ih =>
    rw [advance]
    by_cases hoffset : offset = 0
    · refine ⟨[], c :: cs, rfl, ⟨.inr (Nat.le_of_eq hoffset), ?_⟩, if_pos hoffset⟩
      exact fun fewer h hne => (hne (List.prefix_nil.mp h)).elim
    · obtain ⟨passed, rest, rfl, hreached, hadvance⟩ := ih (p.after c) (offset - c.utf8Size)
      refine ⟨c :: passed, rest, rfl, ⟨?_, fun fewer h hne => ?_⟩, ?_⟩
      · refine hreached.enough.imp_right fun hle => ?_
        rw [String.utf8Len_cons]
        omega
      · -- the first character begins before the offset, and the others do so behind it
        cases fewer with
        | nil => exact Nat.pos_of_ne_zero hoffset
        | cons d fewer =>
          obtain ⟨rfl, hfewer⟩ := List.cons_prefix_cons.mp h
          have hlt := hreached.needed fewer hfewer fun heq => hne (heq ▸ rfl)
          rw [String.utf8Len_cons]
          omega
      · rw [if_neg hoffset, hadvance, List.foldl_cons]

section Boundaries

variable {text : String} {offset : Nat} {passed rest : List Char}

theorem isValid_iff {p : Nat} : String.Pos.Raw.IsValid text ⟨p⟩ ↔
    ∃ before after, text.toList = before ++ after ∧ utf8Len before = p := by
  rw [String.Pos.Raw.isValid_iff_exists_append]
  constructor
  · rintro ⟨before, after, rfl, hp⟩
    refine ⟨before.toList, after.toList, String.toList_append, ?_⟩
    rw [String.utf8Len_toList]
    exact (congrArg String.Pos.Raw.byteIdx hp).symm
  · rintro ⟨before, after, htext, rfl⟩
    refine ⟨String.ofList before, String.ofList after, ?_, ?_⟩
    · rw [← String.ofList_append, ← htext, String.ofList_toList]
    · apply String.Pos.Raw.ext
      exact (String.utf8ByteSize_ofList before).symm

/-- Of two beginnings of a text the one with fewer bytes is a beginning of the other. -/
theorem prefix_of_utf8Len_le {before after longer after' : List Char}
    (htext : before ++ after = longer ++ after') (hle : utf8Len before ≤ utf8Len longer) :
    before <+: longer := by
  rcases List.prefix_or_prefix_of_prefix (List.prefix_append before after)
    (htext ▸ List.prefix_append longer after') with h | ⟨more, rfl⟩
  · exact h
  · -- no byte is left for a further character
    cases more with
    | nil => exact (List.append_nil longer).symm ▸ List.prefix_rfl
    | cons c more =>
      have := c.utf8Size_pos
      rw [String.utf8Len_append, String.utf8Len_cons] at hle
      omega

/-- Where an offset is reached is the first boundary that is not below it, or the end. -/
theorem isLeast_of_reached (htext : text.toList = passed ++ rest)
    (h : Reached offset passed rest) :
    IsLeast {p | String.Pos.Raw.IsValid text ⟨p⟩ ∧ min offset text.utf8ByteSize ≤ p}
      (utf8Len passed) := by
  have hsize : text.utf8ByteSize = utf8Len passed + utf8Len rest := by
    rw [← String.utf8Len_toList, htext, String.utf8Len_append]
  refine ⟨⟨isValid_iff.mpr ⟨passed, rest, htext, rfl⟩, ?_⟩, ?_⟩
  · rcases h.enough with rfl | hle
    · rw [hsize]
      exact Nat.min_le_right _ _
    · exact Nat.le_trans (Nat.min_le_left _ _) hle
  · rintro p ⟨hvalid, hle⟩
    obtain ⟨before, after, hbefore, rfl⟩ := isValid_iff.mp hvalid
    refine Nat.le_of_not_lt fun hlt => ?_
    -- fewer characters end before the offset, and before the end of the text
    have hprefix := prefix_of_utf8Len_le (hbefore.symm.trans htext) (Nat.le_of_lt hlt)
    have hoffset := h.needed before hprefix fun heq => Nat.lt_irrefl _ (heq ▸ hlt)
    omega

/-- The place of a boundary is that at which the text before it ends. -/
theorem placeAt_boundary {before after : List Char} (htext : text.toList = before ++ after) :
    placeAt text (utf8Len before) = before.foldl Place.after .start := by
  obtain ⟨passed, rest, hpassed, hreached, hplace⟩ :=
    Place.exists_advance .start text.toList (utf8Len before)
  obtain ⟨⟨-, hge⟩, hleast⟩ := isLeast_of_reached hpassed hreached
  have hle := hleast ⟨isValid_iff.mpr ⟨before, after, htext, rfl⟩, Nat.min_le_left _ _⟩
  have hsize : utf8Len before ≤ text.utf8ByteSize := by
    rw [← String.utf8Len_toList, htext, String.utf8Len_append]
    exact Nat.le_add_right _ _
  rw [Nat.min_eq_left hsize] at hge
  have hprefix := prefix_of_utf8Len_le (hpassed.symm.trans htext) hle
  have hprefix' := prefix_of_utf8Len_le (htext.symm.trans hpassed) hge
  rw [placeAt, hplace, hprefix.eq_of_length_le hprefix'.length_le]

/-- A later boundary has a later place. -/
theorem before_of_lt {p q : Nat} (hp : String.Pos.Raw.IsValid text ⟨p⟩)
    (hq : String.Pos.Raw.IsValid text ⟨q⟩) (hlt : p < q) :
    (placeAt text p).Before (placeAt text q) := by
  obtain ⟨before, after, hbefore, rfl⟩ := isValid_iff.mp hp
  obtain ⟨longer, after', hlonger, rfl⟩ := isValid_iff.mp hq
  obtain ⟨more, rfl⟩ := prefix_of_utf8Len_le (hbefore.symm.trans hlonger) (Nat.le_of_lt hlt)
  have hne : more ≠ [] := by
    rintro rfl
    rw [List.append_nil] at hlt
    exact Nat.lt_irrefl _ hlt
  rw [placeAt_boundary hbefore, placeAt_boundary hlonger, List.foldl_append]
  exact Place.before_foldl_after _ hne

end Boundaries

/-- **A line and a column tell where one is.** The place of an offset is that at which the text ends
before the first boundary between characters that is not below the offset, or before the end of the
text when there is none. Boundaries are in the order of their places, and no two of them have the
same one. -/
theorem placeAt_orders (text : String) :
    (∀ offset, ∃ before after, text = before ++ after ∧
      IsLeast {p | String.Pos.Raw.IsValid text ⟨p⟩ ∧ min offset text.utf8ByteSize ≤ p}
        before.utf8ByteSize ∧
      (placeAt text offset).EndOf before.toList) ∧
    ∀ p q, String.Pos.Raw.IsValid text ⟨p⟩ → String.Pos.Raw.IsValid text ⟨q⟩ →
      (p < q ↔ (placeAt text p).Before (placeAt text q)) ∧
      (placeAt text p = placeAt text q → p = q) := by
  refine ⟨fun offset => ?_, fun p q hp hq => ?_⟩
  · obtain ⟨passed, rest, htext, hreached, hplace⟩ :=
      Place.exists_advance .start text.toList offset
    refine ⟨String.ofList passed, String.ofList rest, ?_, ?_, ?_⟩
    · rw [← String.ofList_append, ← htext, String.ofList_toList]
    · rw [String.utf8ByteSize_ofList]
      exact isLeast_of_reached htext hreached
    · rw [String.toList_ofList, placeAt, hplace]
      exact Place.endOf_start.foldl_after passed
  · have hne : placeAt text p = placeAt text q → p = q := by
      intro heq
      rcases Nat.lt_trichotomy p q with hlt | hpq | hlt
      · exact (Place.not_before_self _ (heq ▸ before_of_lt hp hq hlt)).elim
      · exact hpq
      · exact (Place.not_before_self _ (heq ▸ before_of_lt hq hp hlt)).elim
    refine ⟨⟨before_of_lt hp hq, fun hbefore => ?_⟩, hne⟩
    rcases Nat.lt_trichotomy p q with hlt | rfl | hlt
    · exact hlt
    · exact (Place.not_before_self _ hbefore).elim
    · exact (Place.not_before_self _ (hbefore.trans (before_of_lt hq hp hlt))).elim

/-- A character of two bytes, a line end and a letter. -/
def twoLines : String := "é\nb"

/-- An offset inside of the first character has the place after it, and the next line is later. -/
theorem twoLines_orders :
    (∃ before after, twoLines = before ++ after ∧
      IsLeast {p | String.Pos.Raw.IsValid twoLines ⟨p⟩ ∧ min 1 twoLines.utf8ByteSize ≤ p}
        before.utf8ByteSize ∧ (⟨1, 2⟩ : Place).EndOf before.toList) ∧
    String.Pos.Raw.IsValid twoLines ⟨2⟩ ∧ String.Pos.Raw.IsValid twoLines ⟨3⟩ ∧
    placeAt twoLines 2 = ⟨1, 2⟩ ∧ placeAt twoLines 3 = ⟨2, 1⟩ ∧
    (placeAt twoLines 2).Before (placeAt twoLines 3) := by
  have hcharacter : String.Pos.Raw.IsValid twoLines ⟨2⟩ := by decide
  have hline : String.Pos.Raw.IsValid twoLines ⟨3⟩ := by decide
  obtain ⟨hplaces, horder⟩ := placeAt_orders twoLines
  have hplace : placeAt twoLines 1 = ⟨1, 2⟩ := by decide
  exact ⟨hplace ▸ hplaces 1, hcharacter, hline, by decide, by decide,
    (horder 2 3 hcharacter hline).1.mp (by decide)⟩

end CausalRules.Text
