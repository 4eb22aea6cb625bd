import CausalRules.Message
import Mathlib.Data.List.Induction

/-!
# Values in messages

A message is filled one name after the other, so a place that stands in a value is filled too when
its name comes later. Here this is compared with filling all places at once.

- `Message.substitute`: a text with the values in their places, all put in at once.
- `Message.places`: how many places of a name a text has.
- `Message.substitute_induction`: a text is read from left to right, place by place.
- `Message.substituteChars_substituteChars`: a name can be filled later if no place of it came in.
- `Message.StaysApart`: no value makes a place of a name that comes after it.
- `Message.fill_eq_substitute`: such values may be put in one after the other.
- `Message.replaceAll_eq_self_iff`: filling a name changes a text exactly if it has a place of it.
-/

namespace CausalRules.Message

/-! ## Places -/

/-- A name without braces. -/
def IsPlain (name : String) : Prop :=
  '\x7b' ∉ name.toList ∧ '\x7d' ∉ name.toList

instance (name : String) : Decidable (IsPlain name) :=
  inferInstanceAs (Decidable (_ ∧ _))

/-- The characters of a name's place. -/
def mark (name : String) : List Char :=
  (place name).toList

/-- How many places of a name there are. -/
def places (name : String) : List Char → Nat
  | [] => 0
  | c :: rest => (if (mark name).isPrefixOf (c :: rest) then 1 else 0) + places name rest

/-- The first of the values whose place begins a text. -/
def standing? (values : List (String × String)) (text : List Char) : Option (String × String) :=
  values.find? fun value => (mark value.1).isPrefixOf text

/-- Puts values into their places, all at once. The number says how many characters of a place that
was just filled are still to be passed over. -/
def substituteFrom (values : List (String × String)) : Nat → List Char → List Char
  | _, [] => []
  | pending + 1, _ :: rest => substituteFrom values pending rest
  | 0, c :: rest =>
    match standing? values (c :: rest) with
    | some value => value.2.toList ++ substituteFrom values ((mark value.1).length - 1) rest
    | none => c :: substituteFrom values 0 rest

/-- The characters of a text with the values in their places. -/
def substituteChars (values : List (String × String)) (text : List Char) : List Char :=
  substituteFrom values 0 text

/-- The text with the values in their places. What is put in is not searched again. -/
def substitute (values : List (String × String)) (text : String) : String :=
  String.ofList (substituteChars values text.toList)

section Places

variable {name other : String} {u v text rest : List Char} {c : Char}

theorem mark_eq (name : String) : mark name = '\x7b' :: (name.toList ++ ['\x7d']) := by
  simp [mark, place]

theorem length_mark (name : String) : (mark name).length = name.toList.length + 2 := by
  simp [mark_eq]

/-- After its first character a place has no opening brace. -/
theorem open_not_mem (h : IsPlain name) : '\x7b' ∉ name.toList ++ ['\x7d'] := by
  simp [h.1]

theorem not_prefix_of_ne (hc : c ≠ '\x7b') : ¬mark name <+: c :: rest := by
  rw [mark_eq, List.cons_prefix_cons]
  exact fun h => hc h.1.symm

/-- What stands before the first closing brace. -/
theorem takeWhile_append_close (hu : '\x7d' ∉ u) :
    (u ++ ['\x7d'] ++ rest).takeWhile (· ≠ '\x7d') = u := by
  rw [List.append_assoc, List.takeWhile_append_of_pos]
  · simp
  · intro c hc
    exact decide_eq_true fun heq => hu (heq ▸ hc)

/-- Two places that begin the same text are of the same name. -/
theorem mark_prefix_mark_append_iff (hname : IsPlain name) (hother : IsPlain other) :
    mark name <+: mark other ++ rest ↔ name = other := by
  constructor
  · rintro ⟨more, h⟩
    rw [mark_eq, mark_eq, List.cons_append, List.cons_append, List.cons_inj_right] at h
    have hnames := congrArg (List.takeWhile (· ≠ '\x7d')) h
    rw [takeWhile_append_close hname.2, takeWhile_append_close hother.2] at hnames
    exact String.toList_inj.mp hnames
  · rintro rfl
    exact List.prefix_append _ _

@[simp] theorem places_nil : places name [] = 0 :=
  rfl

theorem places_cons_of_isPrefix (h : mark name <+: c :: rest) :
    places name (c :: rest) = places name rest + 1 := by
  rw [places, if_pos (List.isPrefixOf_iff_prefix.mpr h), Nat.add_comm]

theorem places_cons_of_not_isPrefix (h : ¬mark name <+: c :: rest) :
    places name (c :: rest) = places name rest := by
  rw [places, if_neg (mt List.isPrefixOf_iff_prefix.mp h), Nat.zero_add]

theorem places_le_append : places name rest ≤ places name (u ++ rest) := by
  induction u with
  | nil => exact Nat.le_refl _
  | cons c u ih =>
    rw [List.cons_append, places]
    omega

/-- Where no brace opens, there is no place. -/
theorem places_append_of_not_mem (name : String) (hu : '\x7b' ∉ u) (rest : List Char) :
    places name (u ++ rest) = places name rest := by
  induction u with
  | nil => rfl
  | cons c u ih =>
    obtain ⟨hc, hu⟩ := not_or.mp (mt List.mem_cons.mpr hu)
    rw [List.cons_append, places_cons_of_not_isPrefix (not_prefix_of_ne (Ne.symm hc)), ih hu]

theorem places_mark_append_self (hname : IsPlain name) :
    places name (mark name ++ rest) = places name rest + 1 := by
  have hprefix : mark name <+: mark name ++ rest := List.prefix_append _ _
  have hinside := places_append_of_not_mem name (open_not_mem hname) rest
  rw [← hinside]
  generalize hmark : mark name = m at hprefix ⊢
  rw [mark_eq] at hmark
  subst hmark
  exact places_cons_of_isPrefix (by rwa [mark_eq])

theorem places_mark_append_of_ne (hname : IsPlain name) (hother : IsPlain other)
    (hne : name ≠ other) : places name (mark other ++ rest) = places name rest := by
  have hprefix : ¬mark name <+: mark other ++ rest :=
    mt (mark_prefix_mark_append_iff hname hother).mp hne
  rw [mark_eq other, List.cons_append] at hprefix ⊢
  rw [places_cons_of_not_isPrefix hprefix, places_append_of_not_mem name (open_not_mem hother)]

end Places

/-! ## Filling all places at once -/

section Substitute

variable {values : List (String × String)} {value : String × String} {name : String}
  {u text rest : List Char} {c : Char}

theorem substituteFrom_eq_drop (pending : Nat) (text : List Char) :
    substituteFrom values pending text = substituteChars values (text.drop pending) := by
  induction pending generalizing text with
  | zero => rfl
  | succ pending ih =>
    cases text with
    | nil => rfl
    | cons c rest => exact ih rest

@[simp] theorem substituteChars_nil : substituteChars values [] = [] :=
  rfl

@[simp] theorem substituteChars_of_nil (text : List Char) : substituteChars [] text = text := by
  induction text with
  | nil => rfl
  | cons c rest ih => exact congrArg (c :: ·) ih

theorem substituteChars_cons_of_none (h : standing? values (c :: rest) = none) :
    substituteChars values (c :: rest) = c :: substituteChars values rest := by
  rw [substituteChars, substituteFrom, h]
  rfl

/-- Where a value's place stands, the value is put in. -/
theorem substituteChars_mark_append (value : String × String)
    (h : standing? values (mark value.1 ++ rest) = some value) :
    substituteChars values (mark value.1 ++ rest) =
      value.2.toList ++ substituteChars values rest := by
  have hlength := length_mark value.1
  have hdrop : (mark value.1 ++ rest).drop (mark value.1).length = rest := List.drop_left
  cases htext : mark value.1 ++ rest with
  | nil => simp [mark_eq] at htext
  | cons c tail =>
    rw [htext] at h hdrop
    rw [hlength] at hdrop
    rw [substituteChars, substituteFrom, h]
    show value.2.toList ++ _ = _
    rw [substituteFrom_eq_drop, hlength]
    exact congrArg (fun text => value.2.toList ++ substituteChars values text) hdrop

theorem exists_of_standing? (h : standing? values text = some value) :
    value ∈ values ∧ ∃ rest, text = mark value.1 ++ rest := by
  have hprefix : (mark value.1).isPrefixOf text = true := by simpa using List.find?_some h
  obtain ⟨rest, hrest⟩ := List.isPrefixOf_iff_prefix.mp hprefix
  exact ⟨List.mem_of_find?_eq_some h, rest, hrest.symm⟩

theorem not_prefix_of_standing? {filler : String} (h : standing? values text = none)
    (hvalue : (name, filler) ∈ values) : ¬mark name <+: text := by
  have hnot := List.find?_eq_none.mp h (name, filler) hvalue
  rwa [List.isPrefixOf_iff_prefix] at hnot

/-- A text is read from left to right: there is a place, or a character that begins none. -/
theorem substitute_induction {motive : List Char → Prop} (values : List (String × String))
    (nil : motive [])
    (place : ∀ value rest, standing? values (mark value.1 ++ rest) = some value → motive rest →
      motive (mark value.1 ++ rest))
    (char : ∀ c rest, standing? values (c :: rest) = none → motive rest → motive (c :: rest))
    (text : List Char) : motive text := by
  induction hlength : text.length using Nat.strongRecOn generalizing text with
  | _ n ih =>
    cases text with
    | nil => exact nil
    | cons c rest =>
      cases h : standing? values (c :: rest) with
      | none => exact char c rest h (ih rest.length (by simp [← hlength]) rest rfl)
      | some value =>
        obtain ⟨-, rest', htext⟩ := exists_of_standing? h
        rw [htext] at h hlength ⊢
        have hshorter : rest'.length < n := by
          rw [← hlength, List.length_append, length_mark]
          omega
        exact place value rest' h (ih _ hshorter rest' rfl)

/-- Where no brace opens, nothing is put in. -/
theorem substituteChars_append_of_not_mem (hu : '\x7b' ∉ u) :
    substituteChars values (u ++ rest) = u ++ substituteChars values rest := by
  induction u with
  | nil => rfl
  | cons c u ih =>
    obtain ⟨hc, hu⟩ := not_or.mp (mt List.mem_cons.mpr hu)
    have hnone : standing? values (c :: (u ++ rest)) = none := by
      refine List.find?_eq_none.mpr fun value _ hprefix => ?_
      exact not_prefix_of_ne (Ne.symm hc) (List.isPrefixOf_iff_prefix.mp hprefix)
    rw [List.cons_append, substituteChars_cons_of_none hnone, ih hu]
    rfl

/-- A place that none of the values has is passed over. -/
theorem substituteChars_mark_append_of_none (hname : IsPlain name)
    (h : standing? values (mark name ++ rest) = none) :
    substituteChars values (mark name ++ rest) = mark name ++ substituteChars values rest := by
  rw [mark_eq, List.cons_append] at h ⊢
  rw [substituteChars_cons_of_none h, substituteChars_append_of_not_mem (open_not_mem hname)]
  rfl

end Substitute

/-! ## One name after the others -/

section Later

variable {values : List (String × String)} {name value : String} {u text rest : List Char}

theorem standing?_singleton_of_isPrefix (h : mark name <+: text) :
    standing? [(name, value)] text = some (name, value) := by
  simp [standing?, h]

theorem standing?_singleton_of_not_isPrefix (h : ¬mark name <+: text) :
    standing? [(name, value)] text = none := by
  simp [standing?, h]

/-- A part that no place begins in is kept. -/
theorem substituteChars_singleton_append (h : places name (u ++ rest) = places name rest) :
    substituteChars [(name, value)] (u ++ rest) =
      u ++ substituteChars [(name, value)] rest := by
  induction u with
  | nil => rfl
  | cons c u ih =>
    have hle : places name rest ≤ places name (u ++ rest) := places_le_append
    have hprefix : ¬mark name <+: c :: (u ++ rest) := by
      intro hprefix
      rw [List.cons_append, places_cons_of_isPrefix hprefix] at h
      omega
    rw [List.cons_append, places_cons_of_not_isPrefix hprefix] at h
    rw [List.cons_append,
      substituteChars_cons_of_none (standing?_singleton_of_not_isPrefix hprefix), ih h]
    rfl

/-- The names of the values, and one that is none of them, without braces. -/
structure Fresh (values : List (String × String)) (name : String) : Prop where
  plain : IsPlain name
  others : ∀ value ∈ values, IsPlain value.1
  ne : ∀ value ∈ values, name ≠ value.1

/-- Filling the places of other names leaves those of a name. -/
theorem places_le_places_substituteChars (h : Fresh values name) (text : List Char) :
    places name text ≤ places name (substituteChars values text) := by
  induction text using substitute_induction values with
  | nil => exact Nat.le_refl _
  | place value rest hstanding ih =>
    have hvalue := (exists_of_standing? hstanding).1
    rw [substituteChars_mark_append _ hstanding,
      places_mark_append_of_ne h.plain (h.others value hvalue) (h.ne value hvalue)]
    exact Nat.le_trans ih places_le_append
  | char c rest hnone ih =>
    rw [substituteChars_cons_of_none hnone]
    by_cases hprefix : mark name <+: c :: rest
    · -- the place is passed over as a whole, so it still stands there
      have hafter : mark name <+: c :: substituteChars values rest := by
        obtain ⟨more, hmore⟩ := hprefix
        rw [← substituteChars_cons_of_none hnone, ← hmore,
          substituteChars_mark_append_of_none h.plain (hmore ▸ hnone)]
        exact List.prefix_append _ _
      rw [places_cons_of_isPrefix hprefix, places_cons_of_isPrefix hafter]
      exact Nat.succ_le_succ ih
    · rw [places_cons_of_not_isPrefix hprefix]
      exact Nat.le_trans ih (places_le_append (u := [c]))

/-- The last of the values stands where none of the others does. -/
theorem standing?_concat_eq_some {found : String × String}
    (h : standing? (values ++ [(name, value)]) text = some found) :
    standing? values text = some found ∨ standing? values text = none ∧ found = (name, value) := by
  rw [standing?, List.find?_append, Option.or_eq_some_iff] at h
  refine h.imp id (And.imp_right fun hfound => ?_)
  exact List.mem_singleton.mp (List.mem_of_find?_eq_some hfound)

theorem standing?_concat_eq_none (h : standing? (values ++ [(name, value)]) text = none) :
    standing? values text = none ∧ ¬mark name <+: text := by
  have hvalue := List.mem_append_right values (List.mem_singleton_self (name, value))
  refine ⟨?_, not_prefix_of_standing? h hvalue⟩
  rw [standing?, List.find?_append, Option.or_eq_none_iff] at h
  exact h.1

/-- **A name may be filled later** if filling the others makes no place of it. -/
theorem substituteChars_substituteChars (h : Fresh values name) {text : List Char}
    (hplaces : places name (substituteChars values text) = places name text) :
    substituteChars [(name, value)] (substituteChars values text) =
      substituteChars (values ++ [(name, value)]) text := by
  induction text using substitute_induction (values ++ [(name, value)]) with
  | nil => rfl
  | place found rest hstanding ih =>
    rw [substituteChars_mark_append _ hstanding]
    rcases standing?_concat_eq_some hstanding with hothers | ⟨hothers, rfl⟩
    · have hfound := (exists_of_standing? hothers).1
      rw [substituteChars_mark_append _ hothers,
        places_mark_append_of_ne h.plain (h.others found hfound) (h.ne found hfound)] at hplaces
      rw [substituteChars_mark_append _ hothers]
      have hlater : places name rest ≤ places name (substituteChars values rest) :=
        places_le_places_substituteChars h rest
      have hrest : places name (substituteChars values rest) ≤
          places name (found.2.toList ++ substituteChars values rest) := places_le_append
      -- neither the value nor the rest has more places than before, so each has as many
      rw [substituteChars_singleton_append (by omega), ih (by omega)]
    · rw [substituteChars_mark_append_of_none h.plain hothers, places_mark_append_self h.plain,
        places_mark_append_self h.plain] at hplaces
      have hsingleton : standing? [(name, value)] (mark name ++ substituteChars values rest) =
          some (name, value) := standing?_singleton_of_isPrefix (List.prefix_append _ _)
      rw [substituteChars_mark_append_of_none h.plain hothers,
        substituteChars_mark_append (name, value) hsingleton,
        ih (Nat.add_right_cancel hplaces)]
  | char c rest hnone ih =>
    obtain ⟨hothers, hname⟩ := standing?_concat_eq_none hnone
    rw [substituteChars_cons_of_none hothers, places_cons_of_not_isPrefix hname] at hplaces
    have hlater := places_le_places_substituteChars h rest
    -- a place that begins here only now would be one too many
    have hafter : ¬mark name <+: c :: substituteChars values rest := by
      intro hprefix
      rw [places_cons_of_isPrefix hprefix] at hplaces
      omega
    rw [places_cons_of_not_isPrefix hafter] at hplaces
    rw [substituteChars_cons_of_none hothers, substituteChars_cons_of_none hnone,
      substituteChars_cons_of_none (standing?_singleton_of_not_isPrefix hafter), ih hplaces]

end Later

/-! ## One value after the other -/

/-- No value makes a place of a name that comes after it: when the values before a name are in,
there are as many places of the name as the text had. -/
def StaysApart (values : List (String × String)) (text : String) : Prop :=
  ∀ i, ∀ h : i < values.length,
    places values[i].1 (substituteChars (values.take i) text.toList) =
      places values[i].1 text.toList

instance (values : List (String × String)) (text : String) : Decidable (StaysApart values text) :=
  inferInstanceAs (Decidable (∀ i, ∀ _ : i < values.length, _ = _))

section Fill

variable {name value text : String} {values : List (String × String)}

/-- Both functions pass over the same characters, and one keeps what it has written so far. -/
theorem replaceFrom_eq (pending : Nat) (rest written : List Char) :
    Text.replaceFrom (mark name) value.toList rest pending written =
      written.reverse ++ substituteFrom [(name, value)] pending rest := by
  induction rest generalizing pending written with
  | nil => simp [Text.replaceFrom, substituteFrom]
  | cons c rest ih =>
    cases pending with
    | succ pending => exact ih pending written
    | zero =>
      unfold Text.replaceFrom substituteFrom
      by_cases hprefix : mark name <+: c :: rest
      · rw [if_pos (List.isPrefixOf_iff_prefix.mpr hprefix), ih,
          standing?_singleton_of_isPrefix hprefix]
        simp
      · rw [if_neg (mt List.isPrefixOf_iff_prefix.mp hprefix), ih,
          standing?_singleton_of_not_isPrefix hprefix]
        simp

/-- Replacing the places of one name fills them. -/
theorem replaceAll_eq (name value text : String) :
    Text.replaceAll (place name) value text = substitute [(name, value)] text :=
  congrArg String.ofList (replaceFrom_eq 0 text.toList [])

theorem fill_concat (values : List (String × String)) (value : String × String) (text : String) :
    fill (values ++ [value]) text = substitute [value] (fill values text) := by
  rw [fill, List.foldl_append, ← fill]
  exact replaceAll_eq value.1 value.2 _

theorem StaysApart.init {last : String × String} (h : StaysApart (values ++ [last]) text) :
    StaysApart values text := by
  intro i hi
  have hplaces := h i (by rw [List.length_append]; omega)
  rwa [List.getElem_append_left hi, List.take_append_of_le_length (Nat.le_of_lt hi)] at hplaces

theorem StaysApart.last {last : String × String} (h : StaysApart (values ++ [last]) text) :
    places last.1 (substituteChars values text.toList) = places last.1 text.toList := by
  simpa using h values.length (by simp)

/-- **Values may be put in one after the other** if their names have no braces, are distinct, and no
value makes a place of a name that comes after it. -/
theorem fill_eq_substitute (hnames : (values.map Prod.fst).Nodup)
    (hplain : ∀ value ∈ values, IsPlain value.1) (h : StaysApart values text) :
    fill values text = substitute values text := by
  -- the last of the values is put in last
  induction values using List.reverseRecOn with
  | nil => simp [fill, substitute]
  | append_singleton values last ih =>
    rw [List.map_append, List.nodup_append] at hnames
    have hfresh : Fresh values last.1 := by
      refine ⟨hplain last (by simp), fun value hvalue => hplain value (by simp [hvalue]), ?_⟩
      intro value hvalue heq
      exact hnames.2.2 value.1 (List.mem_map_of_mem hvalue) last.1 (by simp) heq.symm
    rw [fill_concat, ih hnames.1 (fun value hvalue => hplain value (by simp [hvalue])) h.init,
      substitute, substitute, substitute, String.toList_ofList]
    exact congrArg String.ofList (substituteChars_substituteChars hfresh h.last)

end Fill

/-! ## Where one name is filled -/

section Filled

variable {name value text : String} {u rest : List Char} {c : Char}

/-- A place in a text with a character that no place of the name has does not reach past it. -/
theorem prefix_of_not_mem (hc : c ∉ mark name) (h : mark name <+: u ++ c :: rest) :
    mark name <+: u := by
  rcases Nat.le_total (mark name).length u.length with hle | hle
  · exact List.prefix_of_prefix_length_le h (List.prefix_append _ _) hle
  · have hu : u <+: mark name := List.prefix_of_prefix_length_le (List.prefix_append _ _) h hle
    obtain ⟨more, hmore⟩ := hu
    cases more with
    | nil => simp [← hmore]
    | cons d more =>
      rw [← hmore, List.prefix_append_right_inj, List.cons_prefix_cons] at h
      exact absurd (by simp [← hmore, h.1]) hc

/-- A text is filled part by part where a character stands that no place of the name has. -/
theorem substituteChars_append_cons (hc : c ∉ mark name) :
    substituteChars [(name, value)] (u ++ c :: rest) =
      substituteChars [(name, value)] u ++ c :: substituteChars [(name, value)] rest := by
  induction u using substitute_induction [(name, value)] with
  | nil =>
    have hprefix : ¬mark name <+: c :: rest := by
      refine not_prefix_of_ne ?_
      rintro rfl
      exact hc (by simp [mark_eq])
    exact substituteChars_cons_of_none (standing?_singleton_of_not_isPrefix hprefix)
  | place found more hstanding ih =>
    obtain rfl := List.mem_singleton.mp (exists_of_standing? hstanding).1
    rw [substituteChars_mark_append _ hstanding, List.append_assoc,
      substituteChars_mark_append (name, value)
        (standing?_singleton_of_isPrefix (List.prefix_append _ _)), ih, List.append_assoc]
  | char d more hnone ih =>
    have hprefix : ¬mark name <+: d :: (more ++ c :: rest) := fun h =>
      not_prefix_of_standing? hnone (List.mem_singleton_self (name, value)) (prefix_of_not_mem hc h)
    rw [substituteChars_cons_of_none hnone, List.cons_append,
      substituteChars_cons_of_none (standing?_singleton_of_not_isPrefix hprefix), ih]
    rfl

/-- For every place that a value without opening braces fills, one opening brace goes. -/
theorem count_substituteChars (hname : IsPlain name) (hvalue : '\x7b' ∉ value.toList)
    (text : List Char) :
    (substituteChars [(name, value)] text).count '\x7b' + places name text =
      text.count '\x7b' := by
  induction text using substitute_induction [(name, value)] with
  | nil => rfl
  | place found rest hstanding ih =>
    obtain rfl := List.mem_singleton.mp (exists_of_standing? hstanding).1
    have hmark : (mark name).count '\x7b' = 1 := by
      rw [mark_eq, List.count_cons_self, List.count_eq_zero_of_not_mem (open_not_mem hname)]
    rw [substituteChars_mark_append _ hstanding, places_mark_append_self hname, List.count_append,
      List.count_append, hmark, List.count_eq_zero_of_not_mem hvalue]
    omega
  | char c rest hnone ih =>
    have hprefix : ¬mark name <+: c :: rest :=
      not_prefix_of_standing? hnone (List.mem_singleton_self (name, value))
    rw [substituteChars_cons_of_none hnone, places_cons_of_not_isPrefix hprefix, List.count_cons,
      List.count_cons]
    omega

/-- A text without places of the name is kept. -/
theorem substituteChars_of_places_eq_zero (h : places name u = 0) :
    substituteChars [(name, value)] u = u := by
  have hplaces : places name (u ++ []) = places name [] := by rwa [List.append_nil]
  simpa using substituteChars_singleton_append hplaces

/-- The only place of a name in a text. -/
theorem substituteChars_between (value : String) {before after : List Char}
    (hbefore : '\x7b' ∉ before) (hafter : places name after = 0) :
    substituteChars [(name, value)] (before ++ (mark name ++ after)) =
      before ++ (value.toList ++ after) := by
  rw [substituteChars_append_of_not_mem hbefore,
    substituteChars_mark_append (name, value)
      (standing?_singleton_of_isPrefix (List.prefix_append _ _)),
    substituteChars_of_places_eq_zero hafter]

/-- Filling the places of a name changes a text exactly if it has such a place. -/
theorem replaceAll_eq_self_iff (hname : IsPlain name) (hvalue : '\x7b' ∉ value.toList) :
    Text.replaceAll (place name) value text = text ↔ places name text.toList = 0 := by
  rw [replaceAll_eq, substitute]
  constructor
  · intro h
    have hcount := count_substituteChars hname hvalue text.toList
    have hkept := congrArg String.toList h
    rw [String.toList_ofList] at hkept
    rw [hkept] at hcount
    omega
  · intro h
    rw [substituteChars_of_places_eq_zero h, String.ofList_toList]

end Filled

end CausalRules.Message
