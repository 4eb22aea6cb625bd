import CausalRules.Script.Name

/-!
# Which names share an identifier

Two steps on the way from a name to its identifier forget something: a hyphen is written like an
underscore, and a reserved word like the name that ends in one more underscore. Nothing else does,
so it can be told from the names alone which of them clash in a script.

- `SharesIdentifier`, `identifier_eq_iff`: two names with one identifier.
- `identifier_not_reserved`, `identifier_eq_iff_underscored`: an identifier is never a reserved word,
  and which names have another word as their identifier.
- `membersName_inj`, `identifier_eq_membersName_iff`: when the variable for the objects of a type is
  that of another type, or the identifier of a name.
-/

namespace CausalRules.Script

variable {a b s t : String}

/-! ## Identifiers -/

/-- `b` is written like the reserved word `a` with the underscore that it gains. -/
def EscapesTo (a b : String) : Prop :=
  underscored a ∈ reservedNames ∧ underscored b = underscored a ++ "_"

/-- Two names differ in hyphens and underscores only, or one of them is a reserved word and the
other has the underscore that the first one gains. -/
def SharesIdentifier (a b : String) : Prop :=
  underscored a = underscored b ∨ EscapesTo a b ∨ EscapesTo b a

/-- A name without hyphens and underscores is written as it is. -/
theorem eq_of_underscored_eq (hb : '_' ∉ b.toList) (h : underscored a = b) : a = b := by
  have hlist : b.toList = a.toList.map fun c => if c = '-' then '_' else c := by
    rw [← h, underscored, String.toList_ofList]
  have hsame : ∀ c ∈ a.toList, (if c = '-' then '_' else c) = id c := by
    intro c hc
    -- a hyphen would have become an underscore
    have hne : c ≠ '-' := by
      rintro rfl
      apply hb
      rw [hlist]
      exact List.mem_map.mpr ⟨_, hc, if_pos rfl⟩
    exact if_neg hne
  apply String.toList_inj.mp
  rw [hlist, List.map_congr_left hsame, List.map_id]

/-- What a reserved word becomes is not reserved. -/
theorem escaped_not_reserved : ∀ w ∈ reservedNames, w ++ "_" ∉ reservedNames := by
  decide

theorem identifier_of_reserved (h : underscored a ∈ reservedNames) :
    identifier a = underscored a ++ "_" :=
  if_pos h

theorem identifier_of_not_reserved (h : underscored a ∉ reservedNames) :
    identifier a = underscored a :=
  if_neg h

/-- An identifier is never a reserved word. -/
theorem identifier_not_reserved (a : String) : identifier a ∉ reservedNames := by
  by_cases h : underscored a ∈ reservedNames
  · rw [identifier_of_reserved h]
    exact escaped_not_reserved _ h
  · rw [identifier_of_not_reserved h]
    exact h

/-- Only one name has an identifier without underscores. -/
theorem eq_of_identifier_eq (hb : '_' ∉ b.toList) (h : identifier a = b) : a = b := by
  by_cases ha : underscored a ∈ reservedNames
  · rw [identifier_of_reserved ha] at h
    -- a reserved word would have gained an underscore
    have hmem : '_' ∈ b.toList := by simp [← h]
    exact absurd hmem hb
  · rw [identifier_of_not_reserved ha] at h
    exact eq_of_underscored_eq hb h

/-- **Exactly the names that differ in hyphens and underscores, or in the underscore of a reserved
word, share an identifier.** -/
theorem identifier_eq_iff : identifier a = identifier b ↔ SharesIdentifier a b := by
  have escapes : ∀ {a b : String}, underscored a ∈ reservedNames → underscored b ∉ reservedNames →
      (identifier a = identifier b ↔ underscored b = underscored a ++ "_") := by
    intro a b ha hb
    rw [identifier_of_reserved ha, identifier_of_not_reserved hb]
    exact eq_comm
  -- what a reserved word becomes is not reserved, so at most one of the two is escaped
  have reserved : ∀ {a b : String}, EscapesTo a b → underscored b ∉ reservedNames := by
    rintro a b ⟨ha, hb⟩
    rw [hb]
    exact escaped_not_reserved _ ha
  unfold SharesIdentifier
  by_cases ha : underscored a ∈ reservedNames
  · by_cases hb : underscored b ∈ reservedNames
    · have hab : ¬ EscapesTo a b := fun h => reserved h hb
      have hba : ¬ EscapesTo b a := fun h => reserved h ha
      rw [identifier_of_reserved ha, identifier_of_reserved hb, String.append_left_inj]
      simp [hab, hba]
    · have hne : underscored a ≠ underscored b := fun h => hb (h ▸ ha)
      have hba : ¬ EscapesTo b a := fun h => hb h.1
      rw [escapes ha hb]
      simp [EscapesTo, ha, hne, hb]
  · by_cases hb : underscored b ∈ reservedNames
    · have hne : underscored a ≠ underscored b := fun h => ha (h ▸ hb)
      rw [eq_comm, escapes hb ha]
      simp [EscapesTo, ha, hne, hb]
    · rw [identifier_of_not_reserved ha, identifier_of_not_reserved hb]
      simp [EscapesTo, ha, hb]

/-- A word that is neither reserved nor what a reserved word becomes is the identifier of the names
that are spelled like it. -/
theorem identifier_eq_iff_underscored (h : b ∉ reservedNames)
    (hescaped : ∀ w ∈ reservedNames, w ++ "_" ≠ b) : identifier a = b ↔ underscored a = b := by
  by_cases ha : underscored a ∈ reservedNames
  · rw [identifier_of_reserved ha]
    constructor
    · exact fun heq => absurd heq (hescaped _ ha)
    · exact fun heq => absurd (heq ▸ ha) h
  · rw [identifier_of_not_reserved ha]

/-! ## Variables for objects -/

theorem membersName_inj : membersName s = membersName t ↔ SharesIdentifier s t := by
  rw [membersName, membersName, String.append_right_inj, identifier_eq_iff]

/-- No reserved word begins like a variable for objects, with its underscore or without. -/
theorem reserved_not_members : ∀ w ∈ reservedNames,
    ¬ "all_".toList <+: w.toList ∧ ¬ "all_".toList <+: (w ++ "_").toList := by
  decide

theorem membersName_not_reserved (t : String) : membersName t ∉ reservedNames := by
  intro h
  refine (reserved_not_members _ h).1 ?_
  rw [membersName, String.toList_append]
  exact List.prefix_append _ _

/-- A name has the identifier of a variable for objects when it is spelled like it. -/
theorem identifier_eq_membersName_iff :
    identifier a = membersName t ↔ underscored a = membersName t := by
  refine identifier_eq_iff_underscored (membersName_not_reserved t) ?_
  intro w hw heq
  refine (reserved_not_members _ hw).2 ?_
  rw [heq, membersName, String.toList_append]
  exact List.prefix_append _ _

end CausalRules.Script
