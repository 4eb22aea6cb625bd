import CausalRules.Imitation.Method
import CausalRules.Proofs.Traversal
import Mathlib.Data.List.Induction

/-!
# Grouping is a stable partition

Rules are grouped in one pass, which finds the group of a known intention by its index and a clash of
functions by the function. What the pass has built after some rules depends on two things only: the
names in the order in which they first appear, and the rules of each name.

- `intentionNames`, `rulesOf`: the names of the rules, and the rules of a name.
- `Grouping.ofRules`: what is built after some rules; `Grouping.add_ofRules` is one step of the pass,
  `foldlM_add` the whole pass.
- `groupsOf_eq`, `ofProgram_eq`: the groups and the methods of a program.
-/

namespace CausalRules.Imitation

open Script (identifier)

/-- The names of intentions in the order in which they first appear. -/
def intentionNames (rules : List Rule) : List String :=
  (rules.map (·.intention.name)).eraseDups

/-- The rules of an intention. -/
def rulesOf (rules : List Rule) (name : String) : List Rule :=
  rules.filter (·.intention.name = name)

/-- Refuses a name whose function is that of a name seen before. -/
def checkFunctions (seen : List String) : List String → Except EmitError Unit
  | [] => .ok ()
  | name :: rest =>
    match seen.find? (identifier · = identifier name) with
    | some first => .error (.duplicateMethod (identifier name) first name)
    | none => checkFunctions (name :: seen) rest

/-! ## Names and their rules -/

section Names

variable {rules : List Rule} {rule : Rule}

theorem nodup_eraseDups : ∀ names : List String, names.eraseDups.Nodup
  | [] => .nil
  | name :: rest => by
    rw [List.eraseDups_cons, List.nodup_cons]
    refine ⟨fun h => ?_, nodup_eraseDups _⟩
    have hkept := (List.mem_filter.mp (List.mem_eraseDups.mp h)).2
    simp at hkept
termination_by names => names.length
decreasing_by
  have hlength := List.length_filter_le (fun other => !other == name) rest
  rw [List.length_cons]
  omega

theorem nodup_intentionNames (rules : List Rule) : (intentionNames rules).Nodup :=
  nodup_eraseDups _

theorem mem_intentionNames {name : String} :
    name ∈ intentionNames rules ↔ ∃ rule ∈ rules, rule.intention.name = name := by
  rw [intentionNames, List.mem_eraseDups, List.mem_map]

/-- A rule of a known intention brings no name. -/
theorem intentionNames_concat_of_mem (h : rule.intention.name ∈ intentionNames rules) :
    intentionNames (rules ++ [rule]) = intentionNames rules := by
  have hmem : rule.intention.name ∈ rules.map (·.intention.name) := List.mem_eraseDups.mp h
  rw [intentionNames, List.map_append, List.eraseDups_append, List.map_singleton,
    List.cons_removeAll, if_neg (by simpa using hmem)]
  simp [intentionNames, List.removeAll]

theorem intentionNames_concat_of_not_mem (h : rule.intention.name ∉ intentionNames rules) :
    intentionNames (rules ++ [rule]) = intentionNames rules ++ [rule.intention.name] := by
  have hmem : rule.intention.name ∉ rules.map (·.intention.name) := mt List.mem_eraseDups.mpr h
  rw [intentionNames, List.map_append, List.eraseDups_append, List.map_singleton,
    List.cons_removeAll, if_pos (by simpa using hmem)]
  simp [intentionNames, List.removeAll, List.eraseDups_cons]

theorem rulesOf_concat (rules : List Rule) (rule : Rule) (name : String) :
    rulesOf (rules ++ [rule]) name =
      rulesOf rules name ++ if rule.intention.name = name then [rule] else [] := by
  rw [rulesOf, List.filter_append, List.filter_cons, List.filter_nil]
  simp [rulesOf]

theorem rulesOf_eq_nil {name : String} (h : name ∉ intentionNames rules) :
    rulesOf rules name = [] := by
  rw [rulesOf, List.filter_eq_nil_iff]
  intro rule hrule heq
  exact h (mem_intentionNames.mpr ⟨rule, hrule, of_decide_eq_true heq⟩)

theorem mem_of_mem_rulesOf {name : String} (h : rule ∈ rulesOf rules name) : rule ∈ rules :=
  List.mem_of_mem_filter h

/-- An intention has a first rule. -/
theorem exists_rulesOf_eq_cons {name : String} (h : name ∈ intentionNames rules) :
    ∃ first rest, rulesOf rules name = first :: rest ∧ first.intention.name = name := by
  obtain ⟨rule, hrule, hname⟩ := mem_intentionNames.mp h
  have hmem : rule ∈ rulesOf rules name := List.mem_filter.mpr ⟨hrule, decide_eq_true hname⟩
  obtain ⟨first, rest, hrules⟩ := List.exists_cons_of_ne_nil (List.ne_nil_of_mem hmem)
  have hfirst : first ∈ rulesOf rules name := hrules ▸ List.mem_cons_self
  exact ⟨first, rest, hrules, of_decide_eq_true (List.mem_filter.mp hfirst).2⟩

end Names

theorem checkFunctions_append (seen names names' : List String) :
    checkFunctions seen (names ++ names') =
      checkFunctions seen names >>= fun _ => checkFunctions (names.reverse ++ seen) names' := by
  induction names generalizing seen with
  | nil => rfl
  | cons name names ih =>
    rw [List.cons_append, checkFunctions, checkFunctions]
    cases seen.find? (identifier · = identifier name) with
    | some first => rfl
    | none =>
      dsimp only
      rw [ih, List.reverse_cons, List.append_assoc, List.singleton_append]

/-! ## The pass over the rules -/

/-- The group of a name. -/
def Group.ofName (rules : List Rule) (name : String) : Group :=
  ⟨name, rulesOf rules name⟩

namespace Grouping

/-- What is built after some rules: the groups of the names, and each name under its index and
under its function, the last one first. -/
def ofRules (rules : List Rule) : Grouping where
  groups := (intentionNames rules).map (Group.ofName rules)
  slots := (intentionNames rules).zipIdx.reverse
  functions := (intentionNames rules).reverse.map fun name => (identifier name, name)

variable {rules : List Rule} {rule : Rule}

theorem lookup_slots {name : String} (h : name ∈ intentionNames rules) :
    ∃ slot, (ofRules rules).slots.lookup name = some slot ∧
      (intentionNames rules)[slot]? = some name := by
  cases hslot : (ofRules rules).slots.lookup name with
  | none =>
    obtain ⟨i, hi⟩ := List.mem_iff_getElem?.mp h
    have hmem : (name, i) ∈ (ofRules rules).slots :=
      List.mem_reverse.mpr (List.mem_zipIdx_iff_getElem?.mpr hi)
    have hne := List.lookup_eq_none_iff.mp hslot _ hmem
    simp at hne
  | some slot =>
    obtain ⟨before, after, hslots, -⟩ := List.lookup_eq_some_iff.mp hslot
    have hmem : (name, slot) ∈ (ofRules rules).slots := by simp [hslots]
    exact ⟨slot, rfl, List.mem_zipIdx_iff_getElem?.mp (List.mem_reverse.mp hmem)⟩

theorem lookup_slots_of_not_mem {name : String} (h : name ∉ intentionNames rules) :
    (ofRules rules).slots.lookup name = none := by
  rw [List.lookup_eq_none_iff]
  rintro ⟨other, i⟩ hmem
  have hother : other ∈ intentionNames rules :=
    List.mem_of_getElem? (List.mem_zipIdx_iff_getElem?.mp (List.mem_reverse.mp hmem))
  rw [bne_iff_ne]
  rintro rfl
  exact h hother

theorem lookup_functions (function : String) : (ofRules rules).functions.lookup function =
    (intentionNames rules).reverse.find? (identifier · = function) := by
  unfold ofRules
  generalize (intentionNames rules).reverse = names
  induction names with
  | nil => rfl
  | cons name names ih =>
    rw [List.map_cons, List.lookup_cons, List.find?_cons, ih]
    by_cases h : identifier name = function
    · simp [h]
    · simp [h, beq_false_of_ne (Ne.symm h)]

/-- A rule of a known intention is put into the group of that intention. -/
theorem modify_groups {slot : Nat}
    (h : (intentionNames rules)[slot]? = some rule.intention.name) :
    (ofRules rules).groups.modify slot
        (fun group => { group with rules := group.rules ++ [rule] }) =
      (intentionNames rules).map (Group.ofName (rules ++ [rule])) := by
  apply List.ext_getElem?
  intro i
  rw [List.getElem?_modify, ofRules, List.getElem?_map, List.getElem?_map]
  cases hi : (intentionNames rules)[i]? with
  | none => rfl
  | some name =>
    by_cases heq : slot = i
    · subst heq
      obtain rfl := Option.some.inj (h.symm.trans hi)
      simp [Group.ofName, rulesOf_concat]
    · -- names are different, so no other group gets the rule
      have hne : rule.intention.name ≠ name := by
        rintro rfl
        obtain ⟨hlt, -⟩ := List.getElem?_eq_some_iff.mp h
        exact heq ((List.getElem?_inj hlt (nodup_intentionNames rules)).mp (h.trans hi.symm))
      simp [Group.ofName, rulesOf_concat, heq, hne]

/-- **One step of the pass.** -/
theorem add_ofRules (rules : List Rule) (rule : Rule) :
    (ofRules rules).add rule =
      (fun _ => ofRules (rules ++ [rule])) <$> checkFunctions (intentionNames rules).reverse
        (if rule.intention.name ∈ intentionNames rules then [] else [rule.intention.name]) := by
  by_cases hmem : rule.intention.name ∈ intentionNames rules
  · obtain ⟨slot, hslot, hname⟩ := lookup_slots hmem
    rw [add, hslot, if_pos hmem]
    dsimp only
    rw [modify_groups hname]
    simp only [checkFunctions, ofRules, intentionNames_concat_of_mem hmem]
    rfl
  · rw [add, lookup_slots_of_not_mem hmem, if_neg hmem]
    dsimp only
    rw [lookup_functions, checkFunctions]
    cases (intentionNames rules).reverse.find? (identifier · = identifier rule.intention.name) with
    | some first => rfl
    | none =>
      have hgroups : (intentionNames rules).map (Group.ofName (rules ++ [rule])) =
          (intentionNames rules).map (Group.ofName rules) := by
        refine List.map_congr_left fun name hname => ?_
        have hne : rule.intention.name ≠ name := by
          rintro rfl
          exact hmem hname
        simp [Group.ofName, rulesOf_concat, hne]
      simp [ofRules, intentionNames_concat_of_not_mem hmem, hgroups, Group.ofName, rulesOf_concat,
        rulesOf_eq_nil hmem, checkFunctions, List.zipIdx_append]

/-- **The whole pass.** It is refused at the first name whose function is that of a name before. -/
theorem foldlM_add (rules : List Rule) : rules.foldlM add empty =
    (fun _ => ofRules rules) <$> checkFunctions [] (intentionNames rules) := by
  induction rules using List.reverseRecOn with
  | nil => rfl
  | append_singleton rules rule ih =>
    rw [List.foldlM_append, ih]
    by_cases hmem : rule.intention.name ∈ intentionNames rules
    · rw [intentionNames_concat_of_mem hmem]
      cases checkFunctions [] (intentionNames rules) with
      | error e => rfl
      | ok u =>
        show (ofRules rules).add rule >>= pure = _
        rw [bind_pure, add_ofRules, if_pos hmem]
        rfl
    · rw [intentionNames_concat_of_not_mem hmem, checkFunctions_append]
      cases checkFunctions [] (intentionNames rules) with
      | error e => rfl
      | ok u =>
        show (ofRules rules).add rule >>= pure = _
        rw [bind_pure, add_ofRules, if_neg hmem, List.append_nil]
        rfl

end Grouping

/-! ## The groups and the methods of a program -/

theorem groupsOf_eq (rules : List Rule) : groupsOf rules =
    (fun _ => (intentionNames rules).map (Group.ofName rules)) <$>
      checkFunctions [] (intentionNames rules) := by
  rw [groupsOf, Grouping.foldlM_add]
  cases checkFunctions [] (intentionNames rules) with
  | error e => rfl
  | ok u => rfl

/-- **The methods of a program** are made from the rules of each intention. -/
theorem ofProgram_eq (program : Program) : ofProgram program =
    checkFunctions [] (intentionNames program.rules) >>= fun _ =>
      (intentionNames program.rules).mapM fun name =>
        Method.ofRules name (rulesOf program.rules name) := by
  rw [ofProgram, groupsOf_eq]
  cases checkFunctions [] (intentionNames program.rules) with
  | error e => rfl
  | ok u => exact List.mapM_map

end CausalRules.Imitation
