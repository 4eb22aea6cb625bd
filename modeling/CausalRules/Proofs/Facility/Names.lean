import Mathlib.Data.List.Infix
import CausalRules.Facility.Text
import CausalRules.Proofs.Facility.Blocks
import CausalRules.Proofs.Rule
import CausalRules.Proofs.Script.Names
import CausalRules.Rule.Read

/-!
# Names inside a facility block

A block assigns what its condition needs to variables: `all_t` for the objects of a type `t`, and
`v_type` for the type of the object that `v` stands for. `Store` keeps what is computed by what
computes it; the script keeps it by name, and two setups may have one name.

- `setup_of_ofRule`: the setups of a block are those for the operands `ALL` and `TYPE` of its rule.
- `Setup.SharesName`, `name_eq_iff`: when two setups assign one variable.
- `name_mem_causesNames_iff`: when a setup assigns a name that the function around it uses.
- `assign?`, `assigned_of_mem`: what the variables hold after the assignments, and when that is what
  each setup computed.
- `ofProgram_setup`: all of it, for every block of a program.
- `hiding_setup`: a block in which one type hides another, so that a cause is lost.
-/

namespace CausalRules

open Script (Constant identifier membersName underscored SharesIdentifier)

namespace Facility

/-! ## What is computed for a rule -/

/-- What has to be computed for an operand, when its variable has a slot. -/
def neededFor (slots : Slots) : Operand → Option Setup
  | .all typeName => some (.members typeName)
  | .type variableName => (slots.slot? variableName).map (.typeOf variableName)
  | .value _ | .list _ => none

section Setups

variable {slots : Slots} {position : Nat}

theorem slot?_of_slotOf {name : String} {slot : Slot} (h : slotOf slots position name = .ok slot) :
    slots.slot? name = some slot := by
  unfold slotOf at h
  split at h
  · rename_i found hfound
    rw [hfound, Except.ok.inj h]
  · cases h

/-- A term needs what its operand needs. -/
theorem setup_of_term {operand : Operand} {t : Term} (h : term slots position operand = .ok t) :
    t.setup = (neededFor slots operand).toList := by
  unfold term at h
  split at h
  · obtain ⟨slot, -, h⟩ := bind_eq_ok.mp h
    rw [← pure_eq_ok.mp h]
    rfl
  · rw [← pure_eq_ok.mp h]
    rfl
  · cases h
  · cases h
  · split at h
    · rw [← pure_eq_ok.mp h]
      rfl
    · cases h
  · obtain ⟨slot, hslot, h⟩ := bind_eq_ok.mp h
    rw [← pure_eq_ok.mp h, neededFor, slot?_of_slotOf hslot]
    rfl
  · cases h
  · cases h

theorem setup_of_membersTest {op : Comparison} {typeName : String} {items : List Arg} {t : Test}
    (h : membersTest slots position op typeName items = .ok t) : t.setup = [.members typeName] := by
  unfold membersTest at h
  split at h
  · obtain ⟨parts, -, h⟩ := bind_eq_ok.mp h
    rw [← pure_eq_ok.mp h]
    rfl
  · cases h

/-- A test needs what the operands of its predicate need. -/
theorem setup_of_test {p : Predicate} {t : Test} (h : test slots p = .ok t) :
    t.setup = p.operands.filterMap (neededFor slots) := by
  unfold test at h
  split at h
  · rw [← pure_eq_ok.mp h]
    rfl
  · cases h
  · split at h
    · exact setup_of_membersTest h
    · exact setup_of_membersTest h
    · cases h
    · cases h
    · cases h
    · cases h
    · split at h
      · cases h
      · obtain ⟨left, hl, h⟩ := bind_eq_ok.mp h
        obtain ⟨right, hr, h⟩ := bind_eq_ok.mp h
        rw [← pure_eq_ok.mp h, Test.setup, setup_of_term hl, setup_of_term hr]
        rw [List.filterMap_eq_flatMap_toList]
        simp [Predicate.operands]

theorem setup_of_guard {c : Condition} {g : Formula Test} (h : guard slots c = .ok g) :
    g.atoms.flatMap Test.setup =
      (c.atoms.flatMap Predicate.operands).filterMap (neededFor slots) := by
  obtain ⟨pairs, rfl, rfl, hpairs⟩ := exists_pairs_of_guard h
  rw [Formula.atoms_map, Formula.atoms_map, List.filterMap_flatMap, List.flatMap_map,
    List.flatMap_map]
  exact List.flatMap_congr fun pair hpair => setup_of_test (hpairs pair hpair)

/-- **A block computes what the operands of its rule need**, each value once. -/
theorem setup_of_ofRule {rule : Rule} {block : Block} (h : Block.ofRule rule = .ok block) :
    block.setup =
      (rule.operands.filterMap (neededFor (Slots.ofEffects rule.effects))).eraseDups := by
  obtain ⟨-, -, -, hguard⟩ := eq_of_ofRule h
  rw [Block.setup, Rule.operands]
  cases hc : rule.condition with
  | none =>
    rw [hc] at hguard
    rw [← pure_eq_ok.mp hguard]
    rfl
  | some c =>
    rw [hc] at hguard
    obtain ⟨g, hg, hsome⟩ := map_eq_ok.mp hguard
    rw [← hsome]
    exact congrArg List.eraseDups (setup_of_guard hg)

end Setups

/-! ## One name for two setups -/

/-- The variable for the objects of a type `t` is also that for the type of `v`: either both are
`all_type`, or what is between `all_` and `_type` belongs to both names. -/
def MembersAsType (t v : String) : Prop :=
  v = "all" ∧ t = "type" ∨ ∃ mid, identifier v = "all_" ++ mid ∧ identifier t = mid ++ "_type"

/-- Two setups assign the same variable. -/
def Setup.SharesName : Setup → Setup → Prop
  | .members s, .members t => SharesIdentifier s t
  | .typeOf v _, .typeOf w _ => SharesIdentifier v w
  | .members t, .typeOf v _ | .typeOf v _, .members t => MembersAsType t v

/-- What may be both the end of `all_` and the beginning of `_type`. -/
theorem overlap_all_type :
    ∀ bs ∈ "all_".toList.tails, bs <+: "_type".toList → bs = [] ∨ bs = ['_'] := by
  decide

theorem membersName_eq_typeOfName_iff {t v : String} :
    membersName t = typeOfName v ↔ MembersAsType t v := by
  constructor
  · intro h
    have hlist : "all_".toList ++ (identifier t).toList =
        (identifier v).toList ++ "_type".toList := by
      rw [← String.toList_append, ← String.toList_append]
      exact congrArg String.toList h
    rcases List.append_eq_append_iff.mp hlist with ⟨mid, hv, ht⟩ | ⟨bs, hall, htype⟩
    · right
      refine ⟨String.ofList mid, ?_, ?_⟩
      · apply String.toList_inj.mp
        simp [hv]
      · apply String.toList_inj.mp
        simp [ht]
    · -- `all_` reaches into `_type`, by nothing or by the underscore
      have hsuffix : bs ∈ "all_".toList.tails := by
        rw [hall, List.mem_tails]
        exact List.suffix_append _ _
      have hprefix : bs <+: "_type".toList := by
        rw [htype]
        exact List.prefix_append _ _
      rcases overlap_all_type bs hsuffix hprefix with rfl | rfl
      · right
        refine ⟨"", ?_, ?_⟩
        · apply String.toList_inj.mp
          simpa using hall.symm
        · apply String.toList_inj.mp
          simpa using htype.symm
      · left
        have hv : identifier v = "all" := by
          apply String.toList_inj.mp
          exact (List.append_cancel_right hall).symm
        have ht : identifier t = "type" := by
          apply String.toList_inj.mp
          exact (List.cons.inj htype).2.symm
        exact ⟨Script.eq_of_identifier_eq (by decide) hv, Script.eq_of_identifier_eq (by decide) ht⟩
  · rintro (⟨rfl, rfl⟩ | ⟨mid, hv, ht⟩)
    · rfl
    · rw [membersName, typeOfName, hv, ht, String.append_assoc]

/-- **When two setups assign the same variable.** -/
theorem name_eq_iff {s t : Setup} : s.name = t.name ↔ s.SharesName t := by
  cases s with
  | members s =>
    cases t with
    | members t => exact Script.membersName_inj
    | typeOf v slot => exact membersName_eq_typeOfName_iff
  | typeOf v slot =>
    cases t with
    | members t => exact eq_comm.trans membersName_eq_typeOfName_iff
    | typeOf w slot' =>
      show typeOfName v = typeOfName w ↔ SharesIdentifier v w
      rw [typeOfName, typeOfName, String.append_left_inj, Script.identifier_eq_iff]

/-- The names that the function around the blocks uses. -/
def causesNames : List String :=
  ["lookup_type", "states", "actions", "arguments", "g", "v"]

/-- One of these names ends like the variable for a type, and none begins like that for objects. -/
theorem causesNames_ends : ∀ w ∈ causesNames, ¬ "all_".toList <+: w.toList ∧
    ("_type".toList <:+ w.toList → w = "lookup" ++ "_type") := by
  decide

/-- **Only the type of a variable `lookup` is put where the function finds something else.** -/
theorem name_mem_causesNames_iff {s : Setup} :
    s.name ∈ causesNames ↔ ∃ slot, s = .typeOf "lookup" slot := by
  constructor
  · intro h
    cases s with
    | members t =>
      have hall : "all_".toList <+: (membersName t).toList := by
        rw [membersName, String.toList_append]
        exact List.prefix_append _ _
      exact absurd hall (causesNames_ends _ h).1
    | typeOf v slot =>
      have htype : "_type".toList <:+ (typeOfName v).toList := by
        rw [typeOfName, String.toList_append]
        exact List.suffix_append _ _
      have hlookup : identifier v ++ "_type" = "lookup" ++ "_type" := (causesNames_ends _ h).2 htype
      have hv : v = "lookup" :=
        Script.eq_of_identifier_eq (by decide) ((String.append_left_inj _).mp hlookup)
      exact ⟨slot, by rw [hv]⟩
  · rintro ⟨slot, rfl⟩
    show "lookup_type" ∈ causesNames
    decide

/-! ## What the variables hold -/

/-- The names that the function around the blocks assigns. An assignment in one block makes its name
local to the whole function. -/
def localNames (blocks : List Block) : List String :=
  blocks.flatMap fun block => block.setup.map Setup.name

section Assign

variable {V : Type} {m : Interpretation V} {scene : Scene V} {arguments : List (List V)}
  {locals : List String} {setups : List Setup}

/-- What a setup computes where some names are local: there is no function to look a type up with
when that name is one of them. -/
def Setup.computed? (m : Interpretation V) (scene : Scene V) (arguments : List (List V))
    (locals : List String) (setup : Setup) : Option (Content V) :=
  match setup with
  | .members _ => setup.value? m scene arguments
  | .typeOf _ _ => if "lookup_type" ∈ locals then none else setup.value? m scene arguments

theorem Setup.computed?_eq (h : "lookup_type" ∉ locals) (setup : Setup) :
    setup.computed? m scene arguments locals = setup.value? m scene arguments := by
  cases setup with
  | members => rfl
  | typeOf => exact if_neg h

/-- What variables hold after setups were run in order. A later assignment to a variable replaces an
earlier one. -/
def assign? (m : Interpretation V) (scene : Scene V) (arguments : List (List V))
    (locals : List String) (setups : List Setup) : Option (String → Option (Content V)) := do
  let computed ← setups.mapM fun setup =>
    (setup.name, ·) <$> setup.computed? m scene arguments locals
  return fun name => computed.reverse.lookup name

/-- Setups that run through assign something, whatever their names. -/
theorem exists_assign?_of_runSetups (hlocals : "lookup_type" ∉ locals) {store : Store V}
    (h : runSetups m scene arguments setups = some store) :
    ∃ held, assign? m scene arguments locals setups = some held := by
  have hvalues := exists_runSetups_iff.mp ⟨store, h⟩
  have hcomputed : ∃ computed, setups.mapM (fun setup =>
      (setup.name, ·) <$> setup.computed? m scene arguments locals) = some computed := by
    rw [exists_mapM_eq_some_iff]
    intro setup hsetup
    obtain ⟨content, hcontent⟩ := hvalues setup hsetup
    refine ⟨(setup.name, content), ?_⟩
    rw [setup.computed?_eq hlocals, hcontent]
    rfl
  obtain ⟨computed, hcomputed⟩ := hcomputed
  exact ⟨_, Option.bind_eq_some_iff.mpr ⟨computed, hcomputed, rfl⟩⟩

/-- A variable holds what its setup computed, when no other setup assigns it. -/
theorem assigned_of_mem {held : String → Option (Content V)}
    (h : assign? m scene arguments locals setups = some held) {s : Setup} (hs : s ∈ setups)
    (hname : ∀ t ∈ setups, t.name = s.name → t = s) :
    held s.name = s.computed? m scene arguments locals := by
  obtain ⟨computed, hcomputed, hheld⟩ := Option.bind_eq_some_iff.mp h
  rw [← Option.some.inj hheld]
  -- the last assignment to a name is the first one from the end
  have hlast := List.forall₂_reverse_iff.mpr (mapM_eq_some_iff.mp hcomputed)
  refine lookup_of_named hlast (List.mem_reverse.mpr hs) fun t ht heq => ?_
  rw [hname t (List.mem_reverse.mp ht) heq]

end Assign

/-! ## Blocks of a program -/

/-- **What the variables of a block mean.** A block computes what the operands `ALL` and `TYPE` of
its rule need. Two different computations are assigned to one variable exactly when they share a
name, and only the type of a variable `lookup` is assigned to a name that is used otherwise. Where
neither happens, each variable holds what was computed for it, and the tests read the same from the
variables as from the store. -/
theorem ofProgram_setup {program : Program} {blocks : List Block}
    (h : ofProgram program = .ok blocks) {n : Nat} {rule : Rule}
    (hrule : program.rules[n]? = some rule) :
    ∃ block, blocks[n]? = some block ∧
      block.setup =
        (rule.operands.filterMap (neededFor (Slots.ofEffects rule.effects))).eraseDups ∧
      (∀ s ∈ block.setup, ∀ t ∈ block.setup, s.value ≠ t.value →
        (s.name = t.name ↔ s.SharesName t)) ∧
      (∀ s ∈ block.setup, s.name ∈ causesNames ↔ ∃ slot, s = .typeOf "lookup" slot) ∧
      ((∀ s ∈ block.setup, ∀ t ∈ block.setup, s ≠ t → ¬ s.SharesName t) →
        (∀ name ∈ causesNames, name ∉ localNames blocks) →
        ∀ (V : Type) (m : Interpretation V) (scene : Scene V) (arguments : List (List V))
          (store : Store V), block.store? m scene arguments = some store →
          ∃ held, assign? m scene arguments (localNames blocks) block.setup = some held ∧
            (∀ s ∈ block.setup, held s.name = s.value? m scene arguments) ∧
            ∀ g, block.guard = some g → ∀ t ∈ g.atoms,
              t.truth? m arguments (fun s => held s.name) = t.truth? m arguments store) := by
  obtain ⟨block, hblock, hof⟩ := getElem?_of_forall₂ (mapM_eq_ok_iff.mp h) hrule
  refine ⟨block, hblock, setup_of_ofRule hof, fun s _ t _ _ => name_eq_iff,
    fun s _ => name_mem_causesNames_iff, ?_⟩
  intro hdistinct hcauses V m scene arguments store hstore
  have hlocals : "lookup_type" ∉ localNames blocks := hcauses _ (by decide)
  obtain ⟨held, hheld⟩ := exists_assign?_of_runSetups hlocals hstore
  have hvalue : ∀ s ∈ block.setup, held s.name = s.value? m scene arguments := by
    intro s hs
    rw [← s.computed?_eq hlocals]
    refine assigned_of_mem hheld hs fun t ht hname => ?_
    by_contra hne
    exact hdistinct t ht s hs hne (name_eq_iff.mp hname)
  refine ⟨held, hheld, hvalue, ?_⟩
  intro g hg t ht
  -- a test reads only what its own setups put there
  refine truth?_congr fun s hs => ?_
  have hmem : s ∈ block.setup := by
    rw [Block.setup, hg, List.mem_eraseDups]
    exact List.mem_flatMap.mpr ⟨t, ht, hs⟩
  rw [hvalue s hmem, store_eq_of_runSetups hstore hmem]

/-- The block of `stacking`. -/
def stackingBlock : Block where
  effects := ["grasp", "release"]
  guard := some (.chain
    (.atom (.compare (.typeOf "obj" ⟨1, 0⟩) .equal (.constant (.text "block")))) .and
    (.atom (.sameMembers "table" [.item ⟨1, 1⟩])))
  intention := "stack"
  args := [.item ⟨1, 1⟩, .item ⟨1, 0⟩, .constant (.text "top")]

theorem ofProgram_stacking : ofProgram ⟨[stacking]⟩ = .ok [stackingBlock] :=
  rfl

/-- For stacking, the type of `obj` and the tables have variables of their own. -/
theorem stacking_setup :
    let scene : Scene Constant := [(.text "t", .text "table"), (.text "b", .text "block")]
    let arguments : List (List Constant) := [[.text "b"], [.text "b", .text "t"]]
    ∃ held, assign? .literal scene arguments (localNames [stackingBlock]) stackingBlock.setup =
        some held ∧
      held "obj_type" = some (.single (.text "block")) ∧
      held "all_table" = some (.several [.text "t"]) := by
  intro scene arguments
  obtain ⟨block, hblock, -, hnames, hcauses, hassign⟩ :=
    ofProgram_setup ofProgram_stacking (n := 0) rfl
  obtain rfl := Option.some.inj hblock
  have hsetup : stackingBlock.setup = [.typeOf "obj" ⟨1, 0⟩, .members "table"] := by
    decide
  have hdistinct : ∀ s ∈ stackingBlock.setup, ∀ t ∈ stackingBlock.setup,
      s ≠ t → ¬ s.SharesName t := by
    simp only [← name_eq_iff]
    decide
  obtain ⟨store, hstore⟩ : ∃ store, stackingBlock.store? .literal scene arguments = some store :=
    ⟨_, rfl⟩
  obtain ⟨held, hheld, hvalue, -⟩ :=
    hassign hdistinct (by decide) Constant .literal scene arguments store hstore
  rw [hsetup] at hvalue
  exact ⟨held, hheld, hvalue _ (List.mem_cons_self ..),
    hvalue _ (List.mem_cons_of_mem _ (List.mem_cons_self ..))⟩

/-- Something is put on something else. -/
def puttingText : String :=
  "RULES \x7b if (TYPE(a-b) = 'block' && TYPE(a_b) = 'table'): " ++
    "put(a-b, a_b) := lift(a-b), drop(a_b) \x7d"

/-- The rule of `puttingText`. -/
def putting : Rule where
  condition := some (.chain
    (.atom (.compare (.type "a-b") .equal (.value (.literal "block")) 12)) .and
    (.atom (.compare (.type "a_b") .equal (.value (.literal "table")) 35)))
  intention := ⟨"put", [.variable "a-b", .variable "a_b"], 57⟩
  effects := [⟨"lift", [.variable "a-b"], 74⟩, ⟨"drop", [.variable "a_b"], 85⟩]
  position := 8

/-- The block of `putting`. -/
def puttingBlock : Block where
  effects := ["lift", "drop"]
  guard := some (.chain
    (.atom (.compare (.typeOf "a-b" ⟨0, 0⟩) .equal (.constant (.text "block")))) .and
    (.atom (.compare (.typeOf "a_b" ⟨1, 0⟩) .equal (.constant (.text "table")))))
  intention := "put"
  args := [.item ⟨0, 0⟩, .item ⟨1, 0⟩]

/-- The second type hides the first one, so the block does not find the cause. -/
theorem hiding_setup :
    let scene : Scene Constant := [(.text "t", .text "table"), (.text "b", .text "block")]
    let arguments : List (List Constant) := [[.text "b"], [.text "t"]]
    ∃ s ∈ puttingBlock.setup, ∃ t ∈ puttingBlock.setup, ∃ g held,
      Program.read ⟨100, 1⟩ puttingText = .ok ⟨[putting]⟩ ∧
      ofProgram ⟨[putting]⟩ = .ok [puttingBlock] ∧
      s.value ≠ t.value ∧ s.name = t.name ∧
      puttingBlock.holds? .literal scene arguments = some true ∧
      puttingBlock.guard = some g ∧
      assign? .literal scene arguments (localNames [puttingBlock]) puttingBlock.setup = some held ∧
      held s.name ≠ s.value? .literal scene arguments ∧
      g.value? (Test.truth? .literal arguments fun setup => held setup.name) = some false := by
  intro scene arguments
  have hread : Program.read ⟨100, 1⟩ puttingText = .ok ⟨[putting]⟩ := by
    decide +kernel
  refine ⟨.typeOf "a-b" ⟨0, 0⟩, by decide, .typeOf "a_b" ⟨1, 0⟩, by decide, _, _, hread, rfl,
    by decide, by decide, by decide, rfl, rfl, by decide, by decide⟩

end Facility

end CausalRules
