import CausalRules.Facility.Text
import CausalRules.Proofs.Facility.Tests

/-!
# What a facility block can express

A block sees the observed effects and nothing else. So the variables of an intention and of a
condition have to stand in some effect, and what cannot be written in terms of observed arguments is
refused. What is left is said here of the rule alone.

- `Occurs`: a variable is an argument of some effect.
- `ArgExpressible`, `ArgsExpressible`: arguments of a tuple; a continuation needs a variable before it.
- `Scalar`, `PredicateExpressible`, `RuleExpressible`: operands, predicates and rules.
- `exists_pieces_iff`, `exists_term_iff`, `exists_test_iff`, `exists_guard_iff`: what each step of the
  way to a block accepts.
- `exists_domain_iff`: a program is accepted exactly when all its rules can be expressed, and is
  refused for the first that cannot.
-/

namespace CausalRules.Facility

/-! ## What can be expressed -/

/-- A variable is an argument of some effect, by itself. -/
def Occurs (effects : List Action) (name : String) : Prop :=
  ∃ effect ∈ effects, .variable name ∈ effect.args

/-- An argument of a tuple, given the one before it. -/
inductive ArgExpressible (effects : List Action) (previous : Option Arg) : Arg → Prop
  | variable {name : String} : Occurs effects name → ArgExpressible effects previous (.variable name)
  | literal (text : String) : ArgExpressible effects previous (.literal text)
  | number (value : Number) : ArgExpressible effects previous (.number value)
  | continuation (offset : Nat) {name : String} : previous = some (.variable name) →
      Occurs effects name → ArgExpressible effects previous (.continuation offset)

/-- The arguments of a tuple, each after those before it. -/
def ArgsExpressible (effects : List Action) (args : List Arg) : Prop :=
  ∀ before arg after, args = before ++ arg :: after → ArgExpressible effects before.getLast? arg

/-- Operands that are single values. -/
inductive Scalar (effects : List Action) : Operand → Prop
  | variable {name : String} : Occurs effects name → Scalar effects (.value (.variable name))
  | type {name : String} : Occurs effects name → Scalar effects (.type name)
  | python (code : String) : Scalar effects (.value (.python code))
  | literal (text : String) : Scalar effects (.value (.literal text))
  | number (value : Number) : Scalar effects (.value (.number value))

/-- Operands that are the same whatever is observed. -/
inductive Fixed : Operand → Prop
  | literal (text : String) : Fixed (.value (.literal text))
  | number (value : Number) : Fixed (.value (.number value))

/-- Predicates: inline code, a comparison of all objects of a type with a list, or a comparison of
single values that are not both fixed. -/
inductive PredicateExpressible (effects : List Action) : Predicate → Prop
  | python (code : String) (position : Nat) :
      PredicateExpressible effects (.bare (.value (.python code)) position)
  | all (typeName : String) {items : List Arg} (position : Nat) : ArgsExpressible effects items →
      PredicateExpressible effects (.compare (.all typeName) .equal (.list items) position)
  | list {items : List Arg} (typeName : String) (position : Nat) : ArgsExpressible effects items →
      PredicateExpressible effects (.compare (.list items) .equal (.all typeName) position)
  | scalars {left right : Operand} (op : Comparison) (position : Nat) : Scalar effects left →
      Scalar effects right → ¬(Fixed left ∧ Fixed right) →
      PredicateExpressible effects (.compare left op right position)

/-- Rules: the arguments of the intention, and every predicate of the condition. -/
structure RuleExpressible (rule : Rule) : Prop where
  intention : ArgsExpressible rule.effects rule.intention.args
  condition : ∀ c, rule.condition = some c → ∀ p ∈ c.atoms, PredicateExpressible rule.effects p

variable {effects : List Action} {position : Nat}

/-! ## Arguments -/

/-- A variable has a slot when it stands in some effect. -/
theorem exists_slotOf_iff {name : String} :
    (∃ slot, slotOf (Slots.ofEffects effects) position name = .ok slot) ↔ Occurs effects name := by
  constructor
  · rintro ⟨slot, h⟩
    obtain ⟨effect, heffect, harg⟩ := exists_of_slotOf h
    exact ⟨effect, List.mem_of_getElem? heffect, List.mem_of_getElem? harg⟩
  · rintro ⟨effect, heffect, harg⟩
    obtain ⟨i, hi⟩ := List.mem_iff_getElem?.mp heffect
    obtain ⟨j, hj⟩ := List.mem_iff_getElem?.mp harg
    have hmem : (name, Slot.mk i j) ∈ Slots.ofEffects effects := mem_ofEffects_iff.mpr ⟨effect, hi, hj⟩
    unfold slotOf Slots.slot?
    cases hlookup : (Slots.ofEffects effects).lookup name with
    | some slot => exact ⟨slot, rfl⟩
    | none =>
      have hne := List.lookup_eq_none_iff.mp hlookup _ hmem
      simp at hne

theorem argExpressible_variable_iff {previous : Option Arg} {name : String} :
    ArgExpressible effects previous (.variable name) ↔ Occurs effects name := by
  constructor
  · intro h
    cases h with
    | «variable» hname => exact hname
  · exact .variable

/-- Arguments that follow a given one. -/
def ExpressibleAfter (effects : List Action) (previous : Option Arg) (args : List Arg) : Prop :=
  ∀ before arg after, args = before ++ arg :: after →
    ArgExpressible effects (before.getLast?.or previous) arg

theorem expressibleAfter_nil {previous : Option Arg} : ExpressibleAfter effects previous [] := by
  intro before arg after h
  simp at h

theorem expressibleAfter_cons {previous : Option Arg} {arg : Arg} {rest : List Arg} :
    ExpressibleAfter effects previous (arg :: rest) ↔
      ArgExpressible effects previous arg ∧ ExpressibleAfter effects (some arg) rest := by
  have hlast : ∀ before : List Arg,
      (arg :: before).getLast?.or previous = before.getLast?.or (some arg) := by
    intro before
    rw [List.getLast?_cons]
    cases before.getLast? <;> rfl
  constructor
  · intro h
    refine ⟨h [] arg rest rfl, fun before next after hsplit => ?_⟩
    rw [← hlast]
    exact h (arg :: before) next after (congrArg _ hsplit)
  · rintro ⟨harg, hrest⟩ before next after hsplit
    cases before with
    | nil =>
      obtain ⟨rfl, -⟩ := List.cons.inj hsplit
      exact harg
    | cons first before =>
      obtain ⟨rfl, hsplit'⟩ := List.cons.inj hsplit
      rw [hlast]
      exact hrest before next after hsplit'

/-- A tuple has pieces exactly when its arguments can be expressed. -/
theorem exists_pieces_of_previous {previous : Option Arg} {args : List Arg}
    (hfirst : ∀ offset rest, args = .continuation offset :: rest →
      ∀ name, previous ≠ some (.variable name)) :
    (∃ parts, pieces (Slots.ofEffects effects) position args = .ok parts) ↔
      ExpressibleAfter effects previous args := by
  -- a variable takes the continuation after it along, so `args` begins with one only where it
  -- follows no variable
  fun_induction pieces (Slots.ofEffects effects) position args generalizing previous with
  | case1 => exact ⟨fun _ => expressibleAfter_nil, fun _ => ⟨[], rfl⟩⟩
  | case2 name offset rest ih =>
    have hrest := @ih (some (.continuation offset)) fun _ _ _ _ => by simp
    rw [expressibleAfter_cons, expressibleAfter_cons, ← hrest, exists_bind_bind_pure_eq_ok,
      exists_slotOf_iff, argExpressible_variable_iff]
    constructor
    · rintro ⟨hname, hparts⟩
      exact ⟨hname, .continuation offset rfl hname, hparts⟩
    · rintro ⟨hname, -, hparts⟩
      exact ⟨hname, hparts⟩
  | case3 name rest hrest ih =>
    have hafter := @ih (some (.variable name)) fun offset rest' heq =>
      absurd heq (hrest offset rest')
    rw [expressibleAfter_cons, ← hafter, exists_bind_bind_pure_eq_ok, exists_slotOf_iff,
      argExpressible_variable_iff]
  | case4 text rest ih =>
    have hrest := @ih (some (.literal text)) fun _ _ _ _ => by simp
    rw [expressibleAfter_cons, ← hrest, exists_bind_pure_eq_ok]
    exact (and_iff_right (.literal text)).symm
  | case5 value rest ih =>
    have hrest := @ih (some (.number value)) fun _ _ _ _ => by simp
    rw [expressibleAfter_cons, ← hrest, exists_bind_pure_eq_ok]
    exact (and_iff_right (.number value)).symm
  | case6 offset rest =>
    rw [expressibleAfter_cons]
    constructor
    · rintro ⟨parts, h⟩
      cases h
    · rintro ⟨hcontinuation, -⟩
      cases hcontinuation with
      | continuation _ hprevious _ => exact absurd hprevious (hfirst offset rest rfl _)
  | case7 args rest =>
    rw [expressibleAfter_cons]
    constructor
    · rintro ⟨parts, h⟩
      cases h
    · rintro ⟨hstate, -⟩
      cases hstate
  | case8 code rest =>
    rw [expressibleAfter_cons]
    constructor
    · rintro ⟨parts, h⟩
      cases h
    · rintro ⟨hpython, -⟩
      cases hpython

theorem exists_pieces_iff {args : List Arg} :
    (∃ parts, pieces (Slots.ofEffects effects) position args = .ok parts) ↔
      ArgsExpressible effects args := by
  have hnone : ∀ offset rest, args = .continuation offset :: rest →
      ∀ name, (none : Option Arg) ≠ some (.variable name) := fun _ _ _ _ => nofun
  rw [exists_pieces_of_previous hnone]
  simp only [ExpressibleAfter, ArgsExpressible, Option.or_none]

/-! ## Predicates -/

/-- An operand has a term exactly when it is a single value that a block can see. -/
theorem exists_term_iff {operand : Operand} :
    (∃ t, term (Slots.ofEffects effects) position operand = .ok t) ↔ Scalar effects operand := by
  have refused : ∀ {e : EmitError} {operand : Operand},
      term (Slots.ofEffects effects) position operand = .error e → ¬Scalar effects operand →
      ((∃ t, term (Slots.ofEffects effects) position operand = .ok t) ↔ Scalar effects operand) := by
    intro e operand herror hscalar
    simp [herror, hscalar]
  cases operand with
  | value arg =>
    cases arg with
    | «variable» name =>
      rw [term, exists_bind_pure_eq_ok, exists_slotOf_iff]
      constructor
      · exact .variable
      · intro h
        cases h with
        | «variable» hname => exact hname
    | literal text => exact ⟨fun _ => .literal text, fun _ => ⟨_, rfl⟩⟩
    | number value => exact ⟨fun _ => .number value, fun _ => ⟨_, rfl⟩⟩
    | python code => exact ⟨fun _ => .python code, fun _ => ⟨_, rfl⟩⟩
    | state args => exact refused rfl nofun
    | continuation offset => exact refused rfl nofun
  | type name =>
    rw [term, exists_bind_pure_eq_ok, exists_slotOf_iff]
    constructor
    · exact .type
    · intro h
      cases h with
      | type hname => exact hname
  | all typeName => exact refused rfl nofun
  | list items => exact refused rfl nofun

theorem isConstant_iff {operand : Operand} : isConstant operand = true ↔ Fixed operand := by
  cases operand with
  | value arg =>
    cases arg with
    | literal text => exact ⟨fun _ => .literal text, fun _ => rfl⟩
    | number value => exact ⟨fun _ => .number value, fun _ => rfl⟩
    | «variable» | state | continuation | python => exact ⟨nofun, nofun⟩
  | all | type | list => exact ⟨nofun, nofun⟩

theorem Scalar.single {operand : Operand} (h : Scalar effects operand) : operand.Single := by
  cases h <;> trivial

/-- A list is compared with all objects of a type by `=` only. -/
theorem exists_membersTest_iff {op : Comparison} {typeName : String} {items : List Arg} :
    (∃ t, membersTest (Slots.ofEffects effects) position op typeName items = .ok t) ↔
      op = .equal ∧ ArgsExpressible effects items := by
  unfold membersTest
  by_cases hop : op = .equal
  · rw [if_pos hop, exists_bind_pure_eq_ok, and_iff_right hop, exists_pieces_iff]
  · rw [if_neg hop]
    constructor
    · rintro ⟨t, h⟩
      cases h
    · rintro ⟨h, -⟩
      exact absurd h hop

/-- Single values are compared unless both are fixed. -/
theorem exists_scalarTest_iff {left right : Operand} (hleft : left.Single) (hright : right.Single)
    {op : Comparison} :
    (∃ t, test (Slots.ofEffects effects) (.compare left op right position) = .ok t) ↔
      Scalar effects left ∧ Scalar effects right ∧ ¬(Fixed left ∧ Fixed right) := by
  have htest : test (Slots.ofEffects effects) (.compare left op right position) =
      if isConstant left && isConstant right then unsupported .twoConstants position
      else do
        let l ← term (Slots.ofEffects effects) position left
        let r ← term (Slots.ofEffects effects) position right
        return .compare l op r := by
    cases left with
    | all | list => exact hleft.elim
    | value | type =>
      cases right with
      | all | list => exact hright.elim
      | value | type => rfl
  rw [htest]
  by_cases hfixed : Fixed left ∧ Fixed right
  · rw [if_pos (by rw [isConstant_iff.mpr hfixed.1, isConstant_iff.mpr hfixed.2]; rfl)]
    constructor
    · rintro ⟨t, h⟩
      cases h
    · rintro ⟨-, -, h⟩
      exact absurd hfixed h
  · rw [if_neg (by rwa [Bool.and_eq_true, isConstant_iff, isConstant_iff]),
      exists_bind_bind_pure_eq_ok, exists_term_iff, exists_term_iff, and_iff_left hfixed]

/-- **A predicate has a test exactly when it can be expressed.** -/
theorem exists_test_iff {p : Predicate} :
    (∃ t, test (Slots.ofEffects effects) p = .ok t) ↔ PredicateExpressible effects p := by
  have refused : ∀ {e : EmitError} {p : Predicate},
      test (Slots.ofEffects effects) p = .error e → ¬PredicateExpressible effects p →
      ((∃ t, test (Slots.ofEffects effects) p = .ok t) ↔ PredicateExpressible effects p) := by
    intro e p herror hp
    simp [herror, hp]
  cases p with
  | bare operand position =>
    cases operand with
    | value arg =>
      cases arg with
      | python code => exact ⟨fun _ => .python code position, fun _ => ⟨_, rfl⟩⟩
      | «variable» | literal | number | continuation | state => exact refused rfl nofun
    | all | type | list => exact refused rfl nofun
  | compare left op right position =>
    cases left with
    | all typeName =>
      cases right with
      | list items =>
        show (∃ t, membersTest _ position op typeName items = .ok t) ↔ _
        rw [exists_membersTest_iff]
        constructor
        · rintro ⟨rfl, hitems⟩
          exact .all typeName position hitems
        · intro h
          cases h with
          | all _ _ hitems => exact ⟨rfl, hitems⟩
          | scalars _ _ hleft _ _ => cases hleft
      | value | all | type =>
        refine refused rfl fun h => ?_
        cases h with
        | scalars _ _ hleft _ _ => cases hleft
    | list items =>
      cases right with
      | all typeName =>
        show (∃ t, membersTest _ position op typeName items = .ok t) ↔ _
        rw [exists_membersTest_iff]
        constructor
        · rintro ⟨rfl, hitems⟩
          exact .list typeName position hitems
        · intro h
          cases h with
          | list _ _ hitems => exact ⟨rfl, hitems⟩
          | scalars _ _ hleft _ _ => cases hleft
      | value | type | list =>
        refine refused rfl fun h => ?_
        cases h with
        | scalars _ _ hleft _ _ => cases hleft
    | value | type =>
      cases right with
      | all | list =>
        refine refused rfl fun h => ?_
        cases h with
        | scalars _ _ _ hright _ => cases hright
      | value | type =>
        refine (exists_scalarTest_iff ?_ ?_).trans ⟨?_, fun h => ?_⟩
        · trivial
        · trivial
        · rintro ⟨hleft, hright, hfixed⟩
          exact .scalars op position hleft hright hfixed
        · cases h with
          | scalars _ _ hleft hright hfixed => exact ⟨hleft, hright, hfixed⟩

/-! ## Rules and programs -/

theorem exists_guard_iff {c : Condition} :
    (∃ g, guard (Slots.ofEffects effects) c = .ok g) ↔
      ∀ p ∈ c.atoms, PredicateExpressible effects p := by
  induction c with
  | atom p =>
    rw [guard, exists_map_eq_ok, exists_test_iff]
    exact List.forall_mem_singleton.symm
  | group inner ih =>
    rw [guard, exists_map_eq_ok]
    exact ih
  | chain left op right ihl ihr =>
    rw [guard, Formula.atoms, List.forall_mem_append, ← ihl, ← ihr, exists_bind_bind_pure_eq_ok]

/-- **A rule has a block exactly when it can be expressed.** -/
theorem exists_block_iff {rule : Rule} :
    (∃ block, Block.ofRule rule = .ok block) ↔ RuleExpressible rule := by
  have hguard : (∃ g, rule.condition.mapM (guard (Slots.ofEffects rule.effects)) = .ok g) ↔
      ∀ c, rule.condition = some c → ∀ p ∈ c.atoms, PredicateExpressible rule.effects p := by
    cases rule.condition with
    | none => exact ⟨fun _ => nofun, fun _ => ⟨none, rfl⟩⟩
    | some c =>
      show (∃ g, some <$> guard _ c = .ok g) ↔ _
      rw [exists_map_eq_ok, exists_guard_iff]
      constructor
      · rintro h _ ⟨⟩
        exact h
      · intro h
        exact h c rfl
  rw [Block.ofRule, exists_bind_bind_pure_eq_ok, exists_pieces_iff, hguard]
  exact ⟨fun ⟨hintention, hcondition⟩ => ⟨hintention, hcondition⟩,
    fun h => ⟨h.intention, h.condition⟩⟩

/-- A program is refused for what one of its rules is refused for. -/
theorem domain_eq_error_iff {program : Program} {e : EmitError} :
    Domain.ofProgram program = .error e ↔ program.rules.mapM Block.ofRule = .error e := by
  show (program.rules.mapM Block.ofRule >>= _) = _ ↔ _
  cases program.rules.mapM Block.ofRule with
  | error e' => exact ⟨congrArg _ ∘ Except.error.inj, congrArg _ ∘ Except.error.inj⟩
  | ok blocks => exact ⟨nofun, nofun⟩

/-- **A program is accepted exactly when each of its rules can be expressed**, whatever program it
is. Otherwise it is refused for its first rule that cannot be, as that rule would be by itself. -/
theorem exists_domain_iff (program : Program) :
    ((∃ domain, Domain.ofProgram program = .ok domain) ↔
      ∀ rule ∈ program.rules, RuleExpressible rule) ∧
    ∀ e, Domain.ofProgram program = .error e ↔
      ∃ before rule after, program.rules = before ++ rule :: after ∧
        (∀ earlier ∈ before, RuleExpressible earlier) ∧ ¬RuleExpressible rule ∧
        Domain.ofProgram ⟨[rule]⟩ = .error e := by
  constructor
  · show (∃ domain, program.rules.mapM Block.ofRule >>= _ = .ok domain) ↔ _
    simp only [exists_bind_eq_ok, ← exists_block_iff]
    rw [← exists_mapM_eq_ok_iff]
    exact exists_congr fun blocks => and_iff_left ⟨_, rfl⟩
  · intro e
    rw [domain_eq_error_iff, mapM_eq_error_iff]
    simp only [← exists_block_iff]
    have halone : ∀ rule, Domain.ofProgram ⟨[rule]⟩ = .error e ↔ Block.ofRule rule = .error e := by
      intro rule
      rw [domain_eq_error_iff, List.mapM_cons]
      cases Block.ofRule rule with
      | error e' => exact ⟨congrArg _ ∘ Except.error.inj, congrArg _ ∘ Except.error.inj⟩
      | ok block => exact ⟨nofun, nofun⟩
    constructor
    · rintro ⟨before, rule, after, hsplit, hbefore, hrule⟩
      refine ⟨before, rule, after, hsplit, hbefore, ?_, (halone rule).mpr hrule⟩
      rintro ⟨block, hblock⟩
      rw [hrule] at hblock
      cases hblock
    · rintro ⟨before, rule, after, hsplit, hbefore, -, hrule⟩
      exact ⟨before, rule, after, hsplit, hbefore, (halone rule).mp hrule⟩

end CausalRules.Facility
