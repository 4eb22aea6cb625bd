import CausalRules.Proofs.Layout
import CausalRules.Proofs.Meaning
import CausalRules.Proofs.Pruning
import CausalRules.Script.Literal

/-!
# Other names for the variables of a rule

A rule keeps its meaning when its variables get other names, as long as different ones stay
different. What is made from the rule and from the renamed rule is compared up to a relation `S`
between names: `S v w` says that `w` is in the second rule what `v` is in the first.

- `Rule.rename`: the rule with its variables renamed. Types and inline code keep their names.
- `Arg.Renamed`, `Operand.Renamed`, `Predicate.Renamed`, `Action.Renamed`, `Rule.Renamed`: the same but
  for variables, which correspond.
- `Names`: the correspondence that a renaming gives; `Rule.renamed_rename` says that a rule and the
  renamed one are the same but for it.
- `AnyError`: errors are not compared, so that two outcomes are the same result, or both failures.
-/

namespace CausalRules

/-! ## Renaming -/

section Rename

variable (σ : String → String)

mutual

/-- An argument with its variables renamed. -/
def Arg.rename : Arg → Arg
  | .variable name => .variable (σ name)
  | .literal text => .literal text
  | .number value => .number value
  | .continuation offset => .continuation offset
  | .state args => .state (Arg.listRename args)
  | .python code => .python code

/-- Arguments with their variables renamed. -/
def Arg.listRename : List Arg → List Arg
  | [] => []
  | arg :: args => arg.rename :: Arg.listRename args

end

/-- An operand with its variables renamed. -/
def Operand.rename : Operand → Operand
  | .value arg => .value (arg.rename σ)
  | .all typeName => .all typeName
  | .type name => .type (σ name)
  | .list items => .list (items.map (Arg.rename σ))

/-- A predicate with its variables renamed. -/
def Predicate.rename : Predicate → Predicate
  | .compare left op right position => .compare (left.rename σ) op (right.rename σ) position
  | .bare operand position => .bare (operand.rename σ) position

/-- An action with its variables renamed. -/
def Action.rename (action : Action) : Action :=
  { action with args := action.args.map (Arg.rename σ) }

/-- A rule with its variables renamed. -/
def Rule.rename (rule : Rule) : Rule where
  condition := rule.condition.map (Formula.map (Predicate.rename σ))
  intention := rule.intention.rename σ
  effects := rule.effects.map (Action.rename σ)
  position := rule.position

end Rename

/-! ## Variables -/

mutual

/-- The variables of an argument. -/
def Arg.variables : Arg → List String
  | .variable name => [name]
  | .state args => Arg.listVariables args
  | .literal _ | .number _ | .continuation _ | .python _ => []

/-- The variables of arguments. -/
def Arg.listVariables : List Arg → List String
  | [] => []
  | arg :: args => arg.variables ++ Arg.listVariables args

end

/-- The variables of an operand. -/
def Operand.variables : Operand → List String
  | .value arg => arg.variables
  | .all _ => []
  | .type name => [name]
  | .list items => items.flatMap Arg.variables

/-- The variables of an action. -/
def Action.variables (action : Action) : List String :=
  action.args.flatMap Arg.variables

/-- The predicates of the condition of a rule. -/
def Rule.predicates (rule : Rule) : List Predicate :=
  match rule.condition with
  | some condition => condition.atoms
  | none => []

/-- The variables of a rule, wherever they stand in it. -/
def Rule.allVariables (rule : Rule) : List String :=
  rule.predicates.flatMap (·.operands.flatMap Operand.variables) ++ rule.intention.variables ++
    rule.effects.flatMap Action.variables

/-! ## The same but for names -/

section Renamed

variable (S : String → String → Prop)

/-- The same argument, but for variables. What is in a state does not matter, as no target has
states. -/
inductive Arg.Renamed : Arg → Arg → Prop
  | variable {v w : String} (h : S v w) : Renamed (.variable v) (.variable w)
  | literal (text : String) : Renamed (.literal text) (.literal text)
  | number (value : Number) : Renamed (.number value) (.number value)
  | continuation (offset : Nat) : Renamed (.continuation offset) (.continuation offset)
  | state (args args' : List Arg) : Renamed (.state args) (.state args')
  | python (code : String) : Renamed (.python code) (.python code)

/-- The same operand, but for variables. -/
inductive Operand.Renamed : Operand → Operand → Prop
  | value {arg arg' : Arg} (h : arg.Renamed S arg') : Renamed (.value arg) (.value arg')
  | all (typeName : String) : Renamed (.all typeName) (.all typeName)
  | type {v w : String} (h : S v w) : Renamed (.type v) (.type w)
  | list {items items' : List Arg} (h : List.Forall₂ (Arg.Renamed S) items items') :
      Renamed (.list items) (.list items')

/-- The same predicate, but for variables. -/
inductive Predicate.Renamed : Predicate → Predicate → Prop
  | compare {left left' : Operand} (op : Comparison) {right right' : Operand} (position : Nat)
      (hleft : left.Renamed S left') (hright : right.Renamed S right') :
      Renamed (.compare left op right position) (.compare left' op right' position)
  | bare {operand operand' : Operand} (position : Nat) (h : operand.Renamed S operand') :
      Renamed (.bare operand position) (.bare operand' position)

/-- Conditions of one shape whose predicates are the same but for variables. -/
abbrev Condition.Renamed : Condition → Condition → Prop :=
  Formula.Rel (Predicate.Renamed S)

/-- The same action, but for variables. -/
structure Action.Renamed (a a' : Action) : Prop where
  name : a.name = a'.name
  args : List.Forall₂ (Arg.Renamed S) a.args a'.args
  position : a.position = a'.position

/-- The same rule, but for variables. -/
structure Rule.Renamed (rule rule' : Rule) : Prop where
  condition : Option.Rel (Condition.Renamed S) rule.condition rule'.condition
  intention : rule.intention.Renamed S rule'.intention
  effects : List.Forall₂ (Action.Renamed S) rule.effects rule'.effects

end Renamed

/-- A constant is no variable. -/
theorem Arg.Renamed.constant?_eq {S : String → String → Prop} {arg arg' : Arg}
    (h : arg.Renamed S arg') : arg.constant? = arg'.constant? := by
  cases h <;> rfl

/-! ## Outcomes -/

/-- Errors are not compared: they tell names. -/
abbrev AnyError (_ _ : EmitError) : Prop := True

theorem Matches.same {ε α : Type} {E : ε → ε → Prop} (hE : ∀ e, E e e) {x : Except ε α} :
    Matches E Eq x x := by
  cases x with
  | ok => exact .ok rfl
  | error e => exact .error (hE e)

/-- Of two outcomes that are the same result or failures, each is a result if the other one is. -/
theorem Matches.eq_ok_iff {ε α : Type} {E : ε → ε → Prop} {x y : Except ε α} {a : α}
    (h : Matches E Eq x y) : x = .ok a ↔ y = .ok a := by
  cases h with
  | ok h => rw [h]
  | error => exact ⟨nofun, nofun⟩

/-- Related lists stay related when their elements are numbered. -/
theorem forall₂_zipIdx {α β : Type} {R : α → β → Prop} {as : List α} {bs : List β}
    (h : List.Forall₂ R as bs) (n : Nat) :
    List.Forall₂ (fun x y => R x.1 y.1 ∧ x.2 = y.2) (as.zipIdx n) (bs.zipIdx n) := by
  induction h generalizing n with
  | nil => exact .nil
  | cons hab _ ih => exact .cons ⟨hab, rfl⟩ (ih (n + 1))

theorem forall₂_dropLast {α β : Type} {R : α → β → Prop} {as : List α} {bs : List β}
    (h : List.Forall₂ R as bs) : List.Forall₂ R as.dropLast bs.dropLast := by
  rw [List.dropLast_eq_take, List.dropLast_eq_take, h.length_eq]
  exact List.forall₂_take _ h

theorem forall₂_getLast? {α β : Type} {R : α → β → Prop} {as : List α} {bs : List β}
    (h : List.Forall₂ R as bs) : Option.Rel R as.getLast? bs.getLast? := by
  rw [← List.head?_reverse, ← List.head?_reverse]
  have hreverse := List.rel_reverse h
  generalize as.reverse = as' at hreverse ⊢
  generalize bs.reverse = bs' at hreverse ⊢
  cases hreverse with
  | nil => exact .none
  | cons hab => exact .some hab

/-! ## A renaming gives a correspondence -/

/-- The names that a renaming gives to some variables. -/
def Names (σ : String → String) (vs : List String) (v w : String) : Prop :=
  v ∈ vs ∧ σ v = w

section Names

variable {σ : String → String} {vs : List String}

/-- Names correspond one to one when different variables get different ones. -/
theorem names_biUnique (h : ∀ v ∈ vs, ∀ w ∈ vs, σ v = σ w → v = w) :
    Relator.BiUnique (Names σ vs) := by
  constructor
  · rintro v w _ ⟨hv, rfl⟩ ⟨hw, heq⟩
    exact h v hv w hw heq.symm
  · rintro v _ _ ⟨-, rfl⟩ ⟨-, rfl⟩
    rfl

theorem Arg.renamed_rename {arg : Arg} (h : arg.variables ⊆ vs) :
    arg.Renamed (Names σ vs) (arg.rename σ) := by
  cases arg with
  | «variable» name => exact .variable ⟨h (List.mem_singleton_self _), rfl⟩
  | literal text => exact .literal text
  | number value => exact .number value
  | continuation offset => exact .continuation offset
  | state args => exact .state ..
  | python code => exact .python code

theorem Arg.forall₂_renamed {args : List Arg} (h : args.flatMap Arg.variables ⊆ vs) :
    List.Forall₂ (Arg.Renamed (Names σ vs)) args (args.map (Arg.rename σ)) := by
  rw [List.forall₂_map_right_iff, List.forall₂_same]
  exact fun arg harg => Arg.renamed_rename fun v hv => h (List.mem_flatMap.mpr ⟨arg, harg, hv⟩)

theorem Operand.renamed_rename {operand : Operand} (h : operand.variables ⊆ vs) :
    operand.Renamed (Names σ vs) (operand.rename σ) := by
  cases operand with
  | value arg => exact .value (Arg.renamed_rename h)
  | all typeName => exact .all typeName
  | type name => exact .type ⟨h (List.mem_singleton_self _), rfl⟩
  | list items => exact .list (Arg.forall₂_renamed h)

theorem Predicate.renamed_rename {predicate : Predicate}
    (h : predicate.operands.flatMap Operand.variables ⊆ vs) :
    predicate.Renamed (Names σ vs) (predicate.rename σ) := by
  have hoperand : ∀ operand ∈ predicate.operands,
      operand.Renamed (Names σ vs) (operand.rename σ) :=
    fun operand hmem => Operand.renamed_rename fun v hv =>
      h (List.mem_flatMap.mpr ⟨operand, hmem, hv⟩)
  cases predicate with
  | compare left op right position =>
    exact .compare op position (hoperand left (by simp [operands]))
      (hoperand right (by simp [operands]))
  | bare operand position => exact .bare position (hoperand operand (by simp [operands]))

/-- A formula and its image are related when its tests and their images are. -/
theorem Formula.rel_map {α β : Type} {R : α → β → Prop} {f : α → β} {g : Formula α}
    (h : ∀ a ∈ g.atoms, R a (f a)) : Formula.Rel R g (g.map f) := by
  induction g with
  | atom a => exact .atom (h a (List.mem_singleton_self _))
  | group inner ih => exact .group (ih h)
  | chain left op right ihl ihr =>
    exact .chain op (ihl fun a ha => h a (List.mem_append_left _ ha))
      (ihr fun a ha => h a (List.mem_append_right _ ha))

theorem Action.renamed_rename {action : Action} (h : action.variables ⊆ vs) :
    action.Renamed (Names σ vs) (action.rename σ) :=
  ⟨rfl, Arg.forall₂_renamed h, rfl⟩

/-- **A rule and the renamed rule** are the same but for the names of variables. -/
theorem Rule.renamed_rename {rule : Rule} (h : rule.allVariables ⊆ vs) :
    rule.Renamed (Names σ vs) (rule.rename σ) := by
  unfold allVariables at h
  obtain ⟨hrest, heffects⟩ := List.append_subset.mp h
  obtain ⟨hpredicates, hintention⟩ := List.append_subset.mp hrest
  refine ⟨?_, Action.renamed_rename hintention, ?_⟩
  · unfold predicates at hpredicates
    unfold rename
    cases hcondition : rule.condition with
    | none => exact .none
    | some condition =>
      rw [hcondition] at hpredicates
      refine .some (Formula.rel_map fun predicate hmem => Predicate.renamed_rename ?_)
      exact fun v hv => hpredicates (List.mem_flatMap.mpr ⟨predicate, hmem, hv⟩)
  · rw [rename, List.forall₂_map_right_iff, List.forall₂_same]
    exact fun effect hmem => Action.renamed_rename fun v hv =>
      heffects (List.mem_flatMap.mpr ⟨effect, hmem, hv⟩)

mutual

theorem Arg.rename_eq_self {arg : Arg} (h : ∀ v ∈ arg.variables, σ v = v) :
    arg.rename σ = arg := by
  cases arg with
  | «variable» name => exact congrArg Arg.variable (h name (List.mem_singleton_self _))
  | state args => exact congrArg Arg.state (Arg.listRename_eq_self h)
  | _ => rfl

theorem Arg.listRename_eq_self {args : List Arg} (h : ∀ v ∈ Arg.listVariables args, σ v = v) :
    Arg.listRename σ args = args := by
  cases args with
  | nil => rfl
  | cons arg args =>
    have harg := Arg.rename_eq_self fun v hv => h v (List.mem_append_left _ hv)
    have hargs := Arg.listRename_eq_self fun v hv => h v (List.mem_append_right _ hv)
    rw [Arg.listRename, harg, hargs]

end

/-- An action whose variables keep their names is the same. -/
theorem Action.rename_eq_self {action : Action} (h : ∀ v ∈ action.variables, σ v = v) :
    action.rename σ = action := by
  have hargs : action.args.map (Arg.rename σ) = action.args.map id :=
    List.map_congr_left fun arg hmem => Arg.rename_eq_self fun v hv =>
      h v (List.mem_flatMap.mpr ⟨arg, hmem, hv⟩)
  rw [rename, hargs, List.map_id]

end Names

end CausalRules
