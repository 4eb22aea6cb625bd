import CausalRules.Imitation.Text
import CausalRules.Proofs.Safety

/-!
# Writing methods does not crash

Methods are written with lists that are accessed by index: the group of an intention by its slot, the
first rule of a group, the parameters of that rule up to where its continuation begins, the arguments
of an effect that its continuation covers. Here each such access is checked. None of them is out of
range, whatever the program is, and also if no text spells it.

- `addTo`, `groupsOf`: grouping; `Ranged` is what the accesses rest on.
- `signatureOf`, `bindingAt`, `scopeOf`, `callOf`, `clauseOf`, `methodOf`: the parts of a method.
- `methodsTextOf_eq`: writing methods has the outcome it has in the model.
-/

namespace CausalRules.Safety

open Script (identifier)
open Imitation (Params Signature Binding Scope Call Clause Guard Method Group Grouping)

/-! ## Groups -/

/-- Adds a rule to the group of its intention, which is found by its slot. -/
def addTo (grouping : Grouping) (rule : Rule) : Checked EmitError Grouping :=
  let name := rule.intention.name
  match grouping.slots.lookup name with
  | some slot => do
    let group ← element grouping.groups slot
    let groups := grouping.groups.set slot { group with rules := group.rules ++ [rule] }
    return { grouping with groups }
  | none =>
    let function := identifier name
    match grouping.functions.lookup function with
    | some first => throw (.duplicateMethod function first name)
    | none =>
      return ⟨grouping.groups ++ [⟨name, [rule]⟩], (name, grouping.groups.length) :: grouping.slots,
        (function, name) :: grouping.functions⟩

/-- The rules of a program by intention. -/
def groupsOf (rules : List Rule) : Checked EmitError (List Group) :=
  return (← rules.foldlM addTo .empty).groups

/-- Each slot is that of a group, and each group has a rule. -/
structure Ranged (grouping : Grouping) : Prop where
  slots : ∀ entry ∈ grouping.slots, entry.2 < grouping.groups.length
  rules : ∀ group ∈ grouping.groups, group.rules ≠ []

theorem ranged_empty : Ranged .empty :=
  ⟨nofun, nofun⟩

/-- A group that is found is changed in place. -/
theorem addTo_eq {grouping : Grouping} (h : Ranged grouping) (rule : Rule) :
    addTo grouping rule = checked (grouping.add rule) := by
  unfold addTo Grouping.add
  dsimp only
  cases hslot : grouping.slots.lookup rule.intention.name with
  | some slot =>
    have hlt : slot < grouping.groups.length := h.slots _ (mem_of_lookup hslot)
    dsimp only
    rw [element_of_lt hlt, pure_bind, List.modify_eq_set_get _ hlt]
    rfl
  | none =>
    dsimp only
    cases grouping.functions.lookup (identifier rule.intention.name) with
    | some first => rfl
    | none => rfl

/-- Slots stay in range, because groups are only appended or changed in place. -/
theorem ranged_add {grouping grouping' : Grouping} {rule : Rule} (h : Ranged grouping)
    (hadd : grouping.add rule = .ok grouping') : Ranged grouping' := by
  unfold Grouping.add at hadd
  dsimp only at hadd
  split at hadd
  · rename_i slot _
    cases hadd
    refine ⟨fun entry hentry => ?_, fun group hgroup => ?_⟩
    · rw [List.length_modify]
      exact h.slots entry hentry
    · obtain ⟨i, hi, rfl⟩ := List.getElem_of_mem hgroup
      rw [List.getElem_modify]
      split
      · exact List.append_ne_nil_of_right_ne_nil _ (List.cons_ne_nil _ _)
      · exact h.rules _ (List.getElem_mem _)
  · split at hadd
    · cases hadd
    · cases hadd
      refine ⟨fun entry hentry => ?_, fun group hgroup => ?_⟩
      · rw [List.length_append, List.length_singleton]
        rcases List.mem_cons.mp hentry with rfl | hentry
        · exact Nat.lt_succ_self _
        · exact Nat.lt_succ_of_lt (h.slots entry hentry)
      · rcases List.mem_append.mp hgroup with hgroup | hgroup
        · exact h.rules group hgroup
        · obtain rfl := List.mem_singleton.mp hgroup
          exact List.cons_ne_nil _ _

theorem foldlM_addTo (rules : List Rule) :
    rules.foldlM addTo .empty = checked (rules.foldlM Grouping.add .empty) :=
  foldlM_checked (fun _ rule h => addTo_eq h rule) (fun _ _ _ => ranged_add) ranged_empty

theorem groupsOf_eq (rules : List Rule) : groupsOf rules = checked (Imitation.groupsOf rules) := by
  rw [groupsOf, foldlM_addTo]
  exact bind_checked fun _ _ => rfl

/-- Each group has a rule, from which the method takes its parameters. -/
theorem rules_ne_nil_of_groupsOf {rules : List Rule} {groups : List Group}
    (h : Imitation.groupsOf rules = .ok groups) : ∀ group ∈ groups, group.rules ≠ [] := by
  obtain ⟨grouping, hfold, heq⟩ := bind_eq_ok.mp h
  obtain rfl := pure_eq_ok.mp heq
  exact (foldlM_kept (fun _ _ _ => ranged_add) ranged_empty hfold).rules

/-! ## Signatures -/

/-- The signature that rules of one intention share, which has the parameters of the first of
them. -/
def signatureOf (rules : List Rule) : Checked EmitError Signature := do
  let start ← checked (Imitation.commonStart none rules)
  let first ← element rules 0
  let params ← checked (Imitation.paramsOf first)
  match start with
  | some k =>
    checked (Imitation.checkCounts (k < ·) (fun _ => .tooFew (k + 1)) rules)
    let fixed ← upTo params.names k
    let star ← element params.names k
    return ⟨fixed.map identifier, some (identifier star)⟩
  | none =>
    checked (Imitation.checkCounts (· = params.names.length) (.count params.names.length) rules)
    return ⟨params.names.map identifier, none⟩

theorem signatureOf_eq {rules : List Rule} (h : rules ≠ []) :
    signatureOf rules = checked (Signature.ofRules rules) := by
  obtain ⟨first, rest, rfl⟩ := List.exists_cons_of_ne_nil h
  unfold signatureOf Signature.ofRules
  refine bind_checked fun start _ => ?_
  rw [element_of_lt (Nat.zero_lt_succ _), pure_bind]
  dsimp only
  rw [map_eq_pure_bind, bind_assoc]
  refine bind_checked fun params hparams => ?_
  cases start with
  | none => exact bind_checked fun _ _ => rfl
  | some k =>
    refine bind_checked fun _ hcounts => ?_
    have hlt : k < params.names.length := by
      rw [List.getElem_cons_zero] at hparams
      rw [Imitation.checkCounts, hparams] at hcounts
      obtain ⟨_, hsame, hcounts⟩ := bind_eq_ok.mp hcounts
      obtain rfl := Except.ok.inj hsame
      by_contra hle
      rw [decide_eq_false hle] at hcounts
      cases hcounts
    rw [upTo_of_le (Nat.le_of_lt hlt), pure_bind, element_of_lt hlt, pure_bind,
      List.getElem?_eq_getElem hlt]
    rfl

/-! ## Scopes and calls -/

/-- What parameter number `index` of any rule stands for. -/
def bindingAt (signature : Signature) (index : Nat) : Checked EmitError Binding :=
  match signature.star with
  | some star =>
    if index < signature.fixed.length then return .param (signature.fixed.getD index "")
    else return .element star (← minus index signature.fixed.length)
  | none => return .param (signature.fixed.getD index "")

theorem bindingAt_eq (signature : Signature) (index : Nat) :
    bindingAt signature index = checked (.ok (signature.binding index)) := by
  unfold bindingAt Signature.binding
  cases signature.star with
  | none => rfl
  | some star =>
    dsimp only
    by_cases hlt : index < signature.fixed.length
    · rw [if_pos hlt, if_pos hlt]
      rfl
    · rw [if_neg hlt, if_neg hlt, minus_of_le (Nat.not_lt.mp hlt)]
      rfl

/-- The scope in which the variables of a rule's intention are bound in order. -/
def scopeOf (signature : Signature) (rule : Rule) : Checked EmitError Scope := do
  let bindings ← (rule.intention.args.filterMap Arg.variableName?).zipIdx.mapM
    fun (name, index) => (name, ·) <$> bindingAt signature index
  return ⟨bindings.reverse, [], []⟩

theorem scopeOf_eq (signature : Signature) (rule : Rule) :
    scopeOf signature rule = checked (.ok (Scope.ofRule signature rule)) := by
  have hbindings (names : List (String × Nat)) :
      (names.mapM fun (name, index) => (name, ·) <$> bindingAt signature index) =
        checked (.ok (names.map fun (name, index) => (name, signature.binding index))) := by
    rw [mapM_checked (f := fun (name, index) => .ok (name, signature.binding index))]
    · congr 1
      exact List.mapM_pure
    · rintro ⟨name, index⟩ -
      dsimp only
      rw [bindingAt_eq, map_checked]
      rfl
  rw [scopeOf, hbindings]
  rfl

/-- The call for an effect. The arguments that a continuation covers are split off the others. -/
def callOf (scope : Scope) (effect : Action) : Checked EmitError Call :=
  let position := effect.position
  match effect.args.getLast? with
  | some (.continuation offset) => do
    let fixed := effect.args.dropLast
    if fixed.length < offset then checked (Imitation.invalidTail .beforeFirst position)
    else
      let (kept, covered) ← splitAt fixed (← minus fixed.length offset)
      let start ← checked (scope.tailStart position covered)
      let args ← checked (kept.mapM (scope.argTerm position))
      return ⟨effect.name, args, some start⟩
  | _ => return ⟨effect.name, ← checked (effect.args.mapM (scope.argTerm position)), none⟩

theorem callOf_eq (scope : Scope) (effect : Action) :
    callOf scope effect = checked (scope.call effect) := by
  unfold callOf Scope.call
  dsimp only
  cases effect.args.getLast? with
  | none => exact bind_checked fun args _ => rfl
  | some last =>
    cases last
    case continuation offset =>
      dsimp only
      by_cases hlt : effect.args.dropLast.length < offset
      · rw [if_pos hlt, if_pos hlt]
      · rw [if_neg hlt, if_neg hlt, minus_of_le (Nat.not_lt.mp hlt), pure_bind,
          splitAt_of_le (Nat.sub_le ..), pure_bind]
        refine bind_checked fun start _ => ?_
        exact bind_checked fun args _ => rfl
    all_goals exact bind_checked fun args _ => rfl

/-! ## Methods -/

/-- The part of a method for a rule. -/
def clauseOf (signature : Signature) (rule : Rule) : Checked EmitError Clause := do
  let initial ← scopeOf signature rule
  match rule.condition with
  | none => return ⟨initial.listed, .absent, ← rule.effects.mapM (callOf initial)⟩
  | some condition =>
    let scope ← checked (initial.collect false condition).result
    let guard ← match ← checked (scope.formula condition) with
      | some formula => pure (Guard.test formula)
      | none => pure Guard.satisfied
    return ⟨scope.listed, guard, ← rule.effects.mapM (callOf scope)⟩

theorem clauseOf_eq (signature : Signature) (rule : Rule) :
    clauseOf signature rule = checked (Clause.ofRule signature rule) := by
  have hcalls (scope : Scope) :
      rule.effects.mapM (callOf scope) = checked (rule.effects.mapM scope.call) :=
    mapM_checked fun effect _ => callOf_eq scope effect
  rw [clauseOf, scopeOf_eq, checked_ok, pure_bind]
  unfold Clause.ofRule
  cases rule.condition with
  | none =>
    dsimp only
    rw [hcalls]
    exact bind_checked fun _ _ => rfl
  | some condition =>
    refine bind_checked fun scope _ => ?_
    dsimp only
    rw [hcalls]
    refine bind_checked fun formula _ => ?_
    cases formula with
    | none => exact bind_checked fun _ _ => bind_checked fun _ _ => rfl
    | some formula => exact bind_checked fun _ _ => bind_checked fun _ _ => rfl

/-- The method for the rules of one intention. -/
def methodOf (name : String) (rules : List Rule) : Checked EmitError Method := do
  let signature ← signatureOf rules
  return ⟨name, signature, ← rules.mapM (clauseOf signature)⟩

theorem methodOf_eq (name : String) {rules : List Rule} (h : rules ≠ []) :
    methodOf name rules = checked (Method.ofRules name rules) := by
  rw [methodOf, signatureOf_eq h]
  refine bind_checked fun signature _ => ?_
  rw [mapM_checked fun rule _ => clauseOf_eq signature rule]
  exact bind_checked fun _ _ => rfl

/-- The methods of a program, one after the other. -/
def methodsTextOf (program : Program) : Checked EmitError String := do
  let groups ← groupsOf program.rules
  let methods ← groups.mapM fun group => methodOf group.name group.rules
  return Script.Line.renderAll (methods.flatMap Method.lines)

/-- No program crashes the writer of methods. -/
theorem methodsTextOf_eq (program : Program) :
    methodsTextOf program = checked (Imitation.methodsText program) := by
  rw [methodsTextOf, groupsOf_eq, Imitation.methodsText, Imitation.ofProgram, bind_assoc]
  refine bind_checked fun groups hgroups => ?_
  have hmethods : (groups.mapM fun group => methodOf group.name group.rules) =
      checked (groups.mapM fun group => Method.ofRules group.name group.rules) :=
    mapM_checked fun group hgroup =>
      methodOf_eq group.name (rules_ne_nil_of_groupsOf hgroups group hgroup)
  rw [hmethods]
  exact bind_checked fun _ _ => rfl

end CausalRules.Safety
