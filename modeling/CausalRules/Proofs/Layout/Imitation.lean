import CausalRules.Imitation.Text
import CausalRules.Proofs.Imitation.Grouping
import CausalRules.Proofs.Imitation.Trails
import CausalRules.Proofs.Layout

/-!
# The imitation script does not depend on layout

While a method is written, offsets do more than to say where something is refused: what became of a
predicate is kept under its offset. It is found again in another layout because an offset there
corresponds to no other offset here.

- `Scope.Alike`: scopes that differ in the offsets under which residues are kept.
- `alike_collect`, `matches_formula`, `matches_call`: reading a condition keeps scopes alike, and
  alike scopes write the same guards and calls.
- `methodsText_alike`: programs that are alike have the same methods, or are refused alike.
-/

namespace CausalRules.Imitation

open Script (identifier)

variable {R : Nat → Nat → Prop} {p p' : Nat}

theorem matches_unsupported {α β : Type} {A : α → β → Prop} (construct : Construct) (hp : R p p') :
    Matches (EmitError.Alike R) A (unsupported construct p) (unsupported construct p') :=
  .error (.unsupported construct .imitation hp)

/-! ## Signatures -/

section Signatures

variable {rule rule' : Rule} {rules rules' : List Rule}

theorem matches_disagree {α β : Type} {A : α → β → Prop} (h : rule.Alike R rule')
    (reason : Disagreement) :
    Matches (EmitError.Alike R) A (disagree rule reason) (disagree rule' reason) := by
  unfold disagree
  rw [h.intention.name]
  exact .error (.inconsistentIntention _ reason h.intention.position)

theorem matches_paramsOf (h : rule.Alike R rule') :
    Matches (EmitError.Alike R) Eq (paramsOf rule) (paramsOf rule') := by
  unfold paramsOf
  rw [h.intention.args]
  split
  · exact matches_disagree h _
  · split
    · exact matches_disagree h _
    · exact .ok rfl

theorem matches_commonStart (h : List.Forall₂ (Rule.Alike R) rules rules')
    (earlier : Option Nat) :
    Matches (EmitError.Alike R) Eq (commonStart earlier rules) (commonStart earlier rules') := by
  induction h generalizing earlier with
  | nil => exact .ok rfl
  | cons hrule _ ih =>
    refine (matches_paramsOf hrule).bind_eq fun params => ?_
    split
    · exact ih _
    · exact ih _
    · split
      · exact ih _
      · exact matches_disagree hrule _

theorem matches_checkCounts (fits : Nat → Bool) (reason : Nat → Disagreement)
    (h : List.Forall₂ (Rule.Alike R) rules rules') :
    Matches (EmitError.Alike R) Eq (checkCounts fits reason rules)
      (checkCounts fits reason rules') := by
  induction h with
  | nil => exact .ok rfl
  | cons hrule _ ih =>
    refine (matches_paramsOf hrule).bind_eq fun params => ?_
    split
    · exact ih
    · exact matches_disagree hrule _

theorem matches_signature (h : List.Forall₂ (Rule.Alike R) rules rules') :
    Matches (EmitError.Alike R) Eq (Signature.ofRules rules) (Signature.ofRules rules') := by
  cases h with
  | nil => exact .ok rfl
  | cons hfirst hrest =>
    have h := List.Forall₂.cons hfirst hrest
    refine (matches_commonStart h none).bind_eq fun start => ?_
    refine ((matches_paramsOf hfirst).map_eq Params.names).bind_eq fun names => ?_
    split
    · exact (matches_checkCounts _ _ h).bind_eq fun _ => .ok rfl
    · exact (matches_checkCounts _ _ h).bind_eq fun _ => .ok rfl

end Signatures

/-! ## Scopes -/

namespace Scope

variable {scope scope' : Scope} {underOr : Bool}

variable (R) in
/-- Scopes that differ in the offsets under which residues are kept. -/
structure Alike (scope scope' : Scope) : Prop where
  bindings : scope.bindings = scope'.bindings
  listed : scope.listed = scope'.listed
  residues : List.Forall₂ (fun x y => R x.1 y.1 ∧ x.2 = y.2) scope.residues scope'.residues

namespace Alike

variable (h : scope.Alike R scope')

include h

theorem binding? (name : String) : scope.binding? name = scope'.binding? name := by
  rw [Scope.binding?, Scope.binding?, h.bindings]

/-- What became of a predicate is found under the offset that corresponds to its own. -/
theorem residue? (hR : Relator.BiUnique R) (hp : R p p') :
    scope.residue? p = scope'.residue? p' :=
  lookup_eq_of_forall₂ hR hp h.residues

theorem add (name : String) (binding : Binding) :
    Alike R { scope with bindings := (name, binding) :: scope.bindings }
      { scope' with bindings := (name, binding) :: scope'.bindings } :=
  ⟨congrArg ((name, binding) :: ·) h.bindings, h.listed, h.residues⟩

theorem settle (hp : R p p') (residue : Residue) :
    (scope.settle p residue).Alike R (scope'.settle p' residue) :=
  ⟨h.bindings, h.listed, .cons ⟨hp, rfl⟩ h.residues⟩

theorem list (typeName : String) : (scope.list typeName).Alike R (scope'.list typeName) := by
  unfold Scope.list
  rw [← h.listed]
  split
  · exact h
  · exact ⟨h.bindings, rfl, h.residues⟩

end Alike

/-- The parameters of a rule are bound alike. -/
theorem alike_ofRule (signature : Signature) {rule rule' : Rule} (h : rule.Alike R rule') :
    (Scope.ofRule signature rule).Alike R (Scope.ofRule signature rule') := by
  refine ⟨?_, rfl, .nil⟩
  rw [Scope.ofRule, Scope.ofRule, h.intention.args]

theorem alike_bind (h : scope.Alike R scope') (hp : R p p') (name : String) (binding : Binding) :
    Matches (EmitError.Alike R) (Alike R) (scope.bind name binding underOr p).result
      (scope'.bind name binding underOr p').result := by
  unfold bind
  split
  · exact .error (.bindingUnderOr name hp)
  · exact .ok (h.add name binding)

theorem alike_bindAndDrop (h : scope.Alike R scope') (hp : R p p') (name : String)
    (binding : Binding) :
    Matches (EmitError.Alike R) (Alike R) (scope.bindAndDrop name binding underOr p).result
      (scope'.bindAndDrop name binding underOr p').result := by
  rw [bindAndDrop, bindAndDrop, Trail.result_bind, Trail.result_bind]
  exact (alike_bind h hp name binding).bind fun _ _ h => .ok (h.settle hp .drop)

theorem alike_bindItems (hp : R p p') (sequence : String) (items : List Arg) (index : Nat)
    (h : scope.Alike R scope') :
    Matches (EmitError.Alike R) (fun x y => x.1.Alike R y.1 ∧ x.2 = y.2)
      (bindItems sequence underOr p index items scope).result
      (bindItems sequence underOr p' index items scope').result := by
  induction items generalizing index scope scope' with
  | nil => exact .ok ⟨h, rfl⟩
  | cons item rest ih =>
    have hcheck : ∀ check, Matches (EmitError.Alike R) (fun x y => x.1.Alike R y.1 ∧ x.2 = y.2)
        (addCheck check <$> bindItems sequence underOr p (index + 1) rest scope).result
        (addCheck check <$> bindItems sequence underOr p' (index + 1) rest scope').result :=
      fun check => (ih (index + 1) h).map fun x y hxy => ⟨hxy.1, congrArg (check :: ·) hxy.2⟩
    cases item with
    | «variable» name =>
      rw [bindItems, bindItems, ← h.binding? name]
      cases scope.binding? name with
      | some known => exact hcheck _
      | none =>
        dsimp only
        rw [Trail.result_bind, Trail.result_bind]
        exact (alike_bind h hp name _).bind fun _ _ h => ih (index + 1) h
    | literal | number => exact hcheck _
    | continuation => exact ih (index + 1) h
    | state | python => exact matches_unsupported _ hp

theorem alike_bindMembers (h : scope.Alike R scope') (hp : R p p') (typeName : String)
    (items : List Arg) :
    Matches (EmitError.Alike R) (Alike R) (scope.bindMembers typeName items underOr p).result
      (scope'.bindMembers typeName items underOr p').result := by
  rw [result_bindMembers, result_bindMembers]
  refine (alike_bindItems hp _ items 0 (h.list typeName)).bind ?_
  rintro ⟨learned, checks⟩ ⟨learned', _⟩ ⟨hlearned, rfl⟩
  exact .ok (hlearned.settle hp _)

theorem alike_bindEqual (h : scope.Alike R scope') (hp : R p p') (a b : String) :
    Matches (EmitError.Alike R) (Alike R) (scope.bindEqual a b underOr p).result
      (scope'.bindEqual a b underOr p').result := by
  unfold bindEqual
  rw [← h.binding? a, ← h.binding? b]
  split
  · exact .ok h
  · exact alike_bindAndDrop h hp _ _
  · exact alike_bindAndDrop h hp _ _
  · exact .error (.unboundVariables a b hp)

theorem alike_bindConstant (h : scope.Alike R scope') (hp : R p p') (name : String) (arg : Arg) :
    Matches (EmitError.Alike R) (Alike R) (scope.bindConstant name arg underOr p).result
      (scope'.bindConstant name arg underOr p').result := by
  unfold bindConstant
  rw [← h.binding? name]
  split
  · exact alike_bindAndDrop h hp _ _
  · exact .ok h

theorem alike_bindPredicate (h : scope.Alike R scope') {q q' : Predicate} (hq : q.Alike R q') :
    Matches (EmitError.Alike R) (Alike R) (scope.bindPredicate underOr q).result
      (scope'.bindPredicate underOr q').result := by
  cases hq with
  | bare => exact .ok h
  | @compare left op right p p' hp =>
    -- variables are bound by equality only
    have hmembers : ∀ typeName items, Matches (EmitError.Alike R) (Alike R)
        (if op = .equal then scope.bindMembers typeName items underOr p
          else .still (unsupported .allOperator p)).result
        (if op = .equal then scope'.bindMembers typeName items underOr p'
          else .still (unsupported .allOperator p')).result :=
      fun typeName items =>
        Trail.matches_ite _ (alike_bindMembers h hp typeName items) (matches_unsupported _ hp)
    have hconstant : ∀ name arg, Matches (EmitError.Alike R) (Alike R)
        (if op = .equal then scope.bindConstant name arg underOr p else return scope).result
        (if op = .equal then scope'.bindConstant name arg underOr p' else return scope').result :=
      fun name arg => Trail.matches_ite _ (alike_bindConstant h hp name arg) (.ok h)
    -- what a comparison binds depends on the kinds of its operands, which both layouts share
    cases left with
    | all typeName =>
      cases right with
      | list items => exact hmembers typeName items
      | _ => exact matches_unsupported _ hp
    | list items =>
      cases right with
      | all typeName => exact hmembers typeName items
      | _ => exact .ok h
    | type name =>
      cases right with
      | all => exact matches_unsupported _ hp
      | _ => exact .ok h
    | value arg =>
      cases right with
      | all => exact matches_unsupported _ hp
      | type | list => cases arg <;> exact .ok h
      | value arg' =>
        cases arg with
        | «variable» a =>
          cases arg' with
          | «variable» b => exact Trail.matches_ite _ (alike_bindEqual h hp a b) (.ok h)
          | _ => exact hconstant _ _
        | _ =>
          cases arg' with
          | «variable» b => exact hconstant _ _
          | _ => exact .ok h

theorem alike_collect {c c' : Condition} (hc : Condition.Alike R c c')
    (h : scope.Alike R scope') :
    Matches (EmitError.Alike R) (Alike R) (scope.collect underOr c).result
      (scope'.collect underOr c').result := by
  induction hc generalizing scope scope' underOr with
  | atom hq => exact alike_bindPredicate h hq
  | group _ ih => exact ih h
  | @chain l r l' r' op hl hr ihl ihr =>
    rw [collect, collect, (Formula.Rel.chain op hl hr).chainHasOr, Trail.result_bind,
      Trail.result_bind]
    exact (ihl h).bind fun _ _ h => ihr h

/-! ## Guards -/

theorem matches_resolve (h : scope.Alike R scope') (hp : R p p') (name : String) :
    Matches (EmitError.Alike R) Eq (scope.resolve p name) (scope'.resolve p' name) := by
  unfold resolve
  rw [← h.binding? name]
  split
  · exact .ok rfl
  · exact .error (.unboundVariable name hp)

theorem matches_argTerm (h : scope.Alike R scope') (hp : R p p') (arg : Arg) :
    Matches (EmitError.Alike R) Eq (scope.argTerm p arg) (scope'.argTerm p' arg) := by
  cases arg with
  | «variable» name => exact (matches_resolve h hp name).bind_eq fun _ => .ok rfl
  | literal | number | python => exact .ok rfl
  | continuation => exact .error (.invalidContinuation _ hp)
  | state => exact matches_unsupported _ hp

theorem matches_operandTerm (h : scope.Alike R scope') (hp : R p p') (operand : Operand) :
    Matches (EmitError.Alike R) Eq (scope.operandTerm p operand)
      (scope'.operandTerm p' operand) := by
  cases operand with
  | value arg => exact matches_argTerm h hp arg
  | type name => exact (matches_resolve h hp name).bind_eq fun _ => .ok rfl
  | all | list => exact matches_unsupported _ hp

theorem matches_test (hR : Relator.BiUnique R) (h : scope.Alike R scope') {q q' : Predicate}
    (hq : q.Alike R q') :
    Matches (EmitError.Alike R) Eq (scope.test q) (scope'.test q') := by
  cases hq with
  | bare operand hp =>
    cases operand with
    | value arg =>
      cases arg with
      | python => exact .ok rfl
      | _ => exact matches_unsupported _ hp
    | _ => exact matches_unsupported _ hp
  | compare left op right hp =>
    -- the one place where an offset is looked up
    rw [test, test, ← h.residue? hR hp]
    split
    · exact .ok rfl
    · exact .ok rfl
    · split
      · exact matches_unsupported _ hp
      · exact (matches_operandTerm h hp left).bind_eq fun _ =>
          (matches_operandTerm h hp right).bind_eq fun _ => .ok rfl

theorem matches_formula (hR : Relator.BiUnique R) (h : scope.Alike R scope') {c c' : Condition}
    (hc : Condition.Alike R c c') :
    Matches (EmitError.Alike R) Eq (scope.formula c) (scope'.formula c') := by
  induction hc with
  | atom hq => exact (matches_test hR h hq).bind_eq fun _ => .ok rfl
  | group _ ih => exact ih.bind_eq fun _ => .ok rfl
  | chain op _ _ ihl ihr =>
    refine ihl.bind_eq fun left => ihr.bind_eq fun right => ?_
    cases left with
    | none => cases right <;> exact .ok rfl
    | some l => cases right <;> exact .ok rfl

/-! ## Calls -/

theorem matches_tailElement (h : scope.Alike R scope') (hp : R p p') (arg : Arg) :
    Matches (EmitError.Alike R) Eq (scope.tailElement p arg) (scope'.tailElement p' arg) := by
  cases arg with
  | «variable» name =>
    refine (matches_resolve h hp name).bind_eq fun binding => ?_
    cases binding with
    | element => exact .ok rfl
    | _ => exact .error (.invalidContinuation _ hp)
  | _ => exact .error (.invalidContinuation _ hp)

theorem matches_tailStart (h : scope.Alike R scope') (hp : R p p') (covered : List Arg) :
    Matches (EmitError.Alike R) Eq (scope.tailStart p covered) (scope'.tailStart p' covered) := by
  refine (Matches.mapM_same covered (matches_tailElement h hp)).bind_eq fun elements => ?_
  cases elements with
  | nil => exact .error (.invalidContinuation _ hp)
  | cons first rest =>
    dsimp only
    split
    · exact .ok rfl
    · exact .error (.invalidContinuation _ hp)

theorem matches_call (h : scope.Alike R scope') {effect effect' : Action}
    (heffect : effect.Alike R effect') :
    Matches (EmitError.Alike R) Eq (scope.call effect) (scope'.call effect') := by
  have hp := heffect.position
  have hargs := fun args => Matches.mapM_same args (matches_argTerm h hp)
  unfold call
  rw [heffect.name, heffect.args]
  dsimp only
  split
  · split
    · exact .error (.invalidContinuation _ hp)
    · exact (matches_tailStart h hp _).bind_eq fun _ => (hargs _).bind_eq fun _ => .ok rfl
  · exact (hargs _).bind_eq fun _ => .ok rfl

end Scope

/-! ## Methods -/

/-- Two names of one function are refused without offsets. -/
theorem matches_checkFunctions (seen names : List String) :
    Matches (EmitError.Alike R) Eq (checkFunctions seen names) (checkFunctions seen names) := by
  induction names generalizing seen with
  | nil => exact .ok rfl
  | cons name rest ih =>
    rw [checkFunctions]
    split
    · exact .error (.duplicateMethod _ _ _)
    · exact ih _

section Methods

variable (hR : Relator.BiUnique R)

include hR

theorem matches_clause (signature : Signature) {rule rule' : Rule} (h : rule.Alike R rule') :
    Matches (EmitError.Alike R) Eq (Clause.ofRule signature rule)
      (Clause.ofRule signature rule') := by
  have hstart := Scope.alike_ofRule signature h
  have hcalls : ∀ {scope scope' : Scope}, scope.Alike R scope' →
      Matches (EmitError.Alike R) Eq (rule.effects.mapM scope.call)
        (rule'.effects.mapM scope'.call) :=
    fun hscope => Matches.mapM_eq h.effects fun _ _ => Scope.matches_call hscope
  have hcondition := h.condition
  unfold Clause.ofRule
  generalize rule.condition = c at hcondition ⊢
  generalize rule'.condition = c' at hcondition ⊢
  cases hcondition with
  | none => exact (hcalls hstart).bind_eq fun _ => .ok rfl
  | some hc =>
    refine (Scope.alike_collect hc hstart).bind fun scope scope' hscope => ?_
    refine (Scope.matches_formula hR hscope hc).bind_eq fun formula => ?_
    rw [hscope.listed]
    cases formula with
    | none => exact (hcalls hscope).bind_eq fun _ => .ok rfl
    | some _ => exact (hcalls hscope).bind_eq fun _ => .ok rfl

theorem matches_method (name : String) {rules rules' : List Rule}
    (h : List.Forall₂ (Rule.Alike R) rules rules') :
    Matches (EmitError.Alike R) Eq (Method.ofRules name rules) (Method.ofRules name rules') :=
  (matches_signature h).bind_eq fun signature =>
    (Matches.mapM_eq h fun _ _ => matches_clause hR signature).bind_eq fun _ => .ok rfl

theorem ofProgram_alike {program program' : Program} (h : program.Alike R program') :
    Matches (EmitError.Alike R) Eq (ofProgram program) (ofProgram program') := by
  have hnames : intentionNames program.rules = intentionNames program'.rules :=
    congrArg List.eraseDups (map_eq_of_forall₂ h.rules fun _ _ halike => halike.intention.name)
  have hrules : ∀ name, List.Forall₂ (Rule.Alike R) (rulesOf program.rules name)
      (rulesOf program'.rules name) := by
    intro name
    refine List.rel_filter (fun rule rule' halike => ?_) h.rules
    dsimp only
    rw [halike.intention.name]
  rw [ofProgram_eq, ofProgram_eq, hnames]
  exact (matches_checkFunctions [] _).bind_eq fun _ =>
    Matches.mapM_same _ fun name => matches_method hR name (hrules name)

/-- **Programs that differ in offsets have the same methods**, or are refused for the same reason at
corresponding offsets, when an offset of either program corresponds to no other one. -/
theorem methodsText_alike {program program' : Program} (h : program.Alike R program') :
    Matches (EmitError.Alike R) Eq (methodsText program) (methodsText program') :=
  (ofProgram_alike hR h).bind_eq fun _ => .ok rfl

end Methods

end CausalRules.Imitation
