import CausalRules.Imitation.Text
import CausalRules.Proofs.Imitation.Grouping
import CausalRules.Proofs.Imitation.Trails
import CausalRules.Proofs.Renaming

/-!
# Names of variables in the imitation script

Inside a method a variable is what it stands for. Names serve to find that, and to tell whether two
parameters of a rule are different; only the first rule of an intention gives its names to the
parameters of the method.

- `Scope.Renamed`: scopes in which corresponding variables stand for the same.
- `renamed_collect`, `renamed_formula`, `renamed_call`: a condition keeps scopes so, and then they
  write the same guards and calls.
- `Interchangeable`: rules that give the same clause in every method; `ofProgram_interchangeable` puts
  one in the place of another.
-/

namespace CausalRules.Imitation

variable {S : String → String → Prop} {position : Nat}

/-! ## Parameters -/

/-- As many parameters, with the continuation at the same place. -/
def Params.Like (params params' : Params) : Prop :=
  params.names.length = params'.names.length ∧ params.continuation = params'.continuation

/-- Parameters with names that correspond. -/
def Params.Renamed (S : String → String → Prop) (params params' : Params) : Prop :=
  List.Forall₂ S params.names params'.names ∧ params.continuation = params'.continuation

theorem ofArgs?_renamed {args args' : List Arg} (h : List.Forall₂ (Arg.Renamed S) args args') :
    Option.Rel (Params.Renamed S) (Params.ofArgs? args) (Params.ofArgs? args') := by
  induction h with
  | nil => exact .some ⟨.nil, rfl⟩
  | @cons _ _ rest rest' harg _ ih =>
    cases harg with
    | literal | number | state | python => exact .none
    | «variable» hvw =>
      rw [Params.ofArgs?, Params.ofArgs?]
      generalize Params.ofArgs? rest = o at ih ⊢
      generalize Params.ofArgs? rest' = o' at ih ⊢
      cases ih with
      | none => exact .none
      | some hparams => exact .some ⟨.cons hvw hparams.1, hparams.2⟩
    | continuation offset =>
      rw [Params.ofArgs?, Params.ofArgs?]
      generalize Params.ofArgs? rest = o at ih ⊢
      generalize Params.ofArgs? rest' = o' at ih ⊢
      cases ih with
      | none => exact .none
      | some hparams => exact .some ⟨hparams.1, congrArg (· <|> some offset) hparams.2⟩

/-- Different variables have different names in both. -/
theorem firstRepeat?_renamed (hS : Relator.BiUnique S) {names names' seen seen' : List String}
    (h : List.Forall₂ S names names') (hseen : List.Forall₂ S seen seen') :
    (firstRepeat? seen names).isSome = (firstRepeat? seen' names').isSome := by
  induction h generalizing seen seen' with
  | nil => rfl
  | @cons v w _ _ hvw _ ih =>
    have hmem : v ∈ seen ↔ w ∈ seen' := List.rel_mem hS hvw hseen
    rw [firstRepeat?, firstRepeat?]
    by_cases hv : v ∈ seen
    · rw [if_pos hv, if_pos (hmem.mp hv)]
      rfl
    · rw [if_neg hv, if_neg (mt hmem.mpr hv)]
      exact ih (.cons hvw hseen)

theorem renamed_paramsOf (hS : Relator.BiUnique S) {rule rule' : Rule}
    (h : rule.Renamed S rule') :
    Matches AnyError Params.Like (paramsOf rule) (paramsOf rule') := by
  have hparams := ofArgs?_renamed h.intention.args
  unfold paramsOf
  generalize Params.ofArgs? rule.intention.args = o at hparams ⊢
  generalize Params.ofArgs? rule'.intention.args = o' at hparams ⊢
  cases hparams with
  | none => exact .error trivial
  | @some params params' hparams =>
    have hrepeat := firstRepeat?_renamed hS hparams.1 .nil
    dsimp only
    cases hfirst : firstRepeat? [] params.names with
    | none =>
      cases hfirst' : firstRepeat? [] params'.names with
      | none => exact .ok ⟨hparams.1.length_eq, hparams.2⟩
      | some => simp [hfirst, hfirst'] at hrepeat
    | some =>
      cases hfirst' : firstRepeat? [] params'.names with
      | none => simp [hfirst, hfirst'] at hrepeat
      | some => exact .error trivial

/-! ## Scopes -/

namespace Scope

variable {scope scope' : Scope} {underOr : Bool} {v w : String}

/-- Scopes in which corresponding variables stand for the same. -/
structure Renamed (S : String → String → Prop) (scope scope' : Scope) : Prop where
  bindings : List.Forall₂ (fun x y => S x.1 y.1 ∧ x.2 = y.2) scope.bindings scope'.bindings
  listed : scope.listed = scope'.listed
  residues : scope.residues = scope'.residues

theorem Renamed.add (h : Renamed S scope scope') (hvw : S v w) (binding : Binding) :
    Renamed S { scope with bindings := (v, binding) :: scope.bindings }
      { scope' with bindings := (w, binding) :: scope'.bindings } :=
  ⟨.cons ⟨hvw, rfl⟩ h.bindings, h.listed, h.residues⟩

theorem Renamed.settle (h : Renamed S scope scope') (residue : Residue) :
    Renamed S (scope.settle position residue) (scope'.settle position residue) :=
  ⟨h.bindings, h.listed, congrArg ((position, residue) :: ·) h.residues⟩

theorem Renamed.list (h : Renamed S scope scope') (typeName : String) :
    Renamed S (scope.list typeName) (scope'.list typeName) := by
  unfold Scope.list
  rw [← h.listed]
  split
  · exact h
  · exact ⟨h.bindings, rfl, h.residues⟩

/-- The parameters of a rule are bound in order, whatever their names. -/
theorem renamed_ofRule (signature : Signature) {rule rule' : Rule} (h : rule.Renamed S rule') :
    Renamed S (Scope.ofRule signature rule) (Scope.ofRule signature rule') := by
  have hnames : List.Forall₂ S (rule.intention.args.filterMap Arg.variableName?)
      (rule'.intention.args.filterMap Arg.variableName?) := by
    refine List.rel_filterMap (fun arg arg' harg => ?_) h.intention.args
    cases harg with
    | «variable» hvw => exact .some hvw
    | _ => exact .none
  refine ⟨List.rel_reverse (List.rel_map ?_ (forall₂_zipIdx hnames 0)), rfl, rfl⟩
  rintro ⟨v, i⟩ ⟨w, _⟩ ⟨hvw, rfl⟩
  exact ⟨hvw, rfl⟩

theorem renamed_bind (h : Renamed S scope scope') (hvw : S v w) (binding : Binding) :
    Matches AnyError (Renamed S) (scope.bind v binding underOr position).result
      (scope'.bind w binding underOr position).result := by
  unfold bind
  split
  · exact .error trivial
  · exact .ok (h.add hvw binding)

theorem renamed_bindAndDrop (h : Renamed S scope scope') (hvw : S v w) (binding : Binding) :
    Matches AnyError (Renamed S) (scope.bindAndDrop v binding underOr position).result
      (scope'.bindAndDrop w binding underOr position).result := by
  rw [bindAndDrop, bindAndDrop, Trail.result_bind, Trail.result_bind]
  exact (renamed_bind h hvw binding).bind fun _ _ h => .ok (h.settle .drop)

section Lookup

variable (hS : Relator.BiUnique S) (h : Renamed S scope scope')

include hS h

theorem binding?_eq (hvw : S v w) : scope.binding? v = scope'.binding? w :=
  lookup_eq_of_forall₂ hS hvw h.bindings

theorem renamed_bindItems (sequence : String) {items items' : List Arg}
    (hitems : List.Forall₂ (Arg.Renamed S) items items') (index : Nat) :
    Matches AnyError (fun x y => Renamed S x.1 y.1 ∧ x.2 = y.2)
      (bindItems sequence underOr position index items scope).result
      (bindItems sequence underOr position index items' scope').result := by
  induction hitems generalizing index scope scope' with
  | nil => exact .ok ⟨h, rfl⟩
  | @cons _ _ rest rest' harg _ ih =>
    have hcheck : ∀ check, Matches AnyError (fun x y => Renamed S x.1 y.1 ∧ x.2 = y.2)
        (addCheck check <$> bindItems sequence underOr position (index + 1) rest scope).result
        (addCheck check <$> bindItems sequence underOr position (index + 1) rest' scope').result :=
      fun check => (ih h (index + 1)).map fun x y hxy => ⟨hxy.1, congrArg (check :: ·) hxy.2⟩
    cases harg with
    | @«variable» v w hvw =>
      rw [bindItems, bindItems, ← binding?_eq hS h hvw]
      cases scope.binding? v with
      | some known => exact hcheck _
      | none =>
        dsimp only
        rw [Trail.result_bind, Trail.result_bind]
        exact (renamed_bind h hvw _).bind fun _ _ h => ih h (index + 1)
    | literal | number => exact hcheck _
    | continuation => exact ih h (index + 1)
    | state | python => exact .error trivial

theorem renamed_bindMembers (typeName : String) {items items' : List Arg}
    (hitems : List.Forall₂ (Arg.Renamed S) items items') :
    Matches AnyError (Renamed S) (scope.bindMembers typeName items underOr position).result
      (scope'.bindMembers typeName items' underOr position).result := by
  have hempty : items.isEmpty = items'.isEmpty := by cases hitems <;> rfl
  rw [result_bindMembers, result_bindMembers]
  refine (renamed_bindItems hS (h.list typeName) _ hitems 0).bind ?_
  rintro ⟨learned, checks⟩ ⟨learned', _⟩ ⟨hlearned, rfl⟩
  dsimp only
  rw [hempty]
  exact .ok (hlearned.settle _)

theorem renamed_bindEqual {a a' b b' : String} (ha : S a a') (hb : S b b') :
    Matches AnyError (Renamed S) (scope.bindEqual a b underOr position).result
      (scope'.bindEqual a' b' underOr position).result := by
  unfold bindEqual
  rw [← binding?_eq hS h ha, ← binding?_eq hS h hb]
  split
  · exact .ok h
  · exact renamed_bindAndDrop h hb _
  · exact renamed_bindAndDrop h ha _
  · exact .error trivial

theorem renamed_bindConstant (hvw : S v w) {arg arg' : Arg} (harg : arg.Renamed S arg') :
    Matches AnyError (Renamed S) (scope.bindConstant v arg underOr position).result
      (scope'.bindConstant w arg' underOr position).result := by
  unfold bindConstant
  rw [← binding?_eq hS h hvw, ← harg.constant?_eq]
  split
  · exact renamed_bindAndDrop h hvw _
  · exact .ok h

theorem renamed_bindPredicate {q q' : Predicate} (hq : q.Renamed S q') :
    Matches AnyError (Renamed S) (scope.bindPredicate underOr q).result
      (scope'.bindPredicate underOr q').result := by
  cases hq with
  | bare => exact .ok h
  | @compare left left' op right right' position hleft hright =>
    -- variables are bound by equality only
    have hmembers : ∀ typeName items items', List.Forall₂ (Arg.Renamed S) items items' →
        Matches AnyError (Renamed S)
          (if op = .equal then scope.bindMembers typeName items underOr position
            else .still (unsupported .allOperator position)).result
          (if op = .equal then scope'.bindMembers typeName items' underOr position
            else .still (unsupported .allOperator position)).result :=
      fun typeName items items' hitems =>
        Trail.matches_ite _ (renamed_bindMembers hS h typeName hitems) (.error trivial)
    have hconstant : ∀ v w arg arg', S v w → Arg.Renamed S arg arg' →
        Matches AnyError (Renamed S)
          (if op = .equal then scope.bindConstant v arg underOr position else return scope).result
          (if op = .equal then scope'.bindConstant w arg' underOr position
            else return scope').result :=
      fun v w arg arg' hvw harg =>
        Trail.matches_ite _ (renamed_bindConstant hS h hvw harg) (.ok h)
    -- what a comparison binds depends on the kinds of its operands, which have not changed
    cases hleft with
    | all typeName =>
      cases hright with
      | list hitems => exact hmembers typeName _ _ hitems
      | _ => exact .error trivial
    | list hitems =>
      cases hright with
      | all typeName => exact hmembers typeName _ _ hitems
      | _ => exact .ok h
    | type =>
      cases hright with
      | all => exact .error trivial
      | _ => exact .ok h
    | value harg =>
      cases hright with
      | all => exact .error trivial
      | type | list => cases harg <;> exact .ok h
      | value harg' =>
        cases harg with
        | «variable» ha =>
          cases harg' with
          | «variable» hb => exact Trail.matches_ite _ (renamed_bindEqual hS h ha hb) (.ok h)
          | literal text => exact hconstant _ _ _ _ ha (.literal text)
          | number value => exact hconstant _ _ _ _ ha (.number value)
          | continuation offset => exact hconstant _ _ _ _ ha (.continuation offset)
          | state args args' => exact hconstant _ _ _ _ ha (.state args args')
          | python code => exact hconstant _ _ _ _ ha (.python code)
        | _ =>
          cases harg' with
          | «variable» hb => exact hconstant _ _ _ _ hb (by constructor)
          | _ => exact .ok h

theorem renamed_collect {c c' : Condition} (hc : Condition.Renamed S c c') :
    Matches AnyError (Renamed S) (scope.collect underOr c).result
      (scope'.collect underOr c').result := by
  induction hc generalizing scope scope' underOr with
  | atom hq => exact renamed_bindPredicate hS h hq
  | group _ ih => exact ih h
  | @chain l r l' r' op hl hr ihl ihr =>
    rw [collect, collect, (Formula.Rel.chain op hl hr).chainHasOr, Trail.result_bind,
      Trail.result_bind]
    exact (ihl h).bind fun _ _ h => ihr h

/-! ### Guards -/

theorem renamed_resolve (hvw : S v w) :
    Matches AnyError Eq (scope.resolve position v) (scope'.resolve position w) := by
  unfold resolve
  rw [← binding?_eq hS h hvw]
  split
  · exact .ok rfl
  · exact .error trivial

theorem renamed_argTerm {arg arg' : Arg} (harg : arg.Renamed S arg') :
    Matches AnyError Eq (scope.argTerm position arg) (scope'.argTerm position arg') := by
  cases harg with
  | «variable» hvw => exact (renamed_resolve hS h hvw).bind_eq fun _ => .ok rfl
  | literal | number | python => exact .ok rfl
  | continuation | state => exact .error trivial

theorem renamed_operandTerm {operand operand' : Operand}
    (hoperand : operand.Renamed S operand') :
    Matches AnyError Eq (scope.operandTerm position operand)
      (scope'.operandTerm position operand') := by
  cases hoperand with
  | value harg => exact renamed_argTerm hS h harg
  | type hvw => exact (renamed_resolve hS h hvw).bind_eq fun _ => .ok rfl
  | all | list => exact .error trivial

omit hS h in
theorem areConstants_eq {left left' right right' : Operand} (hleft : left.Renamed S left')
    (hright : right.Renamed S right') : areConstants left right = areConstants left' right' := by
  cases hleft with
  | value harg =>
    cases hright with
    | value harg' => rw [areConstants, areConstants, harg.constant?_eq, harg'.constant?_eq]
    | _ => rfl
  | _ => rfl

theorem renamed_test {q q' : Predicate} (hq : q.Renamed S q') :
    Matches AnyError Eq (scope.test q) (scope'.test q') := by
  cases hq with
  | bare position hoperand =>
    cases hoperand with
    | value harg =>
      cases harg with
      | python => exact .ok rfl
      | _ => exact .error trivial
    | _ => exact .error trivial
  | compare op position hleft hright =>
    have hresidue : scope.residue? position = scope'.residue? position := by
      rw [residue?, residue?, h.residues]
    rw [test, test, ← hresidue, ← areConstants_eq hleft hright]
    split
    · exact .ok rfl
    · exact .ok rfl
    · exact .ite _ (.error trivial) ((renamed_operandTerm hS h hleft).bind_eq fun _ =>
        (renamed_operandTerm hS h hright).bind_eq fun _ => .ok rfl)

theorem renamed_formula {c c' : Condition} (hc : Condition.Renamed S c c') :
    Matches AnyError Eq (scope.formula c) (scope'.formula c') := by
  induction hc with
  | atom hq => exact (renamed_test hS h hq).bind_eq fun _ => .ok rfl
  | group _ ih => exact ih.bind_eq fun _ => .ok rfl
  | chain op _ _ ihl ihr =>
    exact ihl.bind_eq fun left => ihr.bind_eq fun right => .same fun _ => trivial

/-! ### Calls -/

theorem renamed_tailElement {arg arg' : Arg} (harg : arg.Renamed S arg') :
    Matches AnyError Eq (scope.tailElement position arg) (scope'.tailElement position arg') := by
  cases harg with
  | «variable» hvw =>
    exact (renamed_resolve hS h hvw).bind_eq fun binding => .same fun _ => trivial
  | _ => exact .error trivial

theorem renamed_tailStart {covered covered' : List Arg}
    (hcovered : List.Forall₂ (Arg.Renamed S) covered covered') :
    Matches AnyError Eq (scope.tailStart position covered)
      (scope'.tailStart position covered') :=
  (Matches.mapM_eq hcovered fun _ _ => renamed_tailElement hS h).bind_eq fun _ =>
    .same fun _ => trivial

theorem renamed_call {effect effect' : Action} (heffect : effect.Renamed S effect') :
    Matches AnyError Eq (scope.call effect) (scope'.call effect') := by
  have hargs : ∀ {args args' : List Arg}, List.Forall₂ (Arg.Renamed S) args args' →
      Matches AnyError Eq (args.mapM (scope.argTerm effect'.position))
        (args'.mapM (scope'.argTerm effect'.position)) :=
    fun hargs => Matches.mapM_eq hargs fun _ _ => renamed_argTerm hS h
  have hlast := forall₂_getLast? heffect.args
  have hinit := forall₂_dropLast heffect.args
  have hplain : Matches AnyError Eq
      (effect.args.mapM (scope.argTerm effect'.position) >>= fun args =>
        pure (Call.mk effect'.name args none))
      (effect'.args.mapM (scope'.argTerm effect'.position) >>= fun args =>
        pure (Call.mk effect'.name args none)) :=
    (hargs heffect.args).bind_eq fun _ => .ok rfl
  unfold call
  rw [heffect.name, heffect.position]
  generalize effect.args.getLast? = o at hlast ⊢
  generalize effect'.args.getLast? = o' at hlast ⊢
  cases hlast with
  | none => exact hplain
  | some harg =>
    cases harg with
    | continuation offset =>
      dsimp only
      rw [hinit.length_eq]
      refine .ite _ (.error trivial) ?_
      exact (renamed_tailStart hS h (List.forall₂_drop _ hinit)).bind_eq fun _ =>
        (hargs (List.forall₂_take _ hinit)).bind_eq fun _ => .ok rfl
    | _ => exact hplain

end Lookup

end Scope

/-! ## Methods -/

/-- **A rule with other names gives the same clause**, in every method. -/
theorem renamed_clause (hS : Relator.BiUnique S) (signature : Signature) {rule rule' : Rule}
    (h : rule.Renamed S rule') :
    Matches AnyError Eq (Clause.ofRule signature rule) (Clause.ofRule signature rule') := by
  have hstart := Scope.renamed_ofRule signature h
  have hcalls : ∀ {scope scope' : Scope}, Scope.Renamed S scope scope' →
      Matches AnyError Eq (rule.effects.mapM scope.call) (rule'.effects.mapM scope'.call) :=
    fun hscope => Matches.mapM_eq h.effects fun _ _ => Scope.renamed_call hS hscope
  have hcondition := h.condition
  unfold Clause.ofRule
  generalize rule.condition = c at hcondition ⊢
  generalize rule'.condition = c' at hcondition ⊢
  cases hcondition with
  | none => exact (hcalls hstart).bind_eq fun _ => .ok rfl
  | some hc =>
    refine (Scope.renamed_collect hS hstart hc).bind fun scope scope' hscope => ?_
    refine (Scope.renamed_formula hS hscope hc).bind_eq fun formula => ?_
    rw [hscope.listed]
    cases formula with
    | none => exact (hcalls hscope).bind_eq fun _ => .ok rfl
    | some _ => exact (hcalls hscope).bind_eq fun _ => .ok rfl

/-- Rules of one intention that give the same clause in every method. -/
structure Interchangeable (rule rule' : Rule) : Prop where
  name : rule.intention.name = rule'.intention.name
  params : Matches AnyError Params.Like (paramsOf rule) (paramsOf rule')
  clause : ∀ signature, Matches AnyError Eq (Clause.ofRule signature rule)
    (Clause.ofRule signature rule')

theorem interchangeable_of_renamed (hS : Relator.BiUnique S) {rule rule' : Rule}
    (h : rule.Renamed S rule') : Interchangeable rule rule' :=
  ⟨h.intention.name, renamed_paramsOf hS h, fun signature => renamed_clause hS signature h⟩

theorem Interchangeable.refl (rule : Rule) : Interchangeable rule rule := by
  refine ⟨rfl, ?_, fun _ => .same fun _ => trivial⟩
  cases paramsOf rule with
  | ok params => exact .ok ⟨rfl, rfl⟩
  | error => exact .error trivial

section Signatures

variable {rules rules' : List Rule}

theorem commonStart_interchangeable (h : List.Forall₂ Interchangeable rules rules')
    (earlier : Option Nat) :
    Matches AnyError Eq (commonStart earlier rules) (commonStart earlier rules') := by
  induction h generalizing earlier with
  | nil => exact .ok rfl
  | cons hrule _ ih =>
    refine hrule.params.bind fun params params' hlike => ?_
    rw [hlike.1, hlike.2]
    split
    · exact ih _
    · exact ih _
    · exact .ite _ (ih _) (.error trivial)

theorem checkCounts_interchangeable (fits : Nat → Bool) (reason : Nat → Disagreement)
    (h : List.Forall₂ Interchangeable rules rules') :
    Matches AnyError Eq (checkCounts fits reason rules) (checkCounts fits reason rules') := by
  induction h with
  | nil => exact .ok rfl
  | cons hrule _ ih =>
    refine hrule.params.bind fun params params' hlike => ?_
    rw [hlike.1]
    exact .ite _ ih (.error trivial)

/-- The names of the parameters of a method. -/
def paramNames (rules : List Rule) : Except EmitError (List String) :=
  match rules with
  | first :: _ => Params.names <$> paramsOf first
  | [] => .ok []

/-- Rules share a signature when the names in it are those of the first rule. -/
theorem signature_interchangeable (h : List.Forall₂ Interchangeable rules rules')
    (hnames : Matches AnyError Eq (paramNames rules) (paramNames rules')) :
    Matches AnyError Eq (Signature.ofRules rules) (Signature.ofRules rules') := by
  cases h with
  | nil => exact .ok rfl
  | cons hfirst hrest =>
    have h := List.Forall₂.cons hfirst hrest
    refine (commonStart_interchangeable h none).bind_eq fun start => ?_
    refine Matches.bind_eq hnames fun names => ?_
    split
    · exact (checkCounts_interchangeable _ _ h).bind_eq fun _ => .ok rfl
    · exact (checkCounts_interchangeable _ _ h).bind_eq fun _ => .ok rfl

theorem method_interchangeable (name : String) (h : List.Forall₂ Interchangeable rules rules')
    (hnames : Matches AnyError Eq (paramNames rules) (paramNames rules')) :
    Matches AnyError Eq (Method.ofRules name rules) (Method.ofRules name rules') :=
  (signature_interchangeable h hnames).bind_eq fun signature =>
    (Matches.mapM_eq h fun _ _ hrule => hrule.clause signature).bind_eq fun _ => .ok rfl

end Signatures

/-- The parameters of a method are named by another rule, or alike. -/
theorem paramNames_eq {rule rule' : Rule} (h : Interchangeable rule rule')
    {before after : List Rule}
    (hfirst : (∀ earlier ∈ before, earlier.intention.name ≠ rule.intention.name) →
      paramsOf rule = paramsOf rule') (name : String) :
    Matches AnyError Eq (paramNames (rulesOf (before ++ rule :: after) name))
      (paramNames (rulesOf (before ++ rule' :: after) name)) := by
  have happend : ∀ r, rulesOf (before ++ r :: after) name =
      rulesOf before name ++ rulesOf (r :: after) name := fun r => List.filter_append ..
  rw [happend, happend]
  cases hbefore : rulesOf before name with
  | cons first rest => exact .same fun _ => trivial
  | nil =>
    by_cases hname : rule.intention.name = name
    · have hearlier : ∀ earlier ∈ before, earlier.intention.name ≠ rule.intention.name := by
        intro earlier hmem heq
        exact List.filter_eq_nil_iff.mp hbefore earlier hmem (by simp [heq, hname])
      have hname' : rule'.intention.name = name := h.name.symm.trans hname
      simp only [rulesOf, List.nil_append, List.filter_cons, hname, hname', decide_true, if_true,
        paramNames, hfirst hearlier]
      exact .same fun _ => trivial
    · have hname' : rule'.intention.name ≠ name := fun heq => hname (h.name.trans heq)
      simp only [rulesOf, List.nil_append, List.filter_cons, hname, hname', decide_false]
      exact .same fun _ => trivial

/-- **One rule of a program may be put in the place of another**, but if it is the first one of its
intention it must name its parameters alike. -/
theorem methodsText_interchangeable {rule rule' : Rule} (h : Interchangeable rule rule')
    {before after : List Rule}
    (hfirst : (∀ earlier ∈ before, earlier.intention.name ≠ rule.intention.name) →
      paramsOf rule = paramsOf rule') :
    Matches AnyError Eq (methodsText ⟨before ++ rule :: after⟩)
      (methodsText ⟨before ++ rule' :: after⟩) := by
  have hrules : List.Forall₂ Interchangeable (before ++ rule :: after)
      (before ++ rule' :: after) :=
    List.rel_append (List.forall₂_same.mpr fun r _ => .refl r)
      (.cons h (List.forall₂_same.mpr fun r _ => .refl r))
  have hnames : intentionNames (before ++ rule :: after) =
      intentionNames (before ++ rule' :: after) :=
    congrArg List.eraseDups (map_eq_of_forall₂ hrules fun _ _ => Interchangeable.name)
  have hmethod : ∀ name, Matches AnyError Eq
      (Method.ofRules name (rulesOf (before ++ rule :: after) name))
      (Method.ofRules name (rulesOf (before ++ rule' :: after) name)) := by
    intro name
    refine method_interchangeable name (List.rel_filter (fun r r' hr => ?_) hrules) ?_
    · dsimp only
      rw [hr.name]
    · exact paramNames_eq h hfirst name
  have hprogram : Matches AnyError Eq (ofProgram ⟨before ++ rule :: after⟩)
      (ofProgram ⟨before ++ rule' :: after⟩) := by
    rw [ofProgram_eq, ofProgram_eq, ← hnames]
    exact Matches.bind_eq (.same fun _ => trivial) fun _ => Matches.mapM_same _ hmethod
  exact hprogram.bind_eq fun _ => .ok rfl

end CausalRules.Imitation
