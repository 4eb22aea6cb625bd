import CausalRules.Proofs.Imitation.Guards

/-!
# Methods replay plain rules

A rule is plain when nothing in it stands for further arguments and no list is compared with all
objects of a type. The predicates of such a rule that bind variables are all left out of the guard.
They stand outside of every `or`, so a true condition makes them true, and that is what the scope
needs to be sound.

- `Rule.Plain`: the rules that are meant.
- `values_of_calls`, `value?_of_ofRules`: their effects and intentions have values.
- `dropped_of_collect`, `residue?_of_mem_binders`: what their conditions do to a scope.
- `truth?_of_dropped`, `sound_of_means`: where the condition is true, the scope is sound.
- `truth?_of_guard`: there the guard lets the method replay.
- `Clause.run?_of_means`: a method of one such rule returns its effects.
-/

namespace CausalRules

/-- A rule in which nothing stands for further arguments, and no list is compared with all objects
of a type. -/
structure Rule.Plain (rule : Rule) : Prop extends rule.Explicit where
  effects : ∀ effect ∈ rule.effects, ∀ arg ∈ effect.args, arg.continuation? = none
  condition : ∀ c, rule.condition = some c → ∀ p ∈ c.atoms, ∀ typeName items,
    ¬ p.Enumerates typeName items

namespace Imitation

variable {V : Type} {m : Interpretation V} {scene : Scene V} {ρ : String → V} {frame : Frame V}
  {rule : Rule} {scope after : Scope} {underOr : Bool} {p : Predicate} {c : Condition}
  {position : Nat}

/-! ## Effects and intentions -/

/-- An argument that has a term has a value. -/
theorem exists_value?_of_argTerm {arg : Arg} {t : Term} (h : scope.argTerm position arg = .ok t) :
    ∃ v, arg.value? m ρ = some v := by
  cases arg with
  | continuation | state => cases h
  | _ => exact ⟨_, rfl⟩

/-- Effects that are written out and have calls have values. -/
theorem values_of_calls (m : Interpretation V) (ρ : String → V) {effects : List Action}
    {calls : List Call} (h : effects.mapM scope.call = .ok calls)
    (hplain : ∀ effect ∈ effects, ∀ arg ∈ effect.args, arg.continuation? = none) :
    ∃ values, effects.mapM (Action.value? m ρ) = some values := by
  rw [exists_mapM_eq_some_iff]
  intro effect heffect
  obtain ⟨call, -, hcall⟩ := exists_of_forall₂ (mapM_eq_ok_iff.mp h) heffect
  have hargs : ∃ values, effect.args.mapM (Arg.value? m ρ) = some values := by
    rw [exists_mapM_eq_some_iff]
    intro arg harg
    unfold Scope.call at hcall
    split at hcall
    · rename_i offset hoffset
      cases hplain effect heffect _ (List.mem_of_getLast? hoffset)
    · obtain ⟨terms, hterms, -⟩ := bind_eq_ok.mp hcall
      obtain ⟨t, -, ht⟩ := exists_of_forall₂ (mapM_eq_ok_iff.mp hterms) harg
      exact exists_value?_of_argTerm ht
  obtain ⟨values, hvalues⟩ := hargs
  exact ⟨(effect.name, values), Option.map_eq_some_iff.mpr ⟨values, hvalues, rfl⟩⟩

/-- The call of an effect that is written out has the value of the effect. -/
theorem eq_of_performs {effect : Action} {value : String × List V}
    (h : scope.Performs m frame ρ effect value)
    (hplain : ∀ arg ∈ effect.args, arg.continuation? = none) :
    effect.value? m ρ = some value := by
  cases h with
  | written _ hvalues => exact Option.map_eq_some_iff.mpr ⟨_, hvalues, rfl⟩
  | continued hargs =>
    rw [hargs] at hplain
    cases hplain _ (List.mem_append_right _ (List.mem_singleton_self _))

/-- Arguments that are parameters and are written out are variables. -/
theorem args_of_ofArgs? {args : List Arg} {params : Params} (h : Params.ofArgs? args = some params)
    (hargs : ∀ arg ∈ args, arg.continuation? = none) :
    args.mapM (Arg.value? m ρ) = some ((args.filterMap Arg.variableName?).map ρ) := by
  fun_induction Params.ofArgs? args generalizing params with
  | case1 => rfl
  | case2 name rest ih =>
    obtain ⟨params', hrest, -⟩ := Option.bind_eq_some_iff.mp h
    exact mapM_cons_eq_some rfl (ih hrest fun arg harg => hargs arg (List.mem_cons_of_mem _ harg))
  | case3 offset rest => cases hargs _ (List.mem_cons_self ..)
  | case4 => cases h

/-- The intention of a rule that has a method of its own is called with its variables. -/
theorem value?_of_ofRules {signature : Signature} (h : Signature.ofRules [rule] = .ok signature)
    (hargs : ∀ arg ∈ rule.intention.args, arg.continuation? = none) :
    rule.intention.value? m ρ = some (rule.intention.name, rule.variables.map ρ) := by
  obtain ⟨start, -, h⟩ := bind_eq_ok.mp h
  obtain ⟨names, hnames, -⟩ := bind_eq_ok.mp h
  obtain ⟨params, hparams, -⟩ := map_eq_ok.mp hnames
  rw [Action.value?, args_of_ofArgs? (ofArgs?_of_paramsOf hparams) hargs]
  rfl

/-! ## Scopes -/

namespace Scope

/-- Without comparisons of all objects of a type nothing is listed, and what predicates leave behind
is nothing. -/
theorem dropped_of_collect (h : (scope.collect underOr c).result = .ok after)
    (hplain : ∀ p ∈ c.atoms, ∀ typeName items, ¬ p.Enumerates typeName items)
    (hlisted : scope.listed = []) (hresidues : ∀ pair ∈ scope.residues, pair.2 = .drop) :
    after.listed = [] ∧ ∀ pair ∈ after.residues, pair.2 = .drop := by
  refine collect_induction (P := fun s => s.listed = [] ∧ ∀ pair ∈ s.residues, pair.2 = .drop)
    ?_ h ⟨hlisted, hresidues⟩
  rintro p hp u s t hlearns ⟨hs, hdrop⟩
  cases hlearns with
  | nothing => exact ⟨hs, hdrop⟩
  | equal => exact ⟨hs, List.forall_mem_cons.mpr ⟨rfl, hdrop⟩⟩
  | members enumerates => exact (hplain p hp _ _ enumerates).elim

/-- A predicate that binds a variable is dropped, and says that two arguments are equal. -/
theorem residue?_of_mem_binders (h : (scope.collect underOr c).result = .ok after)
    (hnodup : (c.atoms.map Predicate.position).Nodup)
    (hplain : ∀ p ∈ c.atoms, ∀ typeName items, ¬ p.Enumerates typeName items)
    (hp : p ∈ scope.binders underOr c) :
    p ∈ c.atoms ∧ after.residue? p.position = some .drop ∧ ∃ a b, p.Equates a b := by
  induction c generalizing scope after underOr with
  | atom q =>
    have hbind : (scope.bindPredicate underOr q).result = .ok after := h
    rw [binders, hbind] at hp
    dsimp only at hp
    split at hp
    · cases hp
    · rename_i hne
      rw [List.mem_singleton.mp hp]
      have hq := List.mem_singleton_self q
      -- of the three steps only one binds a variable without listing objects
      cases learns_of_bindPredicate hbind with
      | nothing => exact (hne rfl).elim
      | equal equates => exact ⟨hq, residue?_settle _ _ _, _, _, equates⟩
      | members enumerates => exact (hplain q hq _ _ enumerates).elim
  | group inner ih => exact ih h hnodup hplain hp
  | chain left op right ihl ihr =>
    obtain ⟨mid, hl, hr⟩ := Trail.bind_eq_ok.mp h
    obtain ⟨hnodupl, hnodupr⟩ := nodup_of_chain hnodup
    rw [binders, hl] at hp
    rcases List.mem_append.mp hp with hp | hp
    · obtain ⟨hmem, hdrop, hequates⟩ :=
        ihl hl hnodupl (fun p hp => hplain p (List.mem_append_left _ hp)) hp
      refine ⟨List.mem_append_left _ hmem, ?_, hequates⟩
      rw [residue?_of_right hnodup hr hmem]
      exact hdrop
    · obtain ⟨hmem, hdrop⟩ :=
        ihr hr hnodupr (fun p hp => hplain p (List.mem_append_right _ hp)) hp
      exact ⟨List.mem_append_right _ hmem, hdrop⟩

/-- Where a condition is true, so are the predicates that are left out of its guard. -/
theorem truth?_of_dropped (hcollect : (scope.collect false c).result = .ok after)
    (hstart : scope.residues = []) (hread : c.WellRead) (hmeans : c.Means m scene ρ true)
    (hp : p ∈ c.atoms) (hdrop : after.residue? p.position = some .drop) :
    p.truth? m scene ρ = some true := by
  obtain ⟨truth, htruth, hreads⟩ := hmeans
  have hor := omittedOutsideOr_of_wellRead hcollect hstart hread
  have htrue := Formula.holds_of_omitted hread.nested hor (Formula.reads_symbols_iff.mp hreads) hp
    hdrop
  rw [htruth p hp, htrue]

theorem holdsInOrder_of_equates {a b : Arg} (hp : p.Equates a b)
    (h : p.truth? m scene ρ = some true) : p.HoldsInOrder m scene ρ := by
  rcases hp with hp | hp
  · rw [hp] at h ⊢
    exact h
  · rw [hp] at h ⊢
    exact h

/-- **Where a condition is true, the scope after it is sound.** -/
theorem sound_of_means (hsound : scope.Sound m frame ρ)
    (hcollect : (scope.collect false c).result = .ok after) (hstart : scope.residues = [])
    (hlisted : after.listed = []) (hread : c.WellRead)
    (hplain : ∀ p ∈ c.atoms, ∀ typeName items, ¬ p.Enumerates typeName items)
    (hmeans : c.Means m scene ρ true) : after.Sound m frame ρ := by
  have hlists : frame.Lists m scene after.listed := by
    rw [hlisted]
    exact nofun
  refine hsound.collect hcollect hlists fun p hp => ?_
  obtain ⟨hmem, hdrop, a, b, hequates⟩ := residue?_of_mem_binders hcollect hread.nodup hplain hp
  exact holdsInOrder_of_equates hequates
    (truth?_of_dropped hcollect hstart hread hmeans hmem hdrop)

end Scope

/-! ## Guards -/

/-- The term of an operand has its value. -/
theorem value?_of_operandTerm (scene : Scene V) (hsound : scope.Sound m frame ρ)
    {operand : Operand} {t : Term} (h : scope.operandTerm position operand = .ok t) :
    operand.Single ∧ t.value? m scene frame = operand.value? m scene ρ := by
  cases operand with
  | value arg =>
    obtain ⟨v, hv, ht⟩ := Scope.value?_of_argTerm scene hsound h
    exact ⟨trivial, ht.trans hv.symm⟩
  | type name =>
    obtain ⟨binding, hbinding, h⟩ := bind_eq_ok.mp h
    obtain rfl := pure_eq_ok.mp h
    refine ⟨trivial, ?_⟩
    rw [Term.value?, hsound _ _ (Scope.binding?_of_resolve hbinding)]
    rfl
  | all | list => cases h

/-- A test that is left holds when its predicate does. -/
theorem truth?_of_test (scene : Scene V) (hsound : scope.Sound m frame ρ) {t : Test}
    (h : scope.test p = .ok (some t))
    (hplain : ∀ checks, scope.residue? p.position ≠ some (.replace checks)) :
    t.truth? m scene frame = p.truth? m scene ρ := by
  unfold Scope.test at h
  split at h
  · cases h
    rfl
  · cases h
  · split at h
    · cases h
    · rename_i hreplace
      exact (hplain _ hreplace).elim
    · split at h
      · cases h
      · obtain ⟨l, hl, h⟩ := bind_eq_ok.mp h
        obtain ⟨r, hr, h⟩ := bind_eq_ok.mp h
        obtain rfl := Option.some.inj (pure_eq_ok.mp h)
        obtain ⟨hsingle, hleft⟩ := value?_of_operandTerm scene hsound hl
        obtain ⟨-, hright⟩ := value?_of_operandTerm scene hsound hr
        rw [Test.truth?, hleft, hright, Predicate.truth?_compare scene hsingle]

/-- Where a condition is true, its guard lets a method replay. -/
theorem truth?_of_guard (hsound : after.Sound m frame ρ)
    (hcollect : (scope.collect false c).result = .ok after) (hstart : scope.residues = [])
    (hresidues : ∀ pair ∈ after.residues, pair.2 = .drop) (hread : c.WellRead)
    (hmeans : c.Means m scene ρ true) {r : Option (Formula Test)}
    (hformula : after.formula c = .ok r) : (Guard.ofRest r).truth? m scene frame = some true := by
  have hplain : ∀ position checks, after.residue? position ≠ some (.replace checks) := by
    intro position checks h
    cases hresidues _ (mem_of_lookup h)
  have hdropped := fun p hp => Scope.truth?_of_dropped (p := p) hcollect hstart hread hmeans hp
  obtain ⟨truth, htruth, hreads⟩ := hmeans
  have hrest : Formula.valueOfRest (fun unit => truth unit.1) (after.rest c) = true := by
    rw [Scope.valueOfRest_rest hcollect hstart hread hformula ?_ fun _ _ _ _ => rfl]
    · exact Formula.reads_symbols_iff.mp hreads
    · intro p hp hdrop
      have h := hdropped p hp hdrop
      rw [htruth p hp] at h
      exact Option.some.inj h
  obtain ⟨rfl, -⟩ := Scope.formula_eq_ok hformula
  cases hf : after.rest c with
  | none => rfl
  | some f =>
    rw [hf] at hrest
    show (f.map Prod.snd).value? (Test.truth? m scene frame) = some true
    refine Formula.ReadsAs.value? (Formula.readsAs_map.mpr ?_)
    refine ⟨fun unit => truth unit.1, ?_, Formula.reads_symbols_iff.mpr hrest⟩
    intro unit hunit
    -- each test that remains is that of a predicate, whose truth value it has
    have hmem : unit ∈ c.atoms.filterMap after.unit? := by
      have hfilter : c.filterMap after.unit? = some f := hf
      rw [← Formula.atoms_filterMap, hfilter]
      exact hunit
    obtain ⟨p, hp, hunit⟩ := List.mem_filterMap.mp hmem
    obtain ⟨t, ht, rfl⟩ := Scope.test_of_unit? hunit
    exact (truth?_of_test scene hsound ht (hplain _)).trans (htruth p hp)

/-! ## Clauses -/

/-- **Replaying**: where the condition is true, the one clause of a method returns the effects of
its rule when the method is called with the arguments of the intention. -/
theorem Clause.run?_of_means {name : String} {method : Method}
    (h : Method.ofRules name [rule] = .ok method) (hplain : rule.Plain)
    (hread : ∀ c, rule.condition = some c → c.WellRead)
    (hmeans : ∀ c, rule.condition = some c → c.Means m scene ρ true) :
    ∃ effects args clause, rule.effects.mapM (Action.value? m ρ) = some effects ∧
      rule.intention.value? m ρ = some (rule.intention.name, args) ∧
      method.signature.star = none ∧ method.signature.Accepts args.length ∧
      method.clauses = [clause] ∧ clause.listed = [] ∧
      ∀ frame, method.signature.Receives frame args →
        clause.run? m scene frame = some (some effects) := by
  obtain ⟨-, hsignature, hclauses⟩ := eq_of_ofRules h
  obtain ⟨clause, clauses, hof, hnil, hclauses⟩ := List.forall₂_cons_left_iff.mp hclauses
  rw [List.forall₂_nil_left_iff.mp hnil] at hclauses
  obtain ⟨scope, hscope, hlisted, hcalls, habsent, hguard⟩ := eq_of_ofRule hof
  obtain ⟨effects, heffects⟩ := values_of_calls m ρ hcalls hplain.effects
  have haccepts := accepts_of_ofRules hsignature rule (List.mem_singleton_self rule)
  have hready : scope.listed = [] ∧ ∀ frame,
      method.signature.Receives frame (rule.variables.map ρ) →
      scope.Sound m frame ρ ∧ clause.guard.truth? m scene frame = some true := by
    cases hc : rule.condition with
    | none =>
      rw [Clause.scope, hc] at hscope
      obtain rfl := Except.ok.inj hscope
      refine ⟨rfl, fun frame hreceives => ⟨Scope.sound_ofRule haccepts hreceives, ?_⟩⟩
      rw [habsent hc]
      rfl
    | some c =>
      rw [Clause.scope, hc] at hscope
      have hplainc := hplain.condition c hc
      obtain ⟨hnone, hdrop⟩ :=
        Scope.dropped_of_collect hscope hplainc rfl (List.forall_mem_nil _)
      obtain ⟨r, hformula, hrest⟩ := hguard c hc
      refine ⟨hnone, fun frame hreceives => ?_⟩
      have hsound := Scope.sound_of_means (Scope.sound_ofRule haccepts hreceives) hscope rfl hnone
        (hread c hc) hplainc (hmeans c hc)
      rw [hrest]
      exact ⟨hsound, truth?_of_guard hsound hscope rfl hdrop (hread c hc) (hmeans c hc) hformula⟩
  obtain ⟨hnone, hready⟩ := hready
  refine ⟨effects, rule.variables.map ρ, clause, heffects,
    value?_of_ofRules hsignature hplain.intention, ?_, ?_, hclauses, hlisted.trans hnone, ?_⟩
  · refine star_of_ofRules hsignature fun other hother => ?_
    rw [List.mem_singleton.mp hother]
    exact hplain.intention
  · rw [List.length_map]
    exact haccepts
  · intro frame hreceives
    obtain ⟨hsound, htruth⟩ := hready frame hreceives
    have hvalues : clause.calls.mapM (Call.value? m scene frame) = some effects := by
      refine mapM_eq_some_iff.mpr
        (forall₂_of_forall₂ (mapM_eq_ok_iff.mp hcalls) (mapM_eq_some_iff.mp heffects) ?_)
      intro effect heffect call value hcall hvalue
      obtain ⟨found, hfound, hperforms⟩ := Scope.performs_of_call scene hsound hcall
      have heq := eq_of_performs hperforms (hplain.effects effect heffect)
      rw [hfound, ← heq, hvalue]
    rw [Clause.run?, htruth, hvalues]
    rfl

end Imitation

end CausalRules
