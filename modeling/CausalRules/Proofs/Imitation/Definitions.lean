import CausalRules.Proofs.Imitation.Points
import CausalRules.Proofs.Rule

/-!
# What methods read is defined before

The guard of a rule and its calls read names for the variables of the rule: parameters of the
method, and lists of the objects of types. The head of the method defines the first, and the clause
of the rule begins with statements that assign the second.

- `Script.Line.Defines`: the lines that define a name.
- `Clause.roots`: the names that a clause reads, apart from inline code.
- `Scope.Grounded.provides_of_test`, `Scope.Grounded.provides_of_call`: where bindings have a
  source, these names are parameters or lists of listed types.
- `Clause.points`: the scopes that a rule goes through.
- `ofRules_traced`: what holds at each of them, and of the method.
-/

namespace CausalRules

/-- A line defines a name: it is the head of a function that has the name among its parameters, or
it assigns a value to it. -/
def Script.Line.Defines (line : Script.Line) (name : String) : Prop :=
  (∃ function params, Script.words line.text = "def" :: function :: params ∧ name ∈ params) ∨
    ∃ value, line.text = name ++ " = " ++ value

namespace Imitation

open Script (membersName)

/-! ## Names that are read -/

/-- The name by which a binding is read, unless it is a constant. -/
def Binding.root? : Binding → Option String
  | .param name => some name
  | .element sequence _ => some sequence
  | .constant _ => none

/-- The names that a check reads. -/
def Check.roots : Check → List String
  | .same element known => element.root?.toList ++ known.root?.toList
  | .noElements sequence => [sequence]

/-- The names that a value reads for the variables of its rule. -/
def Term.roots : Term → List String
  | .value binding | .typeOf binding => binding.root?.toList
  | .python _ => []

/-- The names that a test reads for the variables of its rule. -/
def Test.roots : Test → List String
  | .python _ => []
  | .conjunction checks => checks.flatMap Check.roots
  | .compare left _ right => left.roots ++ right.roots

/-- The names that a guard reads. -/
def Guard.roots : Guard → List String
  | .test formula => formula.atoms.flatMap Test.roots
  | .absent | .satisfied => []

/-- The names that a call reads. -/
def Call.roots (call : Call) : List String :=
  call.args.flatMap Term.roots ++ call.tail.toList.map Prod.fst

/-- The names that the guard of a clause and its calls read for the variables of its rule. -/
def Clause.roots (clause : Clause) : List String :=
  clause.guard.roots ++ clause.calls.flatMap Call.roots

/-- The name is a parameter, or the list of the objects of a type that is listed. -/
def Provides (signature : Signature) (listed : List String) (root : String) : Prop :=
  root ∈ signature.fixed ++ signature.star.toList ∨
    ∃ typeName ∈ listed, root = membersName typeName

section Roots

variable {signature : Signature} {listed : List String} {scope : Scope} {position : Nat}

theorem Binding.Grounded.provides {binding : Binding} (h : binding.Grounded signature listed) :
    ∀ root ∈ binding.root?.toList, Provides signature listed root := by
  cases h with
  | fixed h => exact List.forall_mem_singleton.mpr (.inl (List.mem_append_left _ h))
  | star index h =>
    refine List.forall_mem_singleton.mpr (.inl (List.mem_append_right _ ?_))
    rw [h]
    exact List.mem_singleton_self _
  | member index h => exact List.forall_mem_singleton.mpr (.inr ⟨_, h, rfl⟩)
  | constant value => exact List.forall_mem_nil _

theorem Check.Grounded.provides {check : Check} (h : check.Grounded signature listed) :
    ∀ root ∈ check.roots, Provides signature listed root := by
  cases h with
  | same helement hknown => exact List.forall_mem_append.mpr ⟨helement.provides, hknown.provides⟩
  | noElements h => exact List.forall_mem_singleton.mpr (.inr ⟨_, h, rfl⟩)

namespace Scope.Grounded

variable (h : scope.Grounded signature)

include h

theorem provides_of_argTerm {arg : Arg} {t : Term} (ht : scope.argTerm position arg = .ok t) :
    ∀ root ∈ t.roots, Provides signature scope.listed root := by
  unfold argTerm at ht
  split at ht
  · obtain ⟨binding, hbinding, ht⟩ := bind_eq_ok.mp ht
    obtain rfl := pure_eq_ok.mp ht
    exact (h.of_binding? (binding?_of_resolve hbinding)).provides
  · obtain rfl := pure_eq_ok.mp ht
    exact List.forall_mem_nil _
  · cases ht
  · cases ht
  · split at ht
    · obtain rfl := pure_eq_ok.mp ht
      exact List.forall_mem_nil _
    · cases ht

theorem provides_of_operandTerm {operand : Operand} {t : Term}
    (ht : scope.operandTerm position operand = .ok t) :
    ∀ root ∈ t.roots, Provides signature scope.listed root := by
  cases operand with
  | value arg => exact h.provides_of_argTerm ht
  | type name =>
    obtain ⟨binding, hbinding, ht⟩ := bind_eq_ok.mp ht
    obtain rfl := pure_eq_ok.mp ht
    exact (h.of_binding? (binding?_of_resolve hbinding)).provides
  | all | list => cases ht

theorem provides_of_test {p : Predicate} {t : Test} (ht : scope.test p = .ok (some t)) :
    ∀ root ∈ t.roots, Provides signature scope.listed root := by
  unfold test at ht
  split at ht
  · obtain rfl := Option.some.inj (pure_eq_ok.mp ht)
    exact List.forall_mem_nil _
  · cases ht
  · split at ht
    · cases ht
    · rename_i checks hresidue
      obtain rfl := Option.some.inj (pure_eq_ok.mp ht)
      intro root hroot
      obtain ⟨check, hcheck, hroot⟩ := List.mem_flatMap.mp hroot
      exact (h.checks _ (mem_of_lookup hresidue) checks rfl check hcheck).provides root hroot
    · split at ht
      · cases ht
      · obtain ⟨l, hl, ht⟩ := bind_eq_ok.mp ht
        obtain ⟨r, hr, ht⟩ := bind_eq_ok.mp ht
        obtain rfl := Option.some.inj (pure_eq_ok.mp ht)
        exact List.forall_mem_append.mpr
          ⟨h.provides_of_operandTerm hl, h.provides_of_operandTerm hr⟩

theorem provides_of_formula {c : Condition} {r : Option (Formula Test)}
    (hformula : scope.formula c = .ok r) :
    ∀ root ∈ (Guard.ofRest r).roots, Provides signature scope.listed root := by
  cases r with
  | none => exact List.forall_mem_nil _
  | some f =>
    obtain ⟨hrest, -⟩ := formula_eq_ok hformula
    obtain ⟨units, hunits, rfl⟩ := Option.map_eq_some_iff.mp hrest.symm
    have hatoms : units.atoms = c.atoms.filterMap scope.unit? := by
      rw [← Formula.atoms_filterMap, ← rest, hunits]
      rfl
    intro root hroot
    obtain ⟨t, ht, hroot⟩ := List.mem_flatMap.mp hroot
    rw [Formula.atoms_map, hatoms] at ht
    obtain ⟨unit, hunit, rfl⟩ := List.mem_map.mp ht
    obtain ⟨p, -, hunit⟩ := List.mem_filterMap.mp hunit
    obtain ⟨t, htest, rfl⟩ := test_of_unit? hunit
    exact h.provides_of_test htest root hroot

theorem provides_of_argTerms {args : List Arg} {terms : List Term}
    (hterms : args.mapM (scope.argTerm position) = .ok terms) :
    ∀ root ∈ terms.flatMap Term.roots, Provides signature scope.listed root := by
  intro root hroot
  obtain ⟨t, ht, hroot⟩ := List.mem_flatMap.mp hroot
  obtain ⟨arg, -, hterm⟩ := exists_of_forall₂ (mapM_eq_ok_iff.mp hterms).flip ht
  exact h.provides_of_argTerm hterm root hroot

theorem provides_of_call {effect : Action} {call : Call} (hcall : scope.call effect = .ok call) :
    ∀ root ∈ call.roots, Provides signature scope.listed root := by
  unfold Scope.call at hcall
  split at hcall
  · dsimp only at hcall
    split at hcall
    · cases hcall
    · obtain ⟨⟨sequence, start⟩, hstart, hcall⟩ := bind_eq_ok.mp hcall
      obtain ⟨terms, hterms, hcall⟩ := bind_eq_ok.mp hcall
      obtain rfl := pure_eq_ok.mp hcall
      refine List.forall_mem_append.mpr ⟨h.provides_of_argTerms hterms, ?_⟩
      -- the first of the covered variables is bound to an element of the sequence
      obtain ⟨hne, hcovered⟩ := covered_of_tailStart hstart
      obtain ⟨arg, rest, hcons⟩ := List.exists_cons_of_ne_nil hne
      obtain ⟨name, -, hbound⟩ := hcovered 0 arg (by rw [hcons]; rfl)
      exact (h.of_binding? hbound).provides
  · obtain ⟨terms, hterms, hcall⟩ := bind_eq_ok.mp hcall
    obtain rfl := pure_eq_ok.mp hcall
    exact List.forall_mem_append.mpr ⟨h.provides_of_argTerms hterms, List.forall_mem_nil _⟩

end Scope.Grounded

end Roots

/-! ## Rules and their methods -/

/-- The scopes while a rule is read, from that of its intention on. -/
def Clause.points (signature : Signature) (rule : Rule) : List Scope :=
  Scope.ofRule signature rule ::
    match rule.condition with
    | none => []
    | some c => ((Scope.ofRule signature rule).collect false c).points

section Rules

variable {limits : Limits} {text : String} {program : Program} {name : String}
  {signature : Signature} {rule : Rule}

/-- The points of a rule are passed one after the other, up to the scope of its clause. -/
theorem passes_points (signature : Signature)
    (hread : ∀ c, rule.condition = some c → c.WellRead) :
    ∃ points last, Clause.points signature rule = Scope.ofRule signature rule :: points ∧
      Scope.Passes (Scope.ofRule signature rule) points last ∧
      ∀ scope, Clause.scope signature rule = .ok scope → last = scope := by
  unfold Clause.points Clause.scope
  cases hc : rule.condition with
  | none => exact ⟨[], _, rfl, .nil _, fun _ h => Except.ok.inj h⟩
  | some c =>
    have hnew : ∀ p ∈ c.atoms, (Scope.ofRule signature rule).residue? p.position = none :=
      fun _ _ => rfl
    obtain ⟨last, hpasses, hlast⟩ := Scope.traces_collect (hread c hc).nodup hnew
    exact ⟨_, last, rfl, hpasses, fun scope hscope => (hlast scope hscope).symm⟩

/-- The variables of each rule that shares a signature are different. -/
theorem nodup_of_ofRules {rules : List Rule} (hwell : ∀ rule ∈ rules, rule.WellFormed)
    (h : Signature.ofRules rules = .ok signature) (hrule : rule ∈ rules) :
    rule.variables.Nodup := by
  cases rules with
  | nil => cases hrule
  | cons first rest =>
    have hplaced : ∀ rule ∈ first :: rest, ContinuationsPlaced rule.intention.args :=
      fun rule hrule => (hwell rule hrule).intention.args.placed
    exact (((ofRules_eq_ok_iff hplaced).mp h).1 rule hrule).nodup

/-- The list of the objects of a type is assigned. -/
theorem defines_listStatement (typeName : String) :
    (Script.Line.mk 1 (listStatement typeName)).Defines (membersName typeName) := by
  obtain ⟨rest, hrest⟩ : ∃ rest,
      listStatement typeName = membersName typeName ++ (" = [" ++ rest) := by
    apply Exists.intro
    simp only [listStatement, toString, String.append_assoc]
    rfl
  have hopen : " = [" = " = " ++ "[" := rfl
  refine .inr ⟨"[" ++ rest, hrest.trans ?_⟩
  rw [hopen, String.append_assoc, String.append_assoc]

/-- The head of a method defines its parameters. -/
theorem defines_head {method : Method} (hname : IsName method.name)
    (hparams : ∀ param ∈ method.signature.fixed ++ method.signature.star.toList,
      Script.IsWord param) :
    ∀ param ∈ method.signature.fixed ++ method.signature.star.toList,
      (Script.Line.mk 0 method.head).Defines param := by
  intro param hparam
  exact .inl ⟨_, _, words_head hname hparams, List.mem_cons_of_mem _ hparam⟩

/-- The names that a clause reads are parameters, or lists of the types that it lists. -/
theorem provides_of_ofRule {clause : Clause} (haccepts : signature.Accepts rule.variables.length)
    (hread : ∀ c, rule.condition = some c → c.WellRead)
    (h : Clause.ofRule signature rule = .ok clause) :
    ∀ root ∈ clause.roots, Provides signature clause.listed root := by
  obtain ⟨scope, hscope, hlisted, hcalls, hnone, hsome⟩ := Clause.eq_of_ofRule h
  obtain ⟨points, last, -, hpasses, hlast⟩ := passes_points signature hread
  obtain rfl := hlast scope hscope
  have hgrounded : last.Grounded signature :=
    (Scope.grounded_ofRule haccepts).of_passes hpasses last (List.mem_of_getLast? hpasses.getLast?)
  rw [hlisted]
  refine List.forall_mem_append.mpr ⟨?_, fun root hroot => ?_⟩
  · cases hc : rule.condition with
    | none =>
      rw [hnone hc]
      exact List.forall_mem_nil _
    | some c =>
      obtain ⟨rest, hrest, hguard⟩ := hsome c hc
      rw [hguard]
      exact hgrounded.provides_of_formula hrest
  · obtain ⟨call, hcall, hroot⟩ := List.mem_flatMap.mp hroot
    obtain ⟨effect, -, hof⟩ := exists_of_forall₂ (mapM_eq_ok_iff.mp hcalls).flip hcall
    exact hgrounded.provides_of_call hof root hroot

/-- The lines of a method around those of one of its clauses. -/
theorem exists_lines {method : Method} {clause : Clause} (h : clause ∈ method.clauses) :
    ∃ early late, method.lines =
      (⟨0, method.head⟩ :: early) ++ clause.lines method.comparedArgs ++ late := by
  obtain ⟨before, after, hclauses⟩ := List.append_of_mem h
  obtain ⟨start, hstart⟩ : ∃ start, method.inside =
      start ++ method.clauses.flatMap (·.lines method.comparedArgs) := ⟨_, rfl⟩
  refine ⟨start ++ before.flatMap (·.lines method.comparedArgs),
    after.flatMap (·.lines method.comparedArgs) ++ [⟨0, method.declaration⟩], ?_⟩
  rw [Method.lines_eq, hstart, hclauses, List.flatMap_append, List.flatMap_cons]
  simp only [List.append_assoc, List.cons_append]

/-- A clause begins with the lists of the types that it lists. -/
theorem take_lines (clause : Clause) (intentionArgs : Option String) :
    (clause.lines intentionArgs).take clause.listed.length =
      clause.listed.map fun typeName => ⟨1, listStatement typeName⟩ := by
  rw [Clause.lines, List.take_left' (List.length_map ..)]

/-- **What a method reads for the variables of a rule is defined before.** -/
theorem defined_of_ofRules {method : Method} {clause : Clause} {rules : List Rule}
    (hname : IsName name) (hwell : ∀ rule ∈ rules, rule.WellFormed)
    (h : Method.ofRules name rules = .ok method) (hclause : clause ∈ method.clauses)
    (hprovides : ∀ root ∈ clause.roots, Provides method.signature clause.listed root) :
    ∃ early late, method.lines = early ++ clause.lines method.comparedArgs ++ late ∧
      ∀ root ∈ clause.roots, ∃ line ∈ early ++
        (clause.lines method.comparedArgs).take clause.listed.length, line.Defines root := by
  obtain ⟨rfl, hsignature, -⟩ := eq_of_ofRules h
  have hparams : ∀ param ∈ method.signature.fixed ++ method.signature.star.toList,
      Script.IsWord param := by
    intro param hparam
    obtain ⟨variableName, hvariable, rfl⟩ := isName_of_param hwell hsignature param hparam
    exact isWord_identifier hvariable
  obtain ⟨early, late, hlines⟩ := exists_lines hclause
  refine ⟨_, late, hlines, fun root hroot => ?_⟩
  rw [take_lines]
  rcases hprovides root hroot with hparam | ⟨typeName, htype, rfl⟩
  · exact ⟨⟨0, method.head⟩, List.mem_append_left _ (List.mem_cons_self ..),
      defines_head hname hparams root hparam⟩
  · exact ⟨⟨1, listStatement typeName⟩,
      List.mem_append_right _ (List.mem_map_of_mem htype), defines_listStatement typeName⟩

/-- **Reading a condition only adds to what is known, and all that is known has a source.** Let the
rules of an intention share a signature. While one of them is read, from the scope of its intention
on, no binding is taken back, no type is unlisted, and what became of a predicate stays as it is,
also if the condition is refused in the end. At each point the variables of the intention are bound
by their places, and every binding is a parameter, an element of the star parameter or of a type
that is listed already, or a constant. So when the method is accepted, what its guards and calls
read for the variables of a rule is defined in the lines before. -/
theorem ofRules_traced (hread : Program.read limits text = .ok program)
    (hsignature : Signature.ofRules (rulesOf program.rules name) = .ok signature)
    (hrule : rule ∈ rulesOf program.rules name) :
    (Clause.points signature rule).Pairwise Scope.Grows ∧
    (∀ point ∈ Clause.points signature rule, point.Grounded signature ∧
      ∀ (index : Nat) variableName, rule.variables[index]? = some variableName →
        point.binding? variableName = some (signature.binding index)) ∧
    (∀ scope, Clause.scope signature rule = .ok scope →
      (Clause.points signature rule).getLast? = some scope) ∧
    ∀ method, Method.ofRules name (rulesOf program.rules name) = .ok method →
      ∃ clause ∈ method.clauses, Clause.ofRule signature rule = .ok clause ∧
        ∃ early late, method.lines = early ++ clause.lines method.comparedArgs ++ late ∧
          ∀ root ∈ clause.roots, ∃ line ∈ early ++
            (clause.lines method.comparedArgs).take clause.listed.length, line.Defines root := by
  have hprogram := Program.wellFormed_of_read hread
  have hwell : ∀ rule ∈ rulesOf program.rules name, rule.WellFormed := fun rule hrule =>
    hprogram.rules rule (mem_of_mem_rulesOf hrule)
  have hwellRead : ∀ c, rule.condition = some c → c.WellRead := fun c hc =>
    Program.wellRead_of_read hread (mem_of_mem_rulesOf hrule) hc
  have haccepts := accepts_of_ofRules hsignature rule hrule
  have hnodup := nodup_of_ofRules hwell hsignature hrule
  obtain ⟨points, last, hpoints, hpasses, hlast⟩ := passes_points signature hwellRead
  refine ⟨?_, ?_, ?_, ?_⟩
  · rw [hpoints]
    exact hpasses.pairwise
  · rw [hpoints]
    intro point hpoint
    refine ⟨(Scope.grounded_ofRule haccepts).of_passes hpasses point hpoint, ?_⟩
    intro index variableName hvariable
    have hstart : (Scope.ofRule signature rule).binding? variableName =
        some (signature.binding index) := Scope.binding?_ofRule hnodup hvariable
    rcases List.mem_cons.mp hpoint with rfl | hlater
    · exact hstart
    · exact (hpasses.grows point hlater).bindings _ _ hstart
  · intro scope hscope
    rw [hpoints, ← hlast scope hscope]
    exact hpasses.getLast?
  · intro method hmethod
    obtain ⟨-, hsignature', hclauses⟩ := eq_of_ofRules hmethod
    obtain rfl := Except.ok.inj (hsignature.symm.trans hsignature')
    obtain ⟨clause, hclause, hof⟩ := exists_of_forall₂ hclauses hrule
    have hname : IsName name := by
      obtain ⟨hmem, hintention⟩ := List.mem_filter.mp hrule
      rw [← of_decide_eq_true hintention]
      exact (hprogram.rules rule hmem).intention.name
    exact ⟨clause, hclause, hof, defined_of_ofRules hname hwell hmethod hclause
      (provides_of_ofRule haccepts hwellRead hof)⟩

end Rules

/-- The text of a rule that binds a variable to an object of a type, one to what another stands for,
and one to a literal. -/
def pairingText : String :=
  "RULES \x7b if (ALL(block) = [a, b] && c = a && d = 'red'): stack(b) := put(a, b, c, d) \x7d"

/-- The rule of `pairingText`. -/
def pairing : Rule where
  condition := some (.chain (.atom (.compare (.all "block") .equal
      (.list [.variable "a", .variable "b"]) 12)) .and
    (.chain (.atom (.compare (.value (.variable "c")) .equal (.value (.variable "a")) 35)) .and
      (.atom (.compare (.value (.variable "d")) .equal (.value (.literal "red")) 44))))
  intention := ⟨"stack", [.variable "b"], 56⟩
  effects := [⟨"put", [.variable "a", .variable "b", .variable "c", .variable "d"], 68⟩]
  position := 8

/-- The clause of `pairing`. -/
def pairingClause : Clause where
  listed := ["block"]
  guard := .test (.atom (.conjunction [.same (.element "all_block" 1) (.param "b")]))
  calls := [⟨"put", [.value (.element "all_block" 0), .value (.param "b"),
    .value (.element "all_block" 0), .value (.constant (.text "red"))], none⟩]

/-- While the rule is read, `b` stays bound to the parameter. The list of blocks is defined before
it is read. -/
theorem pairing_traced : (Clause.points ⟨["b"], none⟩ pairing).length = 8 ∧
    (Clause.points ⟨["b"], none⟩ pairing).Pairwise Scope.Grows ∧
    (∀ point ∈ Clause.points ⟨["b"], none⟩ pairing,
      point.Grounded ⟨["b"], none⟩ ∧ point.binding? "b" = some (.param "b")) ∧
    "all_block" ∈ pairingClause.roots ∧
    ∃ early late, (Method.mk "stack" ⟨["b"], none⟩ [pairingClause]).lines =
        early ++ pairingClause.lines none ++ late ∧
      ∃ line ∈ early ++ (pairingClause.lines none).take 1, line.Defines "all_block" := by
  have hread : Program.read ⟨200, 1⟩ pairingText = .ok ⟨[pairing]⟩ := by
    decide +kernel
  have hsignature : Signature.ofRules (rulesOf [pairing] "stack") = .ok ⟨["b"], none⟩ := rfl
  have hmethod : Method.ofRules "stack" (rulesOf [pairing] "stack") =
      .ok ⟨"stack", ⟨["b"], none⟩, [pairingClause]⟩ := rfl
  have hroot : "all_block" ∈ pairingClause.roots := by
    decide
  obtain ⟨hgrows, hpoints, -, hmethods⟩ :=
    ofRules_traced hread hsignature (List.mem_singleton_self pairing)
  obtain ⟨clause, hclause, -, early, late, hlines, hdefined⟩ := hmethods _ hmethod
  obtain rfl := List.mem_singleton.mp hclause
  refine ⟨rfl, hgrows, fun point hpoint => ?_, hroot, early, late, hlines, hdefined _ hroot⟩
  obtain ⟨hgrounded, hpositional⟩ := hpoints point hpoint
  exact ⟨hgrounded, hpositional 0 "b" rfl⟩

end Imitation

end CausalRules
