import CausalRules.Proofs.Imitation.Calls
import CausalRules.Proofs.Imitation.Grouping

/-!
# Bindings of methods are sound

A method is called with values for the parameters of its intention's first rule. Every rule of the
intention is then about its own variables: those of its intention by their places, and those that
its condition binds.

- `Clause.scope`: the scope in which the effects of a rule are written.
- `eq_of_ofRule`, `eq_of_ofRules`, `ofRules_of_ofProgram`: what clauses, methods and the methods of
  a program are made of.
- `ofProgram_sound`: bound variables have their values, and the calls are those of the effects.
-/

namespace CausalRules.Imitation

/-- A guard for what is left of a condition. -/
def Guard.ofRest : Option (Formula Test) → Guard
  | some formula => .test formula
  | none => .satisfied

namespace Clause

/-- The scope in which the effects of a rule are written. -/
def scope (signature : Signature) (rule : Rule) : Except EmitError Scope :=
  match rule.condition with
  | none => .ok (Scope.ofRule signature rule)
  | some condition => ((Scope.ofRule signature rule).collect false condition).result

/-- The predicates of a rule that bind variables. -/
def binders (signature : Signature) (rule : Rule) : List Predicate :=
  match rule.condition with
  | none => []
  | some condition => (Scope.ofRule signature rule).binders false condition

variable {signature : Signature} {rule : Rule} {clause : Clause}

/-- What the part of a method for a rule is made of. -/
theorem eq_of_ofRule (h : Clause.ofRule signature rule = .ok clause) :
    ∃ scope, Clause.scope signature rule = .ok scope ∧ clause.listed = scope.listed ∧
      rule.effects.mapM scope.call = .ok clause.calls ∧
      (rule.condition = none → clause.guard = .absent) ∧
      ∀ c, rule.condition = some c →
        ∃ rest, scope.formula c = .ok rest ∧ clause.guard = .ofRest rest := by
  unfold Clause.ofRule at h
  unfold Clause.scope
  cases hc : rule.condition with
  | none =>
    rw [hc] at h
    obtain ⟨calls, hcalls, h⟩ := bind_eq_ok.mp h
    obtain rfl := pure_eq_ok.mp h
    exact ⟨_, rfl, rfl, hcalls, fun _ => rfl, nofun⟩
  | some c =>
    rw [hc] at h
    obtain ⟨scope, hscope, h⟩ := bind_eq_ok.mp h
    obtain ⟨rest, hrest, h⟩ := bind_eq_ok.mp h
    -- whether or not something is left to test, the guard is followed by the calls
    have hguard : ∃ calls, rule.effects.mapM scope.call = .ok calls ∧
        Clause.mk scope.listed (.ofRest rest) calls = clause := by
      cases rest with
      | none =>
        obtain ⟨guard, hguard, h⟩ := bind_eq_ok.mp h
        obtain ⟨calls, hcalls, h⟩ := bind_eq_ok.mp h
        obtain rfl := pure_eq_ok.mp hguard
        exact ⟨calls, hcalls, pure_eq_ok.mp h⟩
      | some f =>
        obtain ⟨guard, hguard, h⟩ := bind_eq_ok.mp h
        obtain ⟨calls, hcalls, h⟩ := bind_eq_ok.mp h
        obtain rfl := pure_eq_ok.mp hguard
        exact ⟨calls, hcalls, pure_eq_ok.mp h⟩
    obtain ⟨calls, hcalls, rfl⟩ := hguard
    refine ⟨scope, hscope, rfl, hcalls, nofun, ?_⟩
    rintro c' hc'
    obtain rfl := Option.some.inj hc'
    exact ⟨rest, hrest, rfl⟩

/-- The scope of a clause is sound when the predicates hold that bind variables, and its calls are
then those of the effects. -/
theorem sound_of_scope {V : Type} {m : Interpretation V} {scene : Scene V} {frame : Frame V}
    {ρ : String → V} {scope : Scope} (hscope : Clause.scope signature rule = .ok scope)
    (haccepts : signature.Accepts rule.variables.length)
    (hreceives : signature.Receives frame (rule.variables.map ρ))
    (hlists : frame.Lists m scene scope.listed)
    (hholds : ∀ p ∈ Clause.binders signature rule, p.HoldsInOrder m scene ρ) :
    scope.Sound m frame ρ := by
  have hstart : (Scope.ofRule signature rule).Sound m frame ρ :=
    Scope.sound_ofRule haccepts hreceives
  unfold Clause.scope at hscope
  unfold Clause.binders at hholds
  split at hscope
  · rw [← Except.ok.inj hscope]
    exact hstart
  · rename_i c hc
    rw [hc] at hholds
    exact hstart.collect hscope hlists hholds

end Clause

/-! ## Methods -/

/-- What a method is made of. -/
theorem eq_of_ofRules {name : String} {rules : List Rule} {method : Method}
    (h : Method.ofRules name rules = .ok method) :
    method.name = name ∧ Signature.ofRules rules = .ok method.signature ∧
      List.Forall₂ (fun rule clause => Clause.ofRule method.signature rule = .ok clause)
        rules method.clauses := by
  obtain ⟨signature, hsignature, h⟩ := bind_eq_ok.mp h
  obtain ⟨clauses, hclauses, h⟩ := bind_eq_ok.mp h
  obtain rfl := pure_eq_ok.mp h
  exact ⟨rfl, hsignature, mapM_eq_ok_iff.mp hclauses⟩

/-- The methods of a program are made from the rules of their intentions. -/
theorem ofRules_of_ofProgram {program : Program} {methods : List Method}
    (h : ofProgram program = .ok methods) :
    List.Forall₂ (fun name method => Method.ofRules name (rulesOf program.rules name) = .ok method)
      (intentionNames program.rules) methods := by
  rw [ofProgram_eq] at h
  obtain ⟨u, -, h⟩ := bind_eq_ok.mp h
  exact mapM_eq_ok_iff.mp h

/-- **The bindings of methods are sound.** When the parameters of a method hold the values of a
rule's variables, the lists hold the objects of their types, and the predicates hold that bind
variables, every bound variable has its value and every call is that of its effect. -/
theorem ofProgram_sound {program : Program} {methods : List Method}
    (h : ofProgram program = .ok methods) {method : Method} (hmethod : method ∈ methods)
    {n : Nat} {rule : Rule} (hrule : (rulesOf program.rules method.name)[n]? = some rule) :
    ∃ clause scope, method.clauses[n]? = some clause ∧
      Clause.scope method.signature rule = .ok scope ∧ clause.listed = scope.listed ∧
      ∀ {V : Type} (m : Interpretation V) (scene : Scene V) (frame : Frame V) (ρ : String → V),
        method.signature.Receives frame (rule.variables.map ρ) →
        frame.Lists m scene clause.listed →
        (∀ p ∈ Clause.binders method.signature rule, p.HoldsInOrder m scene ρ) →
        scope.Sound m frame ρ ∧
          List.Forall₂ (fun effect call => ∃ value, call.value? m scene frame = some value ∧
            scope.Performs m frame ρ effect value) rule.effects clause.calls := by
  obtain ⟨name, hname, hof⟩ := exists_of_forall₂ (ofRules_of_ofProgram h).flip hmethod
  obtain ⟨rfl, hsignature, hclauses⟩ := eq_of_ofRules hof
  obtain ⟨clause, hclause, hofRule⟩ := getElem?_of_forall₂ hclauses hrule
  obtain ⟨scope, hscope, hlisted, hcalls, -⟩ := Clause.eq_of_ofRule hofRule
  refine ⟨clause, scope, hclause, hscope, hlisted, ?_⟩
  intro V m scene frame ρ hreceives hlists hholds
  have haccepts := accepts_of_ofRules hsignature rule (List.mem_of_getElem? hrule)
  rw [hlisted] at hlists
  have hsound := Clause.sound_of_scope hscope haccepts hreceives hlists hholds
  refine ⟨hsound, ?_⟩
  exact (mapM_eq_ok_iff.mp hcalls).imp fun _ _ hcall => Scope.performs_of_call scene hsound hcall

/-- Things of one colour are put into a box. -/
def sorting : Rule where
  condition := some (.atom (.compare (.value (.variable "color")) .equal
    (.value (.literal "red")) 4))
  intention := ⟨"sort", [.variable "box", .variable "item", .continuation 1], 20⟩
  effects := [⟨"open", [.variable "box"], 40⟩,
    ⟨"put", [.variable "color", .variable "item", .continuation 1], 50⟩]
  position := 0

/-- What the parameters of the method for sorting hold. -/
def sortingFrame : Frame Script.Constant
  | "box" => some (.single (.text "b"))
  | "item" => some (.several [.text "x", .text "y"])
  | _ => none

/-- In the method for sorting, `color` stands for a constant and `item` for the first element of the
star parameter. -/
theorem sorting_sound :
    let ρ : String → Script.Constant := fun name =>
      if name = "box" then .text "b" else if name = "color" then .text "red" else .text "x"
    ∃ methods method clause scope, ofProgram ⟨[sorting]⟩ = .ok methods ∧ method ∈ methods ∧
      method.clauses[0]? = some clause ∧ Clause.scope method.signature sorting = .ok scope ∧
      scope.Sound .literal sortingFrame ρ ∧
      List.Forall₂ (fun effect call => ∃ value,
        call.value? .literal [] sortingFrame = some value ∧
          scope.Performs .literal sortingFrame ρ effect value) sorting.effects clause.calls := by
  intro ρ
  obtain ⟨clauses, hof⟩ : ∃ clauses, ofProgram ⟨[sorting]⟩ =
      .ok [⟨"sort", ⟨["box"], some "item"⟩, clauses⟩] := ⟨_, rfl⟩
  obtain ⟨clause, scope, hclause, hscope, hlisted, hsound⟩ :=
    ofProgram_sound hof (List.mem_singleton_self _)
      (show (rulesOf [sorting] "sort")[0]? = some sorting from rfl)
  have hreceives : Signature.Receives ⟨["box"], some "item"⟩ sortingFrame
      (sorting.variables.map ρ) := by
    refine ⟨?_, ?_⟩
    · rintro (_ | i) param value hparam hvalue
      · cases hparam
        cases hvalue
        rfl
      · cases hparam
    · rintro star hstar
      cases hstar
      exact ⟨[.text "y"], rfl⟩
  have hscope' : scope.listed = [] := by
    rw [← Except.ok.inj hscope]
    rfl
  have hlists : sortingFrame.Lists .literal [] clause.listed := by
    rw [hlisted, hscope']
    exact nofun
  have hholds : ∀ p ∈ Clause.binders ⟨["box"], some "item"⟩ sorting,
      p.HoldsInOrder .literal [] ρ := by
    intro p hp
    obtain rfl := List.mem_singleton.mp hp
    rfl
  obtain ⟨hsound, hcalls⟩ := hsound .literal [] sortingFrame ρ hreceives hlists hholds
  exact ⟨_, _, clause, scope, hof, List.mem_singleton_self _, hclause, hscope, hsound, hcalls⟩

end CausalRules.Imitation
