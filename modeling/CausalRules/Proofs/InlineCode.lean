import CausalRules.Facility.Text
import CausalRules.Imitation.Text
import CausalRules.Proofs.Facility.Blocks
import CausalRules.Proofs.Imitation.Guards
import CausalRules.Proofs.Rule
import CausalRules.Proofs.Script.Splicing

/-!
# Inline code in conditions

Both emitters put inline code into a condition as it is written. What the condition then means is up
to the grammar of the script, which sees the connectives inside the code.

- `Facility.Test.lexemes`, `Imitation.Test.lexemes`: what is read where a test is written.
- `StandsAlone`: every test has a value by itself, and code next to an `and` is a conjunction, with
  no `or` outside of parentheses.
- `inline_parses_iff`: then the conditions of both scripts are read like the condition of the rule.
- `covering_parses`: otherwise an `and` may take only a part of the code.
-/

namespace CausalRules

/-! ## What is read where a test is written -/

namespace Facility

def Term.isCode : Term → Bool
  | .python _ => true
  | _ => false

/-- Whether a test holds inline code. -/
def Test.hasCode : Test → Bool
  | .python _ => true
  | .compare left _ right => left.isCode || right.isCode
  | .sameMembers _ _ => false

/-- What is read where a test is written, given what is read in inline code. -/
def Test.lexemes (inline : String → List Lexeme) (t : Test) : List Lexeme :=
  if t.hasCode then inline t.render else [.unit t.render]

end Facility

namespace Imitation

def Term.isCode : Term → Bool
  | .python _ => true
  | _ => false

/-- Whether a test holds inline code. -/
def Test.hasCode : Test → Bool
  | .python _ => true
  | .compare left _ right => left.isCode || right.isCode
  | .conjunction _ => false

/-- What is read where a test is written, given what is read in inline code. -/
def Test.lexemes (inline : String → List Lexeme) : Test → List Lexeme
  | .conjunction checks => allOf (checks.map Check.render)
  | t => if t.hasCode then inline t.render else [.unit t.render]

end Imitation

section Tests

variable {inline : String → List Lexeme} {holds : String → Bool}

theorem Facility.Test.render_eq_join
    (hinline : ∀ code, String.join ((inline code).map Lexeme.text) = code) (t : Test) :
    t.render = String.join ((t.lexemes inline).map Lexeme.text) := by
  unfold lexemes
  split
  · exact (hinline _).symm
  · simp [Lexeme.text]

theorem Imitation.Test.render_eq_join
    (hinline : ∀ code, String.join ((inline code).map Lexeme.text) = code) (t : Test) :
    t.render = String.join ((t.lexemes inline).map Lexeme.text) := by
  unfold lexemes
  split
  · exact (join_allOf _).symm
  · split
    · exact (hinline _).symm
    · simp [Lexeme.text]

/-- A test without code is a unit. -/
theorem Facility.Test.exists_parses {t : Test} (h : t.hasCode = false) :
    ∃ b, Parses holds .conjunction (t.lexemes inline) b := by
  rw [lexemes, h]
  exact ⟨_, .inversion (.unit _)⟩

/-- A test without code is a unit, or several of which all must hold. -/
theorem Imitation.Test.exists_parses {t : Test} (h : t.hasCode = false)
    (hne : t.lexemes inline ≠ []) : ∃ b, Parses holds .conjunction (t.lexemes inline) b := by
  cases t with
  | conjunction checks =>
    refine exists_parses_allOf ?_
    rintro hnil
    apply hne
    rw [lexemes, hnil]
    rfl
  | python code => cases h
  | compare left op right =>
    rw [lexemes, h]
    · exact ⟨_, .inversion (.unit _)⟩
    · nofun

end Tests

/-! ## Tests that stand by themselves -/

/-- Every test has the value of its predicate when it is read by itself, and code next to an `and`
is a conjunction. -/
structure StandsAlone {τ : Type} (holds : String → Bool) (lexemes : τ → List Lexeme)
    (hasCode : τ → Bool) (value : Predicate → Bool) (f : Formula (Predicate × τ)) : Prop where
  alone : ∀ p t, (p, t) ∈ f.atoms → Parses holds .disjunction (lexemes t) (value p)
  tight : ∀ p t, NextToAnd f.symbols (p, t) → hasCode t = true →
    ∃ b, Parses holds .conjunction (lexemes t) b

/-- Tests that stand by themselves may be put into a chain as they are written. -/
theorem StandsAlone.parses_iff {τ : Type} {holds : String → Bool} {lexemes : τ → List Lexeme}
    {hasCode : τ → Bool} {value : Predicate → Bool} {f : Formula (Predicate × τ)}
    (h : StandsAlone holds lexemes hasCode value f)
    (hplain : ∀ t, hasCode t = false → lexemes t ≠ [] →
      ∃ b, Parses holds .conjunction (lexemes t) b) {b : Bool} :
    Parses holds .disjunction (f.lexemes fun pair => lexemes pair.2) b ↔
      Reads (fun pair => value pair.1) .disjunction f.symbols b := by
  refine Formula.parses_lexemes_iff (fun pair hpair => h.alone _ _ hpair) ?_
  rintro ⟨p, t⟩ hnext
  cases hcode : hasCode t with
  | true => exact h.tight p t hnext hcode
  | false => exact hplain t hcode (h.alone p t hnext.mem_atoms).ne_nil

/-! ## Conditions of both scripts -/

namespace Facility

/-- The condition of a block is written as what is read in it, and is read like the condition of its
rule when the tests stand by themselves. -/
theorem guard_parses_iff {program : Program} {blocks : List Block}
    (h : ofProgram program = .ok blocks) {rule : Rule} (hrule : rule ∈ program.rules)
    {c : Condition} (hc : rule.condition = some c) {inline : String → List Lexeme}
    (hinline : ∀ code, String.join ((inline code).map Lexeme.text) = code) :
    ∃ block ∈ blocks, ∃ f, Block.ofRule rule = .ok block ∧
      block.guard = some (f.map Prod.snd) ∧ f.map Prod.fst = c ∧
      renderGuard (f.map Prod.snd) =
        String.join ((f.lexemes fun pair => pair.2.lexemes inline).map Lexeme.text) ∧
      ∀ holds value, StandsAlone holds (Test.lexemes inline) Test.hasCode value f → ∀ b,
        Parses holds .disjunction (f.lexemes fun pair => pair.2.lexemes inline) b ↔
          Reads value .disjunction c.symbols b := by
  obtain ⟨block, hblock, hof⟩ := exists_of_forall₂ (mapM_eq_ok_iff.mp h) hrule
  obtain ⟨-, -, -, hguard⟩ := eq_of_ofRule hof
  rw [hc] at hguard
  obtain ⟨g, hg, hsome⟩ := map_eq_ok.mp hguard
  obtain ⟨f, rfl, rfl, -⟩ := exists_pairs_of_guard hg
  refine ⟨block, hblock, f, hof, hsome.symm, rfl, ?_, ?_⟩
  · rw [renderGuard, Formula.render_map]
    exact Formula.render_eq_join_lexemes fun pair _ => pair.2.render_eq_join hinline
  · intro holds value halone b
    rw [halone.parses_iff fun t ht _ => Test.exists_parses ht, Formula.reads_symbols_iff,
      Formula.reads_symbols_iff, Formula.value_map]
    rfl

end Facility

namespace Imitation

/-- What is left of a condition is read by the grammar of the script, and is true when nothing is
left. -/
def ParsesRest (holds : String → Bool) (inline : String → List Lexeme) :
    Option (Formula (Predicate × Test)) → Bool → Prop
  | some f, b => Parses holds .disjunction (f.lexemes fun pair => pair.2.lexemes inline) b
  | none, b => b = true

/-- The guard of a clause is written as what is read in it, and is read like the condition of its
rule when the tests stand by themselves and the predicates are true that were left out. -/
theorem guard_parses_iff {limits : Limits} {text : String} {program : Program}
    (hread : Program.read limits text = .ok program) {methods : List Method}
    (h : ofProgram program = .ok methods) {rule : Rule} (hrule : rule ∈ program.rules)
    {c : Condition} (hc : rule.condition = some c) {inline : String → List Lexeme}
    (hinline : ∀ code, String.join ((inline code).map Lexeme.text) = code) :
    ∃ method ∈ methods, ∃ clause ∈ method.clauses, ∃ scope, method.name = rule.intention.name ∧
      Clause.ofRule method.signature rule = .ok clause ∧
      Clause.scope method.signature rule = .ok scope ∧
      clause.guard = .ofRest ((scope.rest c).map (Formula.map Prod.snd)) ∧
      (∀ f, scope.rest c = some f → renderFormula (f.map Prod.snd) =
        String.join ((f.lexemes fun pair => pair.2.lexemes inline).map Lexeme.text)) ∧
      ∀ holds value,
        (∀ p ∈ c.atoms, scope.residue? p.position = some .drop → value p = true) →
        (∀ f, scope.rest c = some f →
          StandsAlone holds (Test.lexemes inline) Test.hasCode value f) →
        ∀ b, ParsesRest holds inline (scope.rest c) b ↔ Reads value .disjunction c.symbols b := by
  obtain ⟨method, hmethod, hname, clause, hclause, hof⟩ := exists_method_of_rule h hrule
  obtain ⟨scope, hscope, -, -, -, hguard⟩ := Clause.eq_of_ofRule hof
  obtain ⟨r, hformula, hrest⟩ := hguard c hc
  refine ⟨method, hmethod, clause, hclause, scope, hname, hof, hscope, ?_, ?_, ?_⟩
  · rw [hrest, (Scope.formula_eq_ok hformula).1]
  · intro f _
    rw [renderFormula, Formula.render_map]
    exact Formula.render_eq_join_lexemes fun pair _ => pair.2.render_eq_join hinline
  · intro holds value hdropped halone b
    have hcollect : ((Scope.ofRule method.signature rule).collect false c).result = .ok scope := by
      rw [Clause.scope, hc] at hscope
      exact hscope
    -- the pairs that are left have the values of their predicates
    have hvalue : Formula.valueOfRest (fun pair => value pair.1) (scope.rest c) = c.value value :=
      Scope.valueOfRest_rest hcollect rfl (Program.wellRead_of_read hread hrule hc) hformula
        hdropped fun p hp t ht => rfl
    rw [Formula.reads_symbols_iff, ← hvalue, ← Formula.readsRest_iff]
    cases hf : scope.rest c with
    | none => rfl
    | some f => exact (halone f hf).parses_iff fun t ht hne => Test.exists_parses ht hne

end Imitation

/-- **When inline code is one operand of a condition.** For a program that was read, the condition
that either emitter writes is read by the grammar of the script, connectives of inline code
included. When every test has a value by itself and code next to an `and` is a conjunction, it is
read as the chain of the rule is with these values. -/
theorem inline_parses_iff {limits : Limits} {text : String} {program : Program}
    (hread : Program.read limits text = .ok program) {rule : Rule} (hrule : rule ∈ program.rules)
    {c : Condition} (hc : rule.condition = some c) {inline : String → List Lexeme}
    (hinline : ∀ code, String.join ((inline code).map Lexeme.text) = code) :
    (∀ blocks, Facility.ofProgram program = .ok blocks →
      ∃ block ∈ blocks, ∃ f, Facility.Block.ofRule rule = .ok block ∧
        block.guard = some (f.map Prod.snd) ∧ f.map Prod.fst = c ∧
        Facility.renderGuard (f.map Prod.snd) =
          String.join ((f.lexemes fun pair => pair.2.lexemes inline).map Lexeme.text) ∧
        ∀ holds value,
          StandsAlone holds (Facility.Test.lexemes inline) Facility.Test.hasCode value f → ∀ b,
          Parses holds .disjunction (f.lexemes fun pair => pair.2.lexemes inline) b ↔
            Reads value .disjunction c.symbols b) ∧
    ∀ methods, Imitation.ofProgram program = .ok methods →
      ∃ method ∈ methods, ∃ clause ∈ method.clauses, ∃ scope, method.name = rule.intention.name ∧
        Imitation.Clause.ofRule method.signature rule = .ok clause ∧
        Imitation.Clause.scope method.signature rule = .ok scope ∧
        clause.guard = .ofRest ((scope.rest c).map (Formula.map Prod.snd)) ∧
        (∀ f, scope.rest c = some f → Imitation.renderFormula (f.map Prod.snd) =
          String.join ((f.lexemes fun pair => pair.2.lexemes inline).map Lexeme.text)) ∧
        ∀ holds value,
          (∀ p ∈ c.atoms, scope.residue? p.position = some .drop → value p = true) →
          (∀ f, scope.rest c = some f →
            StandsAlone holds (Imitation.Test.lexemes inline) Imitation.Test.hasCode value f) →
          ∀ b, Imitation.ParsesRest holds inline (scope.rest c) b ↔
            Reads value .disjunction c.symbols b :=
  ⟨fun _ h => Facility.guard_parses_iff h hrule hc hinline,
    fun _ h => Imitation.guard_parses_iff hread h hrule hc hinline⟩

/-- Something is covered for a reason that is written in the script's language. -/
def coveringText : Connective → String
  | .and => "RULES \x7b if (PYTHON(#wet or cold#) && x = y): cover(x, y) := wrap(x, y) \x7d"
  | .or => "RULES \x7b if (PYTHON(#wet or cold#) || x = y): cover(x, y) := wrap(x, y) \x7d"

/-- The predicate of inline code in `coveringText`. -/
def coveringCode : Predicate :=
  .bare (.value (.python "wet or cold")) 12

/-- The other predicate of `coveringText`. -/
def coveringSame : Predicate :=
  .compare (.value (.variable "x")) .equal (.value (.variable "y")) 37

/-- The rule of `coveringText`. -/
def covering (op : Connective) : Rule where
  condition := some (.chain (.atom coveringCode) op (.atom coveringSame))
  intention := ⟨"cover", [.variable "x", .variable "y"], 45⟩
  effects := [⟨"wrap", [.variable "x", .variable "y"], 60⟩]
  position := 8

theorem read_coveringText (op : Connective) :
    Program.read ⟨100, 1⟩ (coveringText op) = .ok ⟨[covering op]⟩ := by
  cases op <;> decide +kernel

/-- What is read in the code of `coveringText`. -/
def coveringInline (code : String) : List Lexeme :=
  if code = "wet or cold" then [.unit "wet", .word .or " or ", .unit "cold"] else [.unit code]

theorem join_coveringInline (code : String) :
    String.join ((coveringInline code).map Lexeme.text) = code := by
  unfold coveringInline
  split
  · rename_i h
    rw [h]
    rfl
  · simp [Lexeme.text]

/-- The test of `covering` in the facility script that is no code. -/
def coveringTest : Facility.Test :=
  .compare (.item ⟨0, 0⟩) .equal (.item ⟨0, 1⟩)

/-- The block of `covering`. -/
def coveringBlock (op : Connective) : Facility.Block where
  effects := ["wrap"]
  guard := some (.chain (.atom (.python "wet or cold")) op (.atom coveringTest))
  intention := "cover"
  args := [.item ⟨0, 0⟩, .item ⟨0, 1⟩]

theorem ofProgram_covering (op : Connective) :
    Facility.ofProgram ⟨[covering op]⟩ = .ok [coveringBlock op] :=
  rfl

/-- The tests of `covering` with their predicates. -/
def coveringPairs (op : Connective) : Formula (Predicate × Facility.Test) :=
  .chain (.atom (coveringCode, .python "wet or cold")) op (.atom (coveringSame, coveringTest))

/-- The code and the comparison have values by themselves, and no `and` stands between them. -/
theorem coveringPairs_or_standsAlone :
    StandsAlone (fun unit => unit = "cold") (Facility.Test.lexemes coveringInline)
      Facility.Test.hasCode (fun p => p.position = 12) (coveringPairs .or) where
  alone := by
    intro p t hmem
    rcases List.mem_cons.mp hmem with h | h
    · obtain ⟨rfl, rfl⟩ := Prod.mk.inj h
      exact .or " or " (.conjunction (.inversion (.unit "wet"))) (.inversion (.unit "cold"))
    · obtain ⟨rfl, rfl⟩ := Prod.mk.inj (List.mem_singleton.mp h)
      exact .conjunction (.inversion (.unit coveringTest.render))
  tight := by
    intro p t hnext
    have hand := hnext.mem_and
    simp [coveringPairs, Formula.symbols] at hand

/-- Next to an `or` the code is one operand: when it is cold, the block finds the cause. -/
theorem sheltering_parses : ∃ f : Formula (Predicate × Facility.Test),
    (coveringBlock .or).guard = some (f.map Prod.snd) ∧
    Facility.renderGuard (f.map Prod.snd) = String.join
      ((f.lexemes fun pair => pair.2.lexemes coveringInline).map Lexeme.text) ∧
    Parses (fun unit => unit = "cold") .disjunction
      (f.lexemes fun pair => pair.2.lexemes coveringInline) true := by
  obtain ⟨block, hblock, f, -, hguard, hcondition, htext, hparses⟩ :=
    (inline_parses_iff (read_coveringText .or) (List.mem_singleton_self (covering .or)) rfl
      join_coveringInline).1 _ (ofProgram_covering .or)
  obtain rfl := List.mem_singleton.mp hblock
  obtain rfl : f = coveringPairs .or :=
    Formula.eq_of_map_eq hcondition (Option.some.inj hguard).symm
  refine ⟨_, hguard, htext, (hparses _ _ coveringPairs_or_standsAlone true).mpr ?_⟩
  exact Formula.reads_symbols_iff.mpr rfl

/-- The test of `covering` in the imitation script that is no code. -/
def coveringCheck : Imitation.Test :=
  .compare (.value (.param "x")) .equal (.value (.param "y"))

/-- The method of `covering`. -/
def coveringMethod (op : Connective) : Imitation.Method where
  name := "cover"
  signature := ⟨["x", "y"], none⟩
  clauses := [{
    listed := []
    guard := .test (.chain (.atom (.python "wet or cold")) op (.atom coveringCheck))
    calls := [⟨"wrap", [.value (.param "x"), .value (.param "y")], none⟩] }]

/-- What both scripts read next to an `and`: only `cold` belongs to it. -/
theorem parses_covering_and {holds : String → Bool} (hwet : holds "wet" = true) (same : String) :
    Parses holds .disjunction
      (coveringInline "wet or cold" ++ Lexeme.word .and " and " :: [Lexeme.unit same]) true := by
  have hcold : Parses holds .conjunction [.unit "cold", .word .and " and ", .unit same]
      (holds "cold" && holds same) :=
    .and " and " (.inversion (.unit "cold")) (.unit same)
  have hor := Parses.or " or " (.conjunction (.inversion (.unit "wet"))) hcold
  rw [hwet, Bool.true_or] at hor
  exact hor

/-- When it is wet, the conditions of both scripts are true although `x` is not `y`. -/
theorem covering_parses :
    ∃ (guard : Formula Facility.Test) (formula : Formula Imitation.Test),
      Program.read ⟨100, 1⟩ (coveringText .and) = .ok ⟨[covering .and]⟩ ∧
      Facility.ofProgram ⟨[covering .and]⟩ = .ok [coveringBlock .and] ∧
      (coveringBlock .and).guard = some guard ∧
      Facility.renderGuard guard = "wet or cold and arguments[0][0] == arguments[0][1]" ∧
      Parses (fun unit => unit = "wet") .disjunction (guard.lexemes (·.lexemes coveringInline))
        true ∧
      Imitation.ofProgram ⟨[covering .and]⟩ = .ok [coveringMethod .and] ∧
      (coveringMethod .and).clauses.map Imitation.Clause.guard = [.test formula] ∧
      Imitation.renderFormula formula = "wet or cold and x == y" ∧
      Parses (fun unit => unit = "wet") .disjunction (formula.lexemes (·.lexemes coveringInline))
        true ∧
      -- by itself the code is true, and the chain of the rule is false then
      Parses (fun unit => unit = "wet") .disjunction (coveringInline "wet or cold") true ∧
      ¬ Reads (fun p => p.position = 12) .disjunction
        (Formula.chain (.atom coveringCode) .and (.atom coveringSame)).symbols true := by
  refine ⟨_, _, read_coveringText .and, ofProgram_covering .and, rfl, by decide,
    parses_covering_and rfl coveringTest.render, rfl, rfl, by decide,
    parses_covering_and rfl coveringCheck.render, ?_, ?_⟩
  · exact .or " or " (.conjunction (.inversion (.unit "wet"))) (.inversion (.unit "cold"))
  · rw [Formula.reads_symbols_iff]
    decide

end CausalRules
