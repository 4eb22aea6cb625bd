import CausalRules.Proofs.Renaming.Facility
import CausalRules.Proofs.Renaming.Imitation

/-!
# Names of variables in scripts

The variables of a rule may get other names, as long as different ones stay different. The methods of
the imitation script stay the same if the first rule of an intention keeps its parameters, and what
is put into the facility script stays the same if no type is asked for in the condition.

- `scripts_renamed`: both, for any rule of a program.
- `swapping_renamed`: a rule that swaps its two names.
-/

namespace CausalRules

/-- **Names of variables do not matter.** Let one rule of a program get other names for its variables,
wherever they stand in it, and different ones for different variables. If an earlier rule has the same
intention, or else the parameters keep their names, then the methods are the same; a program that has
none gets none. If the condition does not ask for the type of a variable, then the body that collects
causes is the same, and so is the largest number of effects. -/
theorem scripts_renamed {before after : List Rule} {rule : Rule} {σ : String → String}
    (hσ : ∀ v ∈ rule.allVariables, ∀ w ∈ rule.allVariables, σ v = σ w → v = w) :
    (((∀ earlier ∈ before, earlier.intention.name ≠ rule.intention.name) →
        ∀ v ∈ rule.intention.variables, σ v = v) →
      ∀ text, Imitation.methodsText ⟨before ++ rule :: after⟩ = .ok text ↔
        Imitation.methodsText ⟨before ++ rule.rename σ :: after⟩ = .ok text) ∧
    ((∀ q ∈ rule.predicates, ∀ v, .type v ∉ q.operands) →
      ∀ domain, Facility.Domain.ofProgram ⟨before ++ rule :: after⟩ = .ok domain ↔
        Facility.Domain.ofProgram ⟨before ++ rule.rename σ :: after⟩ = .ok domain) := by
  have hnames := names_biUnique hσ
  have hrenamed : rule.Renamed (Names σ rule.allVariables) (rule.rename σ) :=
    Rule.renamed_rename (List.Subset.refl _)
  constructor
  · intro hkept text
    refine (Imitation.methodsText_interchangeable
      (Imitation.interchangeable_of_renamed hnames hrenamed) fun hearlier => ?_).eq_ok_iff
    have hintention : rule.intention.rename σ = rule.intention :=
      Action.rename_eq_self (hkept hearlier)
    rw [Imitation.paramsOf, Imitation.paramsOf, Rule.rename, hintention]
    rfl
  · intro htypes domain
    exact (Facility.ofProgram_renamed hnames hrenamed htypes before after).eq_ok_iff

/-- Things are painted, and red ones are dipped twice. -/
def paintingRules : Rule × Rule :=
  (⟨none, ⟨"paint", [.variable "x"], 0⟩, [⟨"dip", [.variable "x"], 0⟩], 0⟩,
    ⟨some (.atom (.compare (.value (.variable "c")) .equal (.value (.literal "red")) 0)),
      ⟨"paint", [.variable "y"], 0⟩,
      [⟨"dip", [.variable "y", .variable "c"], 0⟩, ⟨"dip", [.variable "y"], 0⟩], 0⟩)

/-- Two names for each other. -/
def swapped (name : String) : String :=
  if name = "y" then "c" else if name = "c" then "y" else name

/-- The second rule may swap its names. -/
theorem swapping_renamed : ∃ text domain,
    paintingRules.2.rename swapped ≠ paintingRules.2 ∧
    Imitation.methodsText ⟨[paintingRules.1, paintingRules.2]⟩ = .ok text ∧
    Imitation.methodsText ⟨[paintingRules.1, paintingRules.2.rename swapped]⟩ = .ok text ∧
    Facility.Domain.ofProgram ⟨[paintingRules.1, paintingRules.2]⟩ = .ok domain ∧
    Facility.Domain.ofProgram ⟨[paintingRules.1, paintingRules.2.rename swapped]⟩ = .ok domain := by
  obtain ⟨text, htext⟩ : ∃ text, Imitation.methodsText ⟨[paintingRules.1, paintingRules.2]⟩ =
      .ok text := exists_of_isOk (by decide +kernel)
  obtain ⟨domain, hdomain⟩ : ∃ domain,
      Facility.Domain.ofProgram ⟨[paintingRules.1, paintingRules.2]⟩ = .ok domain :=
    exists_of_isOk (by decide +kernel)
  have hσ : ∀ v ∈ paintingRules.2.allVariables, ∀ w ∈ paintingRules.2.allVariables,
      swapped v = swapped w → v = w := by decide +kernel
  have hmain := @scripts_renamed [paintingRules.1] [] paintingRules.2 swapped hσ
  refine ⟨text, domain, ?_, htext, (hmain.1 ?_ text).mp htext, hdomain,
    (hmain.2 ?_ domain).mp hdomain⟩
  · intro heq
    have hargs := congrArg (fun rule : Rule => rule.intention.variables) heq
    revert hargs
    decide +kernel
  · intro hearlier
    exact (hearlier paintingRules.1 (List.mem_singleton_self _) rfl).elim
  · simp [paintingRules, Rule.predicates, Formula.atoms, Predicate.operands]

end CausalRules
