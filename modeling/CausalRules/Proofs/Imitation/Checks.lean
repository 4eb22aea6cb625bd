import CausalRules.Imitation.Text
import CausalRules.Proofs.Pruning

/-!
# Checks are written without parentheses

Where a predicate leaves several checks, they stand in the guard as `c and d`, without parentheses
and next to whatever connectives are there. So the text of a guard shows its checks, not its tests.
Because `and` binds tightest, that makes no difference.

- `Formula.spread`: a formula with each test replaced by several that are joined by `and`;
  `Formula.reads_spread_iff` says that it is read as before.
- `Test.parts`, `taggedParts`: the checks of a test, as tests of their own. What a test comes from
  is kept with each of them.
- `renderFormula_eq_join`: the text of a guard is that of the symbols of its checks.
- `reads_parts_iff`: a guard and its checks are read alike.
-/

namespace CausalRules

namespace Formula

variable {α β : Type}

/-- Tests joined by `and`. -/
def conjunction (first : α) : List α → Formula α
  | [] => atom first
  | second :: rest => chain (atom first) .and (conjunction second rest)

/-- A formula with each test replaced by tests that are joined by `and`, which are not made a
group. -/
def spread (parts : α → β × List β) : Formula α → Formula β
  | atom test => conjunction (parts test).1 (parts test).2
  | group inner => group (inner.spread parts)
  | chain left op right => chain (left.spread parts) op (right.spread parts)

theorem advance_conjunction (holds : α → Bool) (first : α) (rest : List α) (p : Progress) :
    (conjunction first rest).advance holds p = p.operand ((first :: rest).all holds) := by
  induction rest generalizing first p with
  | nil => rw [conjunction, advance, List.all_cons, List.all_nil, Bool.and_true]
  | cons second rest ih =>
    rw [conjunction, advance, Progress.join, ih, advance, Progress.operand_operand]
    rfl

/-- Tests that are joined by `and` take reading as far as the test that they replace. -/
theorem advance_spread {parts : α → β × List β} {holds : α → Bool} {holds' : β → Bool}
    {f : Formula α}
    (h : ∀ a ∈ f.atoms, holds a = ((parts a).1 :: (parts a).2).all holds') (p : Progress) :
    (f.spread parts).advance holds' p = f.advance holds p := by
  induction f generalizing p with
  | atom a => rw [spread, advance_conjunction, advance, h a (List.mem_singleton_self a)]
  | group inner ih => rw [spread, advance, advance, ih h]
  | chain left op right ihl ihr =>
    rw [spread, advance, advance, ihl fun a ha => h a (List.mem_append_left _ ha),
      ihr fun a ha => h a (List.mem_append_right _ ha)]

/-- **Writing a test as tests joined by `and` does not change how a formula is read.** -/
theorem reads_spread_iff {parts : α → β × List β} {holds : α → Bool} {holds' : β → Bool}
    {f : Formula α} (h : ∀ a ∈ f.atoms, holds a = ((parts a).1 :: (parts a).2).all holds')
    {b : Bool} :
    Reads holds' .disjunction (f.spread parts).symbols b ↔
      Reads holds .disjunction f.symbols b := by
  rw [reads_symbols_iff, reads_symbols_iff, value, value, advance_spread h]

end Formula

namespace Imitation

/-- The checks of a test, as tests of their own. -/
def Test.parts : Test → Test × List Test
  | .conjunction (check :: rest) =>
    (.conjunction [check], rest.map fun check => .conjunction [check])
  | test => (test, [])

section Tagged

variable {γ : Type}

/-- The checks of a test with what the test comes from. -/
def taggedParts (unit : γ × Test) : (γ × Test) × List (γ × Test) :=
  ((unit.1, unit.2.parts.1), unit.2.parts.2.map (unit.1, ·))

/-- The text of a test, whatever it comes from. -/
def taggedText (unit : γ × Test) : String :=
  unit.2.render

/-- Checks on their own are written as the conjunction of them is. -/
theorem render_conjunction (tag : γ) (check : Check) (rest : List Check) :
    (Formula.conjunction (tag, .conjunction [check])
      ((rest.map fun check => Test.conjunction [check]).map (tag, ·))).render taggedText
        Connective.scriptWord = (Test.conjunction (check :: rest)).render := by
  induction rest generalizing check with
  | nil => rfl
  | cons second rest ih =>
    have hjoin : (Test.conjunction (check :: second :: rest)).render =
        check.render ++ " and " ++ (Test.conjunction (second :: rest)).render :=
      String.intercalate_cons_cons
    have hcheck : (Test.conjunction [check]).render = check.render := by
      show " and ".intercalate [check.render] = check.render
      exact String.intercalate_singleton
    -- the connective and the separator of a conjunction are one text, cut at other places
    rw [List.map_cons, List.map_cons, Formula.conjunction, Formula.render, Formula.render, ih,
      taggedText, hjoin, hcheck]
    simp only [String.append_assoc]
    rfl

/-- The text of a guard is that of its checks. -/
theorem render_spread (f : Formula (γ × Test)) :
    (f.spread taggedParts).render taggedText Connective.scriptWord =
      renderFormula (f.map Prod.snd) := by
  induction f with
  | atom unit =>
    obtain ⟨tag, t⟩ := unit
    cases t with
    | conjunction checks =>
      cases checks with
      | nil => rfl
      | cons check rest => exact render_conjunction tag check rest
    | _ => rfl
  | group inner ih =>
    rw [Formula.spread, Formula.render, ih]
    rfl
  | chain left op right ihl ihr =>
    rw [Formula.spread, Formula.render, ihl, ihr]
    rfl

/-- **A guard is written as the symbols of its checks**, one after the other. -/
theorem renderFormula_eq_join (f : Formula (γ × Test)) :
    renderFormula (f.map Prod.snd) =
      String.join ((f.spread taggedParts).symbols.map (Symbol.text taggedText
        Connective.scriptWord)) := by
  rw [← render_spread, Formula.render_eq_join_symbols]

/-- **A guard and its checks are read alike**, when a conjunction holds if all its checks do. -/
theorem reads_parts_iff {f : Formula (γ × Test)} {holds : γ × Test → Bool}
    (h : ∀ tag check rest, holds (tag, .conjunction (check :: rest)) =
      (check :: rest).all fun check => holds (tag, .conjunction [check])) {b : Bool} :
    Reads holds .disjunction (f.spread taggedParts).symbols b ↔
      Reads holds .disjunction f.symbols b := by
  refine Formula.reads_spread_iff fun unit _ => ?_
  obtain ⟨tag, t⟩ := unit
  have alone : ∀ t, holds (tag, t) = [(tag, t)].all holds := by
    intro t
    rw [List.all_cons, List.all_nil, Bool.and_true]
  cases t with
  | conjunction checks =>
    cases checks with
    | nil => exact alone _
    | cons check rest =>
      rw [h, taggedParts, Test.parts, List.all_cons, List.all_cons, List.map_map, List.all_map]
      rfl
  | _ => exact alone _

end Tagged

end Imitation

end CausalRules
