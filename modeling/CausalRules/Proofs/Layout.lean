import CausalRules.EmitError
import CausalRules.Proofs.Traversal
import CausalRules.ReadError
import CausalRules.Rule
import CausalRules.Token
import Mathlib.Logic.Relator

/-!
# Alike up to offsets

Two layouts of one text have the same tokens at other offsets. What is made from them is compared up
to a relation `R` between offsets: `R p p'` says that `p'` is in the second layout what `p` is in the
first.

- `Located.Alike`, `Action.Alike`, `Predicate.Alike`, `Rule.Alike`, `Program.Alike`: the same but for
  offsets, which correspond. `Formula.Rel` lifts a relation between tests to formulas.
- `ReadError.Alike`, `EmitError.Alike`: the same cause at corresponding offsets.
- `Matches`: two outcomes are results or failures that correspond, with one rule for each way to
  compose steps that may fail.
- `SameToken`: offsets at which tokens with one number begin.
-/

namespace CausalRules

/-! ## Data with offsets -/

section Alike

variable (R : Nat → Nat → Prop)

/-- The same token, at corresponding offsets. -/
structure Located.Alike (t t' : Located) : Prop where
  token : t.token = t'.token
  position : R t.position t'.position

/-- The same action, at corresponding offsets. -/
structure Action.Alike (a a' : Action) : Prop where
  name : a.name = a'.name
  args : a.args = a'.args
  position : R a.position a'.position

/-- The same predicate, at corresponding offsets. -/
inductive Predicate.Alike : Predicate → Predicate → Prop
  | compare (left : Operand) (op : Comparison) (right : Operand) {p p' : Nat} (h : R p p') :
      Alike (.compare left op right p) (.compare left op right p')
  | bare (operand : Operand) {p p' : Nat} (h : R p p') :
      Alike (.bare operand p) (.bare operand p')

/-- Formulas of one shape whose tests are related. -/
inductive Formula.Rel {α β : Type} (S : α → β → Prop) : Formula α → Formula β → Prop
  | atom {a : α} {b : β} (h : S a b) : Rel S (.atom a) (.atom b)
  | group {f : Formula α} {g : Formula β} (h : Rel S f g) : Rel S (.group f) (.group g)
  | chain {l r : Formula α} {l' r' : Formula β} (op : Connective) (hl : Rel S l l')
      (hr : Rel S r r') : Rel S (.chain l op r) (.chain l' op r')

/-- Conditions of one shape whose predicates are alike. -/
abbrev Condition.Alike : Condition → Condition → Prop :=
  Formula.Rel (Predicate.Alike R)

/-- The same rule, with all its parts at corresponding offsets. -/
structure Rule.Alike (rule rule' : Rule) : Prop where
  condition : Option.Rel (Condition.Alike R) rule.condition rule'.condition
  intention : rule.intention.Alike R rule'.intention
  effects : List.Forall₂ (Action.Alike R) rule.effects rule'.effects
  position : R rule.position rule'.position

/-- The same rules in the same order, at corresponding offsets. -/
structure Program.Alike (program program' : Program) : Prop where
  rules : List.Forall₂ (Rule.Alike R) program.rules program'.rules

/-- The same reason to refuse a text, at corresponding offsets. -/
inductive ReadError.Alike : ReadError → ReadError → Prop
  | emptyInput : Alike .emptyInput .emptyInput
  | inputTooLarge (limit actual : Nat) :
      Alike (.inputTooLarge limit actual) (.inputTooLarge limit actual)
  | nestingTooDeep (limit : Nat) {p p' : Nat} (h : R p p') :
      Alike (.nestingTooDeep limit p) (.nestingTooDeep limit p')
  | unexpectedCharacter (found : Char) {p p' : Nat} (h : R p p') :
      Alike (.unexpectedCharacter found p) (.unexpectedCharacter found p')
  | unexpectedToken (expected : Expected) (found : String) {p p' : Nat} (h : R p p') :
      Alike (.unexpectedToken expected found p) (.unexpectedToken expected found p')
  | unterminatedPython {p p' : Nat} (h : R p p') :
      Alike (.unterminatedPython p) (.unterminatedPython p')
  | invalidContinuation (fault : ContinuationFault) {p p' : Nat} (h : R p p') :
      Alike (.invalidContinuation fault p) (.invalidContinuation fault p')
  | trailingInput {p p' : Nat} (h : R p p') : Alike (.trailingInput p) (.trailingInput p')

/-- The same reason to refuse a program, at corresponding offsets. -/
inductive EmitError.Alike : EmitError → EmitError → Prop
  | unknownArgument (name : String) {p p' : Nat} (h : R p p') :
      Alike (.unknownArgument name p) (.unknownArgument name p')
  | unboundVariable (name : String) {p p' : Nat} (h : R p p') :
      Alike (.unboundVariable name p) (.unboundVariable name p')
  | unboundVariables (left right : String) {p p' : Nat} (h : R p p') :
      Alike (.unboundVariables left right p) (.unboundVariables left right p')
  | bindingUnderOr (name : String) {p p' : Nat} (h : R p p') :
      Alike (.bindingUnderOr name p) (.bindingUnderOr name p')
  | unsupported (construct : Construct) (target : Target) {p p' : Nat} (h : R p p') :
      Alike (.unsupported construct target p) (.unsupported construct target p')
  | invalidContinuation (fault : TailFault) {p p' : Nat} (h : R p p') :
      Alike (.invalidContinuation fault p) (.invalidContinuation fault p')
  | inconsistentIntention (intention : String) (reason : Disagreement) {p p' : Nat} (h : R p p') :
      Alike (.inconsistentIntention intention reason p) (.inconsistentIntention intention reason p')
  | duplicateMethod (function first second : String) :
      Alike (.duplicateMethod function first second) (.duplicateMethod function first second)

end Alike

/-- A chain of related formulas holds an `or` in both or in neither. -/
theorem Formula.Rel.chainHasOr {α β : Type} {S : α → β → Prop} {f : Formula α} {g : Formula β}
    (h : Formula.Rel S f g) : f.chainHasOr = g.chainHasOr := by
  induction h with
  | atom | group => rfl
  | chain op _ _ _ ihr => rw [Formula.chainHasOr, Formula.chainHasOr, ihr]

/-! ## Outcomes -/

/-- Both outcomes are results that correspond, or both are failures that do. -/
inductive Matches {ε α β : Type} (E : ε → ε → Prop) (A : α → β → Prop) :
    Except ε α → Except ε β → Prop
  | ok {a : α} {b : β} (h : A a b) : Matches E A (.ok a) (.ok b)
  | error {e e' : ε} (h : E e e') : Matches E A (.error e) (.error e')

namespace Matches

variable {ε α β γ δ : Type} {E : ε → ε → Prop} {A : α → β → Prop} {B : γ → δ → Prop}
  {x : Except ε α} {y : Except ε β}

theorem bind {k : α → Except ε γ} {k' : β → Except ε δ} (h : Matches E A x y)
    (hk : ∀ a b, A a b → Matches E B (k a) (k' b)) : Matches E B (x >>= k) (y >>= k') := by
  cases h with
  | ok h => exact hk _ _ h
  | error h => exact .error h

theorem map {f : α → γ} {g : β → δ} (h : Matches E A x y) (hf : ∀ a b, A a b → B (f a) (g b)) :
    Matches E B (f <$> x) (g <$> y) := by
  cases h with
  | ok h => exact .ok (hf _ _ h)
  | error h => exact .error h

theorem mono {A' : α → β → Prop} (h : Matches E A x y) (himp : ∀ a b, A a b → A' a b) :
    Matches E A' x y := by
  cases h with
  | ok h => exact .ok (himp _ _ h)
  | error h => exact .error h

theorem ite (c : Prop) [Decidable c] {x' : Except ε α} {y' : Except ε β} (h : Matches E A x y)
    (h' : Matches E A x' y') : Matches E A (if c then x else x') (if c then y else y') := by
  split
  · exact h
  · exact h'

theorem of_ok {a : α} {b : β} (h : Matches E A (.ok a) (.ok b)) : A a b := by
  cases h with
  | ok h => exact h

theorem of_error {e e' : ε} (h : Matches E A (.error e) (.error e')) : E e e' := by
  cases h with
  | error h => exact h

/-- Steps that give one result are followed by steps that are told the same. -/
theorem bind_eq {y : Except ε α} {k : α → Except ε γ} {k' : α → Except ε δ}
    (h : Matches E Eq x y) (hk : ∀ a, Matches E B (k a) (k' a)) :
    Matches E B (x >>= k) (y >>= k') := by
  refine h.bind ?_
  rintro a _ rfl
  exact hk a

theorem map_eq {y : Except ε α} (f : α → γ) (h : Matches E Eq x y) :
    Matches E Eq (f <$> x) (f <$> y) :=
  h.map fun _ _ => congrArg f

/-- Traversals of related lists correspond when their steps do. -/
theorem mapM {S : α → β → Prop} {as : List α} {bs : List β} {f : α → Except ε γ}
    {g : β → Except ε δ} (h : List.Forall₂ S as bs)
    (hf : ∀ a b, S a b → Matches E B (f a) (g b)) :
    Matches E (List.Forall₂ B) (as.mapM f) (bs.mapM g) := by
  induction h with
  | nil => exact .ok .nil
  | cons hab _ ih =>
    rw [List.mapM_cons, List.mapM_cons]
    exact (hf _ _ hab).bind fun c d hcd => ih.bind fun cs ds hcds => .ok (.cons hcd hcds)

/-- Traversals of related lists have the same results when their steps do. -/
theorem mapM_eq {S : α → β → Prop} {as : List α} {bs : List β} {f : α → Except ε γ}
    {g : β → Except ε γ} (h : List.Forall₂ S as bs)
    (hf : ∀ a b, S a b → Matches E Eq (f a) (g b)) :
    Matches E Eq (as.mapM f) (bs.mapM g) := by
  have hmapM := mapM h hf
  rwa [List.forall₂_eq_eq_eq] at hmapM

theorem mapM_same {f g : α → Except ε γ} (as : List α) (hf : ∀ a, Matches E Eq (f a) (g a)) :
    Matches E Eq (as.mapM f) (as.mapM g) := by
  refine mapM_eq (S := Eq) (List.forall₂_refl as) ?_
  rintro a _ rfl
  exact hf a

theorem optionMapM_eq {S : α → β → Prop} {o : Option α} {o' : Option β} {f : α → Except ε γ}
    {g : β → Except ε γ} (h : Option.Rel S o o')
    (hf : ∀ a b, S a b → Matches E Eq (f a) (g b)) :
    Matches E Eq (o.mapM f) (o'.mapM g) := by
  cases h with
  | none => exact .ok rfl
  | some hab => exact (hf _ _ hab).map_eq some

end Matches

/-! ## Layouts -/

/-- Offsets at which tokens with one number begin. -/
def SameToken (tokens tokens' : List Located) (p p' : Nat) : Prop :=
  ∃ (n : Nat) (t t' : Located), tokens[n]? = some t ∧ tokens'[n]? = some t' ∧
    t.position = p ∧ t'.position = p'

/-- What is kept under a key is found under the one that corresponds to it, when a key of either side
corresponds to no other one. -/
theorem lookup_eq_of_forall₂ {κ κ' α : Type} [DecidableEq κ] [DecidableEq κ'] {R : κ → κ' → Prop}
    (hR : Relator.BiUnique R) {k : κ} {k' : κ'} (hk : R k k') {l : List (κ × α)}
    {l' : List (κ' × α)} (h : List.Forall₂ (fun x y => R x.1 y.1 ∧ x.2 = y.2) l l') :
    l.lookup k = l'.lookup k' := by
  induction h with
  | nil => rfl
  | @cons x y _ _ hxy _ ih =>
    have hsame : (k == x.1) = (k' == y.1) := by
      rw [Bool.eq_iff_iff, beq_iff_eq, beq_iff_eq]
      exact ⟨fun heq => hR.2 hk (heq ▸ hxy.1), fun heq => hR.1 hk (heq ▸ hxy.1)⟩
    rw [List.lookup_cons, List.lookup_cons, hsame, hxy.2, ih]

/-- Where offsets increase, no two tokens begin at one offset. -/
theorem eq_of_position_eq {tokens : List Located}
    (h : tokens.Pairwise (·.position < ·.position)) {m n : Nat} {t u : Located}
    (ht : tokens[m]? = some t) (hu : tokens[n]? = some u) (heq : t.position = u.position) :
    m = n := by
  obtain ⟨hm, rfl⟩ := List.getElem?_eq_some_iff.mp ht
  obtain ⟨hn, rfl⟩ := List.getElem?_eq_some_iff.mp hu
  have hpair := List.pairwise_iff_getElem.mp h
  rcases Nat.lt_trichotomy m n with hlt | heq' | hlt
  · exact absurd heq (Nat.ne_of_lt (hpair m n hm hn hlt))
  · exact heq'
  · exact absurd heq.symm (Nat.ne_of_lt (hpair n m hn hm hlt))

/-- An offset corresponds to one offset of the other layout. -/
theorem sameToken_biUnique {tokens tokens' : List Located}
    (h : tokens.Pairwise (·.position < ·.position))
    (h' : tokens'.Pairwise (·.position < ·.position)) :
    Relator.BiUnique (SameToken tokens tokens') := by
  constructor
  · rintro p q p' ⟨m, t, t', ht, ht', rfl, rfl⟩ ⟨n, u, u', hu, hu', rfl, heq⟩
    obtain rfl := eq_of_position_eq h' ht' hu' heq.symm
    obtain rfl := Option.some.inj (ht.symm.trans hu)
    rfl
  · rintro p p' q' ⟨m, t, t', ht, ht', rfl, rfl⟩ ⟨n, u, u', hu, hu', heq, rfl⟩
    obtain rfl := eq_of_position_eq h ht hu heq.symm
    obtain rfl := Option.some.inj (ht'.symm.trans hu')
    rfl

end CausalRules
