import CausalRules.Facility.Text
import CausalRules.Proofs.Layout

/-!
# The facility script does not depend on layout

Blocks hold no offsets. An offset is only handed down to where something may be refused.

- `matches_pieces`, `matches_test`, `matches_ofRule`: one lemma for each step that makes a block.
- `Domain.ofProgram_alike`: programs that are alike have the same domain, or are refused alike.
-/

namespace CausalRules.Facility

variable {R : Nat → Nat → Prop} {p p' : Nat} {slots : Slots}

/-- The slots of variables are found without offsets. -/
theorem ofEffects_congr {effects effects' : List Action}
    (h : List.Forall₂ (Action.Alike R) effects effects') :
    Slots.ofEffects effects = Slots.ofEffects effects' := by
  have ofArgs : ∀ effects, Slots.ofEffects effects =
      (((effects.map Action.args).zipIdx.flatMap fun (args, i) => Slots.ofArgs i args)).reverse := by
    intro effects
    rw [Slots.ofEffects, List.zipIdx_map, List.flatMap_map]
    rfl
  rw [ofArgs, ofArgs, map_eq_of_forall₂ h fun _ _ => Action.Alike.args]

theorem matches_unsupported {α β : Type} {A : α → β → Prop} (construct : Construct) (hp : R p p') :
    Matches (EmitError.Alike R) A (unsupported construct p) (unsupported construct p') :=
  .error (.unsupported construct .facility hp)

theorem matches_slotOf (hp : R p p') (name : String) :
    Matches (EmitError.Alike R) Eq (slotOf slots p name) (slotOf slots p' name) := by
  unfold slotOf
  cases slots.slot? name with
  | some slot => exact .ok rfl
  | none => exact .error (.unknownArgument name hp)

theorem matches_pieces (hp : R p p') (args : List Arg) :
    Matches (EmitError.Alike R) Eq (pieces slots p args) (pieces slots p' args) := by
  induction args using pieces.induct with
  | case1 => exact .ok rfl
  | case2 name offset rest ih =>
    rw [pieces, pieces]
    exact (matches_slotOf hp name).bind_eq fun slot => ih.bind_eq fun _ => .ok rfl
  | case3 name rest hrest ih =>
    -- the rule for a variable is not the first that fits, so it is named
    rw [pieces.eq_3 _ _ _ _ hrest, pieces.eq_3 _ _ _ _ hrest]
    exact (matches_slotOf hp name).bind_eq fun slot => ih.bind_eq fun _ => .ok rfl
  | case4 text rest ih =>
    rw [pieces, pieces]
    exact ih.bind_eq fun _ => .ok rfl
  | case5 value rest ih =>
    rw [pieces, pieces]
    exact ih.bind_eq fun _ => .ok rfl
  | case6 =>
    rw [pieces, pieces]
    exact .error (.invalidContinuation _ hp)
  | case7 =>
    rw [pieces, pieces]
    exact matches_unsupported _ hp
  | case8 =>
    rw [pieces, pieces]
    exact matches_unsupported _ hp

theorem matches_term (hp : R p p') (operand : Operand) :
    Matches (EmitError.Alike R) Eq (term slots p operand) (term slots p' operand) := by
  cases operand with
  | value arg =>
    cases arg with
    | «variable» name => exact (matches_slotOf hp name).bind_eq fun _ => .ok rfl
    | literal | number | python => exact .ok rfl
    | continuation => exact .error (.invalidContinuation _ hp)
    | state => exact matches_unsupported _ hp
  | type name => exact (matches_slotOf hp name).bind_eq fun _ => .ok rfl
  | all | list => exact matches_unsupported _ hp

theorem matches_membersTest (hp : R p p') (op : Comparison) (typeName : String)
    (items : List Arg) :
    Matches (EmitError.Alike R) Eq (membersTest slots p op typeName items)
      (membersTest slots p' op typeName items) :=
  .ite _ ((matches_pieces hp items).bind_eq fun _ => .ok rfl) (matches_unsupported _ hp)

theorem matches_test {q q' : Predicate} (h : q.Alike R q') :
    Matches (EmitError.Alike R) Eq (test slots q) (test slots q') := by
  cases h with
  | bare operand hp =>
    cases operand with
    | value arg =>
      cases arg with
      | python code => exact .ok rfl
      | _ => exact matches_unsupported _ hp
    | _ => exact matches_unsupported _ hp
  | @compare left op right p p' hp =>
    have hterms : Matches (EmitError.Alike R) Eq
        (if isConstant left && isConstant right then unsupported .twoConstants p
          else return Test.compare (← term slots p left) op (← term slots p right))
        (if isConstant left && isConstant right then unsupported .twoConstants p'
          else return Test.compare (← term slots p' left) op (← term slots p' right)) :=
      .ite _ (matches_unsupported _ hp) <| (matches_term hp left).bind_eq fun _ =>
        (matches_term hp right).bind_eq fun _ => .ok rfl
    cases left with
    | all typeName =>
      cases right with
      | list items => exact matches_membersTest hp op typeName items
      | _ => exact matches_unsupported _ hp
    | list items =>
      cases right with
      | all typeName => exact matches_membersTest hp op typeName items
      | _ => exact matches_unsupported _ hp
    | value | type =>
      cases right with
      | all | list => exact matches_unsupported _ hp
      | value | type => exact hterms

theorem matches_guard {c c' : Condition} (h : Condition.Alike R c c') :
    Matches (EmitError.Alike R) Eq (guard slots c) (guard slots c') := by
  induction h with
  | atom h => exact (matches_test h).map_eq Formula.atom
  | group _ ih => exact ih.map_eq Formula.group
  | chain op _ _ ihl ihr => exact ihl.bind_eq fun _ => ihr.bind_eq fun _ => .ok rfl

theorem matches_ofRule {rule rule' : Rule} (h : rule.Alike R rule') :
    Matches (EmitError.Alike R) Eq (Block.ofRule rule) (Block.ofRule rule') := by
  unfold Block.ofRule
  rw [ofEffects_congr h.effects, map_eq_of_forall₂ h.effects fun _ _ => Action.Alike.name,
    h.intention.args, h.intention.name]
  refine (matches_pieces h.intention.position _).bind_eq fun args => ?_
  exact (Matches.optionMapM_eq h.condition fun _ _ => matches_guard).bind_eq fun _ => .ok rfl

/-- As many effects, rule by rule. -/
theorem maxEffects_congr {program program' : Program} (h : program.Alike R program') :
    program.maxEffects = program'.maxEffects := by
  have hlengths : program.rules.map (·.effects.length) = program'.rules.map (·.effects.length) :=
    map_eq_of_forall₂ h.rules fun _ _ halike => halike.effects.length_eq
  rw [Program.maxEffects, Program.maxEffects, ← List.foldl_map (g := max), hlengths,
    List.foldl_map]

/-- **Programs that differ in offsets have one facility domain**, or are refused for the same reason
at corresponding offsets. -/
theorem Domain.ofProgram_alike {program program' : Program} (h : program.Alike R program') :
    Matches (EmitError.Alike R) Eq (Domain.ofProgram program) (Domain.ofProgram program') := by
  unfold Domain.ofProgram
  rw [maxEffects_congr h]
  exact (Matches.mapM_eq h.rules fun _ _ => matches_ofRule).bind_eq fun _ => .ok rfl

end CausalRules.Facility
