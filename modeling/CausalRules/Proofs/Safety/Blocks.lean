import CausalRules.Facility.Text
import CausalRules.Proofs.Safety

/-!
# Writing blocks does not crash

The pieces of a list of arguments are collected on a stack. A continuation takes the piece of the
variable before it off the stack, and puts the tail of that variable there instead. Here taking a piece
off an empty stack is a crash. It never happens, whatever the program is, because a variable is only
remembered while its piece is on top.

- `piecesFrom`: the pieces of arguments by a stack; `piecesFrom_eq`.
- `testOf`, `guardOf`, `blockOf`: the parts of a block.
- `domainOf_eq`: writing blocks has the outcome it has in the model.
-/

namespace CausalRules.Safety

open Facility (Slot Slots Piece Test Block Domain)

/-! ## Pieces -/

/-- Takes the top off a stack, which must not be empty. -/
def pop {ε α : Type} : List α → Checked ε (List α)
  | [] => crash
  | _ :: rest => return rest

/-- The pieces on a stack with those of further arguments, given the slot of the variable that stands
directly before them. -/
def piecesFrom (slots : Slots) (position : Nat) :
    List Piece → Option Slot → List Arg → Checked EmitError (List Piece)
  | stack, _, [] => return stack.reverse
  | stack, _, .variable name :: rest => do
    let slot ← checked (Facility.slotOf slots position name)
    piecesFrom slots position (.item slot :: stack) (some slot) rest
  | stack, _, .literal text :: rest =>
    piecesFrom slots position (.constant (.text text) :: stack) none rest
  | stack, _, .number value :: rest =>
    piecesFrom slots position (.constant (.number value) :: stack) none rest
  | stack, some slot, .continuation _ :: rest => do
    let below ← pop stack
    piecesFrom slots position (.tail slot :: below) none rest
  | _, none, .continuation _ :: _ => throw (.invalidContinuation .notAfterVariable position)
  | _, _, .state _ :: _ => checked (Facility.unsupported .stateArgument position)
  | _, _, .python _ :: _ => checked (Facility.unsupported .pythonArgument position)

/-- The pieces of arguments. -/
def piecesOf (slots : Slots) (position : Nat) (args : List Arg) :
    Checked EmitError (List Piece) :=
  piecesFrom slots position [] none args

section Pieces

variable {slots : Slots} {position : Nat} {stack : List Piece} {slot : Slot} {name : String}
  {args : List Arg}

/-- The outcome of a stack with further pieces on it. -/
def piled (stack : List Piece) (x : Except EmitError (List Piece)) :
    Checked EmitError (List Piece) :=
  checked ((stack.reverse ++ ·) <$> x)

theorem piled_cons (piece : Piece) (x : Except EmitError (List Piece)) :
    piled (piece :: stack) x = piled stack ((piece :: ·) <$> x) := by
  cases x with
  | error e => rfl
  | ok pieces =>
    have happend : (piece :: stack).reverse ++ pieces = stack.reverse ++ piece :: pieces := by
      rw [List.reverse_cons, List.append_assoc, List.singleton_append]
    exact congrArg (checked ∘ .ok) happend

/-- A variable joins with a continuation after it. -/
theorem pieces_variable_continuation {offset : Nat} :
    Facility.pieces slots position (.variable name :: .continuation offset :: args) = (do
      let slot ← Facility.slotOf slots position name
      (.tail slot :: ·) <$> Facility.pieces slots position args) := by
  rw [Facility.pieces]
  rfl

/-- A variable stands for itself in front of anything else. -/
theorem pieces_variable (h : ∀ offset rest, args ≠ .continuation offset :: rest) :
    Facility.pieces slots position (.variable name :: args) = (do
      let slot ← Facility.slotOf slots position name
      (.item slot :: ·) <$> Facility.pieces slots position args) := by
  rw [Facility.pieces]
  · rfl
  · exact h

theorem pieces_of_slotOf_error {e : EmitError}
    (h : Facility.slotOf slots position name = .error e) :
    Facility.pieces slots position (.variable name :: args) = .error e := by
  by_cases hnext : ∃ offset rest, args = .continuation offset :: rest
  · obtain ⟨offset, rest, rfl⟩ := hnext
    rw [pieces_variable_continuation, h]
    rfl
  · rw [pieces_variable fun offset rest heq => hnext ⟨offset, rest, heq⟩, h]
    rfl

/-- The variable directly before arguments does not matter unless they begin with a
continuation. -/
theorem piecesFrom_some (h : ∀ offset rest, args ≠ .continuation offset :: rest) :
    piecesFrom slots position stack (some slot) args = piecesFrom slots position stack none args := by
  cases args with
  | nil => rfl
  | cons arg args =>
    cases arg
    case continuation offset => exact (h offset args rfl).elim
    all_goals rfl

/-- The piece of a variable is on top of the stack while the variable is remembered. -/
theorem piecesFrom_eq (args : List Arg) (stack : List Piece) :
    piecesFrom slots position stack none args =
        piled stack (Facility.pieces slots position args) ∧
      ∀ slot name, Facility.slotOf slots position name = .ok slot →
        piecesFrom slots position (.item slot :: stack) (some slot) args =
          piled stack (Facility.pieces slots position (.variable name :: args)) := by
  induction args generalizing stack with
  | nil =>
    constructor
    · exact congrArg (checked ∘ .ok) (List.append_nil _).symm
    · intro slot name hslot
      rw [pieces_variable, hslot]
      · exact congrArg (checked ∘ .ok) List.reverse_cons
      · exact fun _ _ => nofun
  | cons arg args ih =>
    have hnone (stack : List Piece) : piecesFrom slots position stack none (arg :: args) =
        piled stack (Facility.pieces slots position (arg :: args)) := by
      cases arg
      case «variable» name =>
        rw [piecesFrom]
        cases hslot : Facility.slotOf slots position name with
        | ok slot => exact (ih stack).2 slot name hslot
        | error e =>
          rw [pieces_of_slotOf_error hslot]
          rfl
      case literal text => exact ((ih _).1.trans (piled_cons _ _))
      case number value => exact ((ih _).1.trans (piled_cons _ _))
      all_goals rfl
    refine ⟨hnone stack, fun slot name hslot => ?_⟩
    by_cases hnext : ∃ offset rest, arg :: args = .continuation offset :: rest
    · obtain ⟨offset, rest, heq⟩ := hnext
      cases heq
      rw [pieces_variable_continuation, hslot]
      exact (ih _).1.trans (piled_cons _ _)
    · have hnext : ∀ offset rest, arg :: args ≠ .continuation offset :: rest :=
        fun offset rest heq => hnext ⟨offset, rest, heq⟩
      rw [pieces_variable hnext, hslot, piecesFrom_some hnext, hnone]
      exact piled_cons _ _

theorem piecesOf_eq (slots : Slots) (position : Nat) (args : List Arg) :
    piecesOf slots position args = checked (Facility.pieces slots position args) := by
  rw [piecesOf, (piecesFrom_eq args []).1, piled]
  cases Facility.pieces slots position args with
  | error e => rfl
  | ok pieces => rfl

end Pieces

/-! ## Blocks -/

/-- The test for a comparison of all objects of a type with listed ones. -/
def membersTestOf (slots : Slots) (position : Nat) (op : Comparison) (typeName : String)
    (items : List Arg) : Checked EmitError Test :=
  if op = .equal then return .sameMembers typeName (← piecesOf slots position items)
  else checked (Facility.unsupported .allOperator position)

/-- The test for a predicate. Only a comparison with a list has pieces. -/
def testOf (slots : Slots) : Predicate → Checked EmitError Test
  | .compare (.all typeName) op (.list items) position
  | .compare (.list items) op (.all typeName) position =>
    membersTestOf slots position op typeName items
  | predicate => checked (Facility.test slots predicate)

/-- The condition of a rule in terms of observed arguments. -/
def guardOf (slots : Slots) : Condition → Checked EmitError (Formula Test)
  | .atom predicate => .atom <$> testOf slots predicate
  | .group inner => .group <$> guardOf slots inner
  | .chain left op right => return .chain (← guardOf slots left) op (← guardOf slots right)

/-- The block of a rule. -/
def blockOf (rule : Rule) : Checked EmitError Block := do
  let slots := Slots.ofEffects rule.effects
  let args ← piecesOf slots rule.intention.position rule.intention.args
  let guard ← rule.condition.mapM (guardOf slots)
  return ⟨rule.effects.map Action.name, guard, rule.intention.name, args⟩

/-- The domain of a program. -/
def domainOf (program : Program) : Checked EmitError Domain := do
  let blocks ← program.rules.mapM blockOf
  return ⟨Script.Line.renderAll (blocks.flatMap Block.lines), program.maxEffects⟩

theorem membersTestOf_eq (slots : Slots) (position : Nat) (op : Comparison) (typeName : String)
    (items : List Arg) : membersTestOf slots position op typeName items =
      checked (Facility.membersTest slots position op typeName items) := by
  unfold membersTestOf Facility.membersTest
  split
  · rw [piecesOf_eq]
    exact bind_checked fun _ _ => rfl
  · rfl

theorem testOf_eq (slots : Slots) (predicate : Predicate) :
    testOf slots predicate = checked (Facility.test slots predicate) := by
  unfold testOf
  split
  · exact membersTestOf_eq ..
  · exact membersTestOf_eq ..
  · rfl

theorem guardOf_eq (slots : Slots) (condition : Condition) :
    guardOf slots condition = checked (Facility.guard slots condition) := by
  induction condition with
  | atom predicate => rw [guardOf, testOf_eq, map_checked, Facility.guard]
  | group inner ih => rw [guardOf, ih, map_checked, Facility.guard]
  | chain left op right ihl ihr =>
    rw [guardOf, ihl, ihr, Facility.guard]
    exact bind_checked fun _ _ => bind_checked fun _ _ => rfl

theorem blockOf_eq (rule : Rule) : blockOf rule = checked (Block.ofRule rule) := by
  rw [blockOf, Block.ofRule, piecesOf_eq]
  refine bind_checked fun args _ => ?_
  cases rule.condition with
  | none => rfl
  | some condition =>
    show (some <$> guardOf _ condition) >>= _ = checked ((some <$> Facility.guard _ condition) >>= _)
    rw [guardOf_eq, map_checked]
    exact bind_checked fun _ _ => rfl

/-- No program crashes the writer of blocks. -/
theorem domainOf_eq (program : Program) :
    domainOf program = checked (Domain.ofProgram program) := by
  rw [domainOf, Domain.ofProgram, mapM_checked fun rule _ => blockOf_eq rule]
  exact bind_checked fun _ _ => rfl

end CausalRules.Safety
