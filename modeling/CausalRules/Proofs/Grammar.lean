import CausalRules.Proofs.Reading.Predicates
import Mathlib.Data.Nat.Digits.Defs

/-!
# The grammar of rule programs

The grammar that the reader is written for, as relations between tokens and what they spell. They
say nothing about how a token sequence is gone through, nor about a limit on nesting.

    program   RULES { rule (; rule)* [;] }
    rule      [if ( condition ) :] action := action (, action)*
    action    name ( [arg (, arg)*] )
    arg       ' name ' | ' number ' | STATE ( arg (, arg)* ) | number | name | CONTn | PYTHON(#code#)
    condition item [(&& | ||) condition]
    item      ( condition ) | operand [(= | != | < | > | <= | >=) operand]
    operand   ALL ( name ) | TYPE ( name ) | [ [arg (, arg)*] ] | arg

- `Separated`, `Chained`: items with a separator, or a connective, between each two.
- `Denotes`, `ContinuationsPlaced`: what else is asked of continuations.
- `SpellsArg`, `SpellsCondition`, `SpellsAction`, `SpellsRule`, `SpellsProgram`: one relation for
  each line. Actions, predicates and rules have the offset of their first token.
-/

namespace CausalRules

/-- Items with a separator between each two. -/
inductive Separated {α : Type} (separator : Token) (Item : List Located → α → Prop) :
    List Located → List α → Prop
  | last {s : List Located} {a : α} : Item s a → Separated separator Item s [a]
  | more {s u : List Located} {a : α} {as : List α} {p : Nat} :
      Item s a → Separated separator Item u as →
      Separated separator Item (s ++ ⟨separator, p⟩ :: u) (a :: as)

/-! ## Arguments -/

/-- Numbers: `[-] digits [. digits]` or `[-] . digits`. -/
inductive SpellsNumber : List Located → Number → Prop
  | whole {p : Nat} (run : String) : SpellsNumber [⟨.digits run, p⟩] ⟨false, run, none⟩
  | decimal {p q r : Nat} (run fraction : String) :
      SpellsNumber [⟨.digits run, p⟩, ⟨.dot, q⟩, ⟨.digits fraction, r⟩] ⟨false, run, some fraction⟩
  | point {p q : Nat} (fraction : String) :
      SpellsNumber [⟨.dot, p⟩, ⟨.digits fraction, q⟩] ⟨false, "", some fraction⟩
  | negative {s : List Located} {p : Nat} {whole : String} {fraction : Option String} :
      SpellsNumber s ⟨false, whole, fraction⟩ →
      SpellsNumber (⟨.minus, p⟩ :: s) ⟨true, whole, fraction⟩

/-- The number that decimal digits write. -/
def decimalValue (digits : String) : Nat :=
  Nat.ofDigits 10 (digits.toList.reverse.map fun c => c.toNat - '0'.toNat)

/-- The offset that the digits after `CONT` denote: 1 without digits, otherwise a number from 1 to
2^32 - 1. -/
def Denotes (suffix : String) (offset : Nat) : Prop :=
  if suffix = "" then offset = 1
  else offset = decimalValue suffix ∧ 1 ≤ offset ∧ offset ≤ 2 ^ 32 - 1

theorem foldl_eq_decimalValue (digits : String) :
    digits.toList.foldl (fun n c => 10 * n + (c.toNat - '0'.toNat)) 0 = decimalValue digits := by
  rw [decimalValue, Nat.ofDigits_eq_foldr, List.foldr_map, List.foldr_reverse]
  simp only [Nat.cast_id, Nat.add_comm]

/-- The reader takes the offset that the digits denote. -/
theorem continuationOffset_eq_ok_iff {suffix : String} {offset : Nat} :
    continuationOffset suffix = .ok offset ↔ Denotes suffix offset := by
  have hbound : offsetBound = 2 ^ 32 := rfl
  unfold continuationOffset Denotes
  dsimp only
  rw [foldl_eq_decimalValue]
  by_cases hempty : suffix = ""
  · rw [if_pos (String.isEmpty_iff.mpr hempty), if_pos hempty]
    exact ⟨fun h => (Except.ok.inj h).symm, fun h => congrArg _ h.symm⟩
  · rw [if_neg (mt String.isEmpty_iff.mp hempty), if_neg hempty]
    constructor
    · intro h
      split at h
      · cases h
      · split at h
        · cases h
        · cases h
          exact ⟨rfl, by omega, by omega⟩
    · rintro ⟨rfl, hlow, hhigh⟩
      rw [if_neg (by omega), if_neg (by omega)]

/-- Every continuation is the last of its list and has at least as many arguments before it as its
offset says. -/
def ContinuationsPlaced (args : List Arg) : Prop :=
  ∀ i offset, args[i]? = some (.continuation offset) → i + 1 = args.length ∧ offset ≤ i

/-- What the check of a list asks for when some arguments precede it. -/
theorem checkContinuation_eq_ok_iff {before : Nat} {args : List (Nat × Arg)} :
    checkContinuation before args = .ok () ↔
      ∀ i offset, (args.map Prod.snd)[i]? = some (.continuation offset) →
        i + 1 = args.length ∧ offset ≤ before + i := by
  fun_induction checkContinuation before args with
  | case1 => simp
  | case2 before position offset rest hrest =>
    refine ⟨fun hok => ?_, fun h => ?_⟩
    · cases hok
    · have hlength : rest.length = 0 := (Nat.succ.inj (h 0 offset rfl).1).symm
      rw [List.length_eq_zero_iff.mp hlength] at hrest
      cases hrest
  | case3 before position offset rest hrest hbefore =>
    refine ⟨fun hok => ?_, fun h => ?_⟩
    · cases hok
    · have hplaced := (h 0 offset rfl).2
      omega
  | case4 before position offset rest hrest hbefore =>
    refine ⟨fun _ i offset' hi => ?_, fun _ => rfl⟩
    obtain rfl : rest = [] := by simpa using hrest
    cases i with
    | zero =>
      cases hi
      exact ⟨rfl, Nat.le_of_not_lt hbefore⟩
    | succ i => cases hi
  | case5 before arg rest hne ih =>
    obtain ⟨position, arg⟩ := arg
    rw [ih]
    constructor
    · intro h i offset hi
      cases i with
      | zero => exact (hne position offset (congrArg _ (Option.some.inj hi))).elim
      | succ i =>
        obtain ⟨hlast, hoffset⟩ := h i offset hi
        exact ⟨congrArg _ hlast, by omega⟩
    · intro h i offset hi
      obtain ⟨hlast, hoffset⟩ := h (i + 1) offset hi
      exact ⟨Nat.succ.inj hlast, by omega⟩

/-- The check of a whole list asks for well placed continuations. -/
theorem checkContinuation_zero_eq_ok_iff {args : List (Nat × Arg)} :
    checkContinuation 0 args = .ok () ↔ ContinuationsPlaced (args.map Prod.snd) := by
  rw [checkContinuation_eq_ok_iff]
  simp only [ContinuationsPlaced, List.length_map, Nat.zero_add]

/-- Arguments. -/
inductive SpellsArg : List Located → Arg → Prop
  | name {p q r : Nat} (name : String) :
      SpellsArg [⟨.quote, p⟩, ⟨.ident name, q⟩, ⟨.quote, r⟩] (.literal (literalText name))
  | quoted {s : List Located} {n : Number} {p q : Nat} :
      SpellsNumber s n → SpellsArg (⟨.quote, p⟩ :: (s ++ [⟨.quote, q⟩])) (.literal n.text)
  | state {s : List Located} {args : List Arg} {p q r : Nat} :
      Separated .comma SpellsArg s args → ContinuationsPlaced args →
      SpellsArg (⟨.stateWord, p⟩ :: ⟨.openParen, q⟩ :: (s ++ [⟨.closeParen, r⟩])) (.state args)
  | number {s : List Located} {n : Number} : SpellsNumber s n → SpellsArg s (.number n)
  | variable {p : Nat} (name : String) : SpellsArg [⟨.ident name, p⟩] (.variable name)
  | continuation {p : Nat} {suffix : String} {offset : Nat} :
      Denotes suffix offset → SpellsArg [⟨.continuation suffix, p⟩] (.continuation offset)
  | python {p : Nat} (code : String) : SpellsArg [⟨.python code, p⟩] (.python code)

/-- Lists of at least one argument, in which continuations are placed well. -/
def SpellsArgs (s : List Located) (args : List Arg) : Prop :=
  Separated .comma SpellsArg s args ∧ ContinuationsPlaced args

/-! ## Conditions -/

/-- The sign of a comparison. -/
def Comparison.token : Comparison → Token
  | .equal => .equal
  | .notEqual => .notEqual
  | .less => .less
  | .greater => .greater
  | .lessEqual => .lessEqual
  | .greaterEqual => .greaterEqual

theorem Comparison.ofToken?_eq_some_iff {t : Token} {op : Comparison} :
    ofToken? t = some op ↔ t = op.token := by
  constructor
  · intro h
    unfold ofToken? at h
    split at h <;> cases h <;> rfl
  · rintro rfl
    cases op <;> rfl

/-- The sign of a connective. -/
def Connective.token : Connective → Token
  | .and => .and
  | .or => .or

theorem Connective.ofToken?_eq_some_iff {t : Token} {op : Connective} :
    ofToken? t = some op ↔ t = op.token := by
  constructor
  · intro h
    unfold ofToken? at h
    split at h <;> cases h <;> rfl
  · rintro rfl
    cases op <;> rfl

/-- Operands; a continuation is none. -/
inductive SpellsOperand : List Located → Operand → Prop
  | all {p q r o : Nat} (name : String) :
      SpellsOperand [⟨.allWord, p⟩, ⟨.openParen, q⟩, ⟨.ident name, r⟩, ⟨.closeParen, o⟩] (.all name)
  | type {p q r o : Nat} (name : String) :
      SpellsOperand [⟨.typeWord, p⟩, ⟨.openParen, q⟩, ⟨.ident name, r⟩, ⟨.closeParen, o⟩]
        (.type name)
  | empty {p q : Nat} : SpellsOperand [⟨.openBracket, p⟩, ⟨.closeBracket, q⟩] (.list [])
  | list {s : List Located} {items : List Arg} {p q : Nat} :
      SpellsArgs s items →
      SpellsOperand (⟨.openBracket, p⟩ :: (s ++ [⟨.closeBracket, q⟩])) (.list items)
  | value {s : List Located} {arg : Arg} :
      SpellsArg s arg → arg.continuation? = none → SpellsOperand s (.value arg)

/-- Predicates. -/
inductive SpellsPredicate : List Located → Predicate → Prop
  | bare {t : Located} {s : List Located} {operand : Operand} :
      SpellsOperand (t :: s) operand → SpellsPredicate (t :: s) (.bare operand t.position)
  | compare {t : Located} {s u : List Located} {left right : Operand} {p : Nat} (op : Comparison) :
      SpellsOperand (t :: s) left → SpellsOperand u right →
      SpellsPredicate (t :: (s ++ ⟨op.token, p⟩ :: u)) (.compare left op right t.position)

/-- Items with a connective between each two: what follows the first connective is the right part
of the chain. -/
inductive Chained (Item : List Located → Condition → Prop) : List Located → Condition → Prop
  | last {s : List Located} {c : Condition} : Item s c → Chained Item s c
  | more {s u : List Located} {left right : Condition} {p : Nat} (op : Connective) :
      Item s left → Chained Item u right →
      Chained Item (s ++ ⟨op.token, p⟩ :: u) (.chain left op right)

/-- Groups and predicates. -/
inductive SpellsItem : List Located → Condition → Prop
  | group {s : List Located} {inner : Condition} {p q : Nat} :
      Chained SpellsItem s inner →
      SpellsItem (⟨.openParen, p⟩ :: (s ++ [⟨.closeParen, q⟩])) (.group inner)
  | test {s : List Located} {test : Predicate} :
      SpellsPredicate s test → SpellsItem s (.atom test)

/-- Conditions. -/
abbrev SpellsCondition : List Located → Condition → Prop :=
  Chained SpellsItem

/-! ## Programs -/

/-- Actions. -/
inductive SpellsAction : List Located → Action → Prop
  | plain {p q r : Nat} (name : String) :
      SpellsAction [⟨.ident name, p⟩, ⟨.openParen, q⟩, ⟨.closeParen, r⟩] ⟨name, [], p⟩
  | applied {s : List Located} {args : List Arg} {p q r : Nat} (name : String) :
      SpellsArgs s args →
      SpellsAction (⟨.ident name, p⟩ :: ⟨.openParen, q⟩ :: (s ++ [⟨.closeParen, r⟩]))
        ⟨name, args, p⟩

/-- Rules. -/
inductive SpellsRule : List Located → Rule → Prop
  | always {s u : List Located} {intention : Action} {effects : List Action} {p : Nat} :
      SpellsAction s intention → Separated .comma SpellsAction u effects →
      SpellsRule (s ++ ⟨.causes, p⟩ :: u) ⟨none, intention, effects, intention.position⟩
  | guarded {c s u : List Located} {condition : Condition} {intention : Action}
      {effects : List Action} {p q r o n : Nat} :
      SpellsCondition c condition → SpellsAction s intention →
      Separated .comma SpellsAction u effects →
      SpellsRule
        (⟨.ifWord, p⟩ :: ⟨.openParen, q⟩ :: (c ++ ⟨.closeParen, r⟩ :: ⟨.colon, o⟩ ::
          (s ++ ⟨.causes, n⟩ :: u)))
        ⟨some condition, intention, effects, p⟩

/-- A semicolon or nothing. -/
def TrailingSemicolon (s : List Located) : Prop :=
  s = [] ∨ ∃ p, s = [⟨.semicolon, p⟩]

/-- Programs, up to the end of the input. -/
inductive SpellsProgram : List Located → Program → Prop
  | rules {s u : List Located} {rules : List Rule} {p q r e : Nat} :
      Separated .semicolon SpellsRule s rules → TrailingSemicolon u →
      SpellsProgram
        (⟨.rulesWord, p⟩ :: ⟨.openBrace, q⟩ ::
          (s ++ (u ++ [⟨.closeBrace, r⟩, ⟨.endOfInput, e⟩])))
        ⟨rules⟩

end CausalRules
