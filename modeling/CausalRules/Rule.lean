/-!
# Rule programs

A program is a list of rules. A rule says that a sequence of actions, its effects, is caused by one
action, its intention, possibly under a condition:

    if (TYPE(obj) = 'block'): stack(dest, obj) := move-to(obj, dest)

- `Number`, `Arg`: what stands between the parentheses of an action.
- `Operand`, `Predicate`, `Formula`: conditions. A formula keeps the chain of connectives as written:
  connectives have no precedence in the tree, and a chain nests to the right.
- `Action`, `Rule`, `Program`.

Positions are byte offsets into the text that was read.
-/

namespace CausalRules

/-- A number as written: its digits are kept. -/
structure Number where
  negative : Bool
  /-- The digits before the point, none when the number begins with the point. -/
  whole : String
  /-- The digits after the point, when there is one. -/
  fraction : Option String
  deriving DecidableEq, Repr, Inhabited

/-- A number's text, with a zero before a leading point. -/
def Number.text (n : Number) : String :=
  (if n.negative then "-" else "") ++ (if n.whole.isEmpty then "0" else n.whole) ++
    match n.fraction with
    | some digits => "." ++ digits
    | none => ""

/-- An argument of an action, or a plain operand. -/
inductive Arg
  | variable (name : String)
  /-- Quoted text. -/
  | literal (text : String)
  | number (value : Number)
  /-- All further arguments, from the one that stands `offset` places back. -/
  | continuation (offset : Nat)
  | state (args : List Arg)
  /-- Code that is copied as it is. -/
  | python (code : String)
  deriving Repr, Inhabited

namespace Arg

/-- The name of a variable. -/
def variableName? : Arg → Option String
  | .variable name => some name
  | _ => none

/-- The offset of a continuation. -/
def continuation? : Arg → Option Nat
  | .continuation offset => some offset
  | _ => none

end Arg

/-- A connective of a condition. -/
inductive Connective
  | and
  | or
  deriving DecidableEq, Repr

/-- A comparison sign. -/
inductive Comparison
  | equal
  | notEqual
  | less
  | greater
  | lessEqual
  | greaterEqual
  deriving DecidableEq, Repr

/-- What a predicate compares. -/
inductive Operand
  | value (arg : Arg)
  /-- Every object of a type. -/
  | all (typeName : String)
  /-- The type of the object that a variable stands for. -/
  | type (variableName : String)
  | list (items : List Arg)
  deriving Repr, Inhabited

/-- A test without connectives. -/
inductive Predicate
  | compare (left : Operand) (op : Comparison) (right : Operand) (position : Nat)
  /-- An operand that is a test by itself. -/
  | bare (operand : Operand) (position : Nat)
  deriving Repr, Inhabited

/-- Tests joined by connectives and grouped by parentheses. -/
inductive Formula (α : Type)
  | atom (test : α)
  | group (inner : Formula α)
  | chain (left : Formula α) (op : Connective) (right : Formula α)
  deriving Repr

/-- The condition of a rule. -/
abbrev Condition := Formula Predicate

namespace Formula

variable {α : Type}

/-- The tests of a formula from left to right. -/
def atoms : Formula α → List α
  | atom test => [test]
  | group inner => inner.atoms
  | chain left _ right => left.atoms ++ right.atoms

/-- Whether the chain that begins at a formula holds an `or`; groups inside it do not count. -/
def chainHasOr : Formula α → Bool
  | chain _ op right => op = .or || right.chainHasOr
  | _ => false

/-- Writes a formula, given how a test and a connective are written. -/
def render (test : α → String) (connective : Connective → String) : Formula α → String
  | atom a => test a
  | group inner => "(" ++ inner.render test connective ++ ")"
  | chain left op right =>
    left.render test connective ++ " " ++ connective op ++ " " ++ right.render test connective

end Formula

/-- An action with its arguments. -/
structure Action where
  name : String
  args : List Arg
  position : Nat
  deriving Repr, Inhabited

/-- A rule: under its condition, the effects in this order are caused by the intention. -/
structure Rule where
  condition : Option Condition
  intention : Action
  effects : List Action
  position : Nat
  deriving Repr

/-- A list of rules. -/
structure Program where
  rules : List Rule
  deriving Repr

/-- The largest number of effects of any rule. -/
def Program.maxEffects (program : Program) : Nat :=
  program.rules.foldl (fun n rule => max n rule.effects.length) 0

end CausalRules
