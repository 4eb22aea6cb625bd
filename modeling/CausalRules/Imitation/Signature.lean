import CausalRules.EmitError
import CausalRules.Rule
import CausalRules.Script.Name

/-!
# Signatures of methods

All rules of an intention share one method. Its parameters are those of the first rule; when any rule
ends its intention with a continuation, the parameters from the one that the continuation reaches
back to are gathered into a star parameter. The rules have to agree on where that is.

- `Params`: the parameters of one rule.
- `Signature`: the parameters of a method; `Signature.ofRules` finds them or says how the rules
  disagree.
-/

namespace CausalRules.Imitation

open Script (identifier)

/-- The parameters that a rule gives to its intention. -/
structure Params where
  names : List String
  /-- How far back the continuation reaches, when there is one. -/
  continuation : Option Nat
  deriving DecidableEq, Repr

/-- The parameters that arguments name, when each of them is a variable or a continuation. Of several
continuations the last one counts. -/
def Params.ofArgs? : List Arg → Option Params
  | [] => some ⟨[], none⟩
  | .variable name :: rest => do
    let params ← ofArgs? rest
    return { params with names := name :: params.names }
  | .continuation offset :: rest => do
    let params ← ofArgs? rest
    return { params with continuation := params.continuation <|> some offset }
  | _ :: _ => none

/-- The first name that was seen before. -/
def firstRepeat? (seen : List String) : List String → Option String
  | [] => none
  | name :: rest => if name ∈ seen then some name else firstRepeat? (name :: seen) rest

/-- The failure for a rule whose parameters do not fit. -/
def disagree {α : Type} (rule : Rule) (reason : Disagreement) : Except EmitError α :=
  .error (.inconsistentIntention rule.intention.name reason rule.intention.position)

/-- The parameters of a rule, which are variables of different names. -/
def paramsOf (rule : Rule) : Except EmitError Params :=
  match Params.ofArgs? rule.intention.args with
  | none => disagree rule .notVariable
  | some params =>
    match firstRepeat? [] params.names with
    | some name => disagree rule (.repeated name)
    | none => .ok params

/-- The parameter at which the continuations of the rules begin, given the one at which earlier
rules begin it. -/
def commonStart (earlier : Option Nat) : List Rule → Except EmitError (Option Nat)
  | [] => .ok earlier
  | rule :: rest => do
    let params ← paramsOf rule
    match params.continuation, earlier with
    | none, _ => commonStart earlier rest
    | some offset, none => commonStart (some (params.names.length - offset)) rest
    | some offset, some start =>
      if params.names.length - offset = start then commonStart earlier rest
      else disagree rule (.continuationStart (params.names.length - offset) start)

/-- Checks the number of parameters of every rule. -/
def checkCounts (fits : Nat → Bool) (reason : Nat → Disagreement) : List Rule → Except EmitError Unit
  | [] => .ok ()
  | rule :: rest => do
    let params ← paramsOf rule
    if fits params.names.length then checkCounts fits reason rest
    else disagree rule (reason params.names.length)

/-- The parameters of a method, as identifiers. -/
structure Signature where
  fixed : List String
  /-- The parameter that gathers all further arguments. -/
  star : Option String
  deriving DecidableEq, Repr

namespace Signature

/-- The signature that rules of one intention share. -/
def ofRules (rules : List Rule) : Except EmitError Signature := do
  let start ← commonStart none rules
  let names ← match rules with
    | first :: _ => Params.names <$> paramsOf first
    | [] => .ok []
  match start with
  | some k =>
    checkCounts (k < ·) (fun _ => .tooFew (k + 1)) rules
    return ⟨(names.take k).map identifier, names[k]?.map identifier⟩
  | none =>
    checkCounts (· = names.length) (.count names.length) rules
    return ⟨names.map identifier, none⟩

end Signature

end CausalRules.Imitation
