import CausalRules.Limits
import CausalRules.Reader
import CausalRules.Rule
import CausalRules.Token.Scan

/-!
# Reading a rule program

The grammar, with `[ ]` for what may be left out and `*` for what may repeat:

    program   RULES { rule (; rule)* [;] }
    rule      [if ( condition ) :] action := action (, action)*
    action    name ( [arg (, arg)*] )
    arg       ' name ' | ' number ' | STATE ( arg (, arg)* ) | number | name | CONTn | PYTHON(#code#)
    condition item [(&& | ||) condition]
    item      ( condition ) | operand [(= | != | < | > | <= | >=) operand]
    operand   ALL ( name ) | TYPE ( name ) | [ [arg (, arg)*] ] | arg

A continuation must be the last of its list and reach back no further than the first argument; in a
condition it must stand inside a list. Groups, states and lists may be open inside one another only
up to a limit: readers of nested constructs recur on the number that may still be opened.

- `readProgram`: the program that a list of tokens spells.
- `Program.read`: the program that a text spells, within limits.
-/

namespace CausalRules

open Reader

/-! ## Arguments -/

/-- Reads the digits before a point, of which there are none when the point stands first. -/
def readWhole : Reader String := do
  match (← current).token with
  | .digits run =>
    skip
    return run
  | .dot => return ""
  | _ => unexpected .number

/-- Reads `[. digits]`. -/
def readFraction : Reader (Option String) := do
  if ← accept .dot then
    match (← current).token with
    | .digits run =>
      skip
      return some run
    | _ => unexpected .fractionDigits
  else
    return none

/-- Reads `[-] digits [. digits]` or `[-] . digits`. -/
def readNumber : Reader Number := do
  let negative ← accept .minus
  let whole ← readWhole
  let fraction ← readFraction
  return ⟨negative, whole, fraction⟩

/-- The text of a name inside quotes: underscores stand for spaces. -/
def literalText (name : String) : String :=
  String.ofList (name.toList.map fun c => if c = '_' then ' ' else c)

/-- Reads the name or number between quotes. -/
def readLiteralText : Reader String := do
  match (← current).token with
  | .ident name =>
    skip
    return literalText name
  | .digits _ | .dot | .minus => Number.text <$> readNumber
  | _ => unexpected .literalText

/-- Reads a quoted name or number whose opening quote has been passed. -/
def readLiteral : Reader Arg := do
  let text ← readLiteralText
  expect .quote .closingQuote
  return .literal text

/-- The least number that is too large for the offset of a continuation, 2^32. -/
def offsetBound : Nat := 4294967296

/-- The offset that the digits after `CONT` give: 1 without digits, otherwise a positive number
below the bound. -/
def continuationOffset (suffix : String) : Except ContinuationFault Nat :=
  if suffix.isEmpty then .ok 1
  else
    let offset := suffix.toList.foldl (fun n c => 10 * n + (c.toNat - '0'.toNat)) 0
    if offsetBound ≤ offset then .error .outOfRange
    else if offset = 0 then .error .zero
    else .ok offset

/-- Reads a number, variable, continuation or inline code. -/
def readPlainArg : Reader Arg := do
  let here ← current
  match here.token with
  | .digits _ | .dot | .minus => .number <$> readNumber
  | .ident name =>
    skip
    return .variable name
  | .continuation suffix =>
    match continuationOffset suffix with
    | .ok offset =>
      skip
      return .continuation offset
    | .error fault => throw (.invalidContinuation fault here.position)
  | .python code =>
    skip
    return .python code
  | _ => unexpected .argument

/-- Refuses a continuation that is not the last of its arguments, or that reaches before the first
of them; `before` arguments precede the ones given. -/
def checkContinuation (before : Nat) : List (Nat × Arg) → Except ReadError Unit
  | [] => .ok ()
  | (position, .continuation offset) :: rest =>
    if !rest.isEmpty then .error (.invalidContinuation .notLast position)
    else if before < offset then .error (.invalidContinuation .beforeFirst position)
    else .ok ()
  | _ :: rest => checkContinuation (before + 1) rest

/-- Reads arguments up to a closing sign. -/
def readArgs (arg : Reader Arg) (closing : Token) (expected : Expected) : Reader (List Arg) := do
  let args ← separated .comma do
    let position := (← current).position
    return (position, ← arg)
  expect closing expected
  checkContinuation 0 args
  return args.map Prod.snd

/-- Reads an argument, given how the arguments of a state that opens at a position are read. -/
def readArgWith (stateArgs : Nat → Reader (List Arg)) : Reader Arg := do
  let here ← current
  match here.token with
  | .quote =>
    skip
    readLiteral
  | .stateWord =>
    skip
    expect .openParen .stateOpening
    .state <$> stateArgs here.position
  | _ => readPlainArg

/-- Reads an argument in which at most `depth` states may be nested. -/
def readArg (limit : Nat) : (depth : Nat) → Reader Arg
  | 0 => readArgWith fun position => throw (.nestingTooDeep limit position)
  | depth + 1 => readArgWith fun _ => readArgs (readArg limit depth) .closeParen .stateClosing

/-- Reads an action. -/
def readAction (limit : Nat) : Reader Action := do
  let here ← current
  match here.token with
  | .ident name =>
    skip
    expect .openParen .actionOpening
    if ← accept .closeParen then
      return ⟨name, [], here.position⟩
    else
      let args ← readArgs (readArg limit limit) .closeParen .actionClosing
      return ⟨name, args, here.position⟩
  | _ => unexpected .actionName

/-! ## Conditions -/

/-- Reads the name in parentheses after `ALL` or `TYPE`. -/
def readCallName (expected : Expected) : Reader String := do
  expect .openParen .callOpening
  match (← current).token with
  | .ident name =>
    skip
    expect .closeParen .callClosing
    return name
  | _ => unexpected expected

/-- Reads the items of a list whose opening bracket has been passed. -/
def readListItems (arg : Reader Arg) : Reader (List Arg) := do
  if ← accept .closeBracket then return []
  else readArgs arg .closeBracket .listClosing

/-- Reads an operand in which at most `depth` lists and states may be nested. -/
def readOperand (limit depth : Nat) : Reader Operand := do
  let here ← current
  match here.token with
  | .allWord =>
    skip
    .all <$> readCallName .allName
  | .typeWord =>
    skip
    .type <$> readCallName .typeName
  | .openBracket =>
    skip
    match depth with
    | 0 => throw (.nestingTooDeep limit here.position)
    | depth + 1 => .list <$> readListItems (readArg limit depth)
  | _ =>
    let arg ← readArg limit depth
    if arg.continuation?.isSome then throw (.invalidContinuation .outsideList here.position)
    return .value arg

/-- The comparison that a token stands for. -/
def Comparison.ofToken? : Token → Option Comparison
  | .equal => some .equal
  | .notEqual => some .notEqual
  | .less => some .less
  | .greater => some .greater
  | .lessEqual => some .lessEqual
  | .greaterEqual => some .greaterEqual
  | _ => none

/-- The connective that a token stands for. -/
def Connective.ofToken? : Token → Option Connective
  | .and => some .and
  | .or => some .or
  | _ => none

/-- Reads one operand, or two with a comparison between them. -/
def readPredicate (limit depth : Nat) : Reader Predicate := do
  let position := (← current).position
  let left ← readOperand limit depth
  match Comparison.ofToken? (← current).token with
  | some op =>
    skip
    let right ← readOperand limit depth
    return .compare left op right position
  | none => return .bare left position

/-- Joins the last part of a chain with the parts before it, which are given from right to left. -/
def nestRight (last : Condition) (before : List (Condition × Connective)) : Condition :=
  before.foldl (fun right part => .chain part.1 part.2 right) last

/-- Reads the rest of a chain, at most as many parts as `bound` is long; the parts before `last` are
held from right to left. -/
def moreChain (item : Reader Condition) :
    (bound : List Located) → Condition → List (Condition × Connective) → Reader Condition
  | [], last, before => return nestRight last before
  | _ :: bound, last, before => do
    match Connective.ofToken? (← current).token with
    | some op =>
      skip
      let next ← item
      moreChain item bound next ((last, op) :: before)
    | none => return nestRight last before

/-- Reads parts joined by connectives. The tokens left bound the number of connectives, each of
which is one of them. -/
def readChain (item : Reader Condition) : Reader Condition := do
  let first ← item
  moreChain item (← get) first []

/-- Reads a group or a predicate, given how the inside of a group that opens at a position is
read. -/
def readItem (limit depth : Nat) (inside : Nat → Reader Condition) : Reader Condition := do
  let position := (← current).position
  if ← accept .openParen then
    let inner ← inside position
    expect .closeParen .groupClosing
    return .group inner
  else
    return .atom (← readPredicate limit depth)

/-- Reads a condition in which at most `depth` groups, lists and states may be nested. -/
def readCondition (limit : Nat) : (depth : Nat) → Reader Condition
  | 0 => readChain (readItem limit 0 fun position => throw (.nestingTooDeep limit position))
  | depth + 1 => readChain (readItem limit (depth + 1) fun _ => readCondition limit depth)

/-! ## Rules -/

/-- Reads the condition before a rule, if there is one. -/
def readGuard (limit : Nat) : Reader (Option Condition) := do
  if ← accept .ifWord then
    expect .openParen .conditionOpening
    let condition ← readCondition limit limit
    expect .closeParen .conditionClosing
    expect .colon .conditionColon
    return some condition
  else
    return none

/-- Reads a rule. -/
def readRule (limit : Nat) : Reader Rule := do
  let position := (← current).position
  let condition ← readGuard limit
  let intention ← readAction limit
  expect .causes .causesSign
  let effects ← separated .comma (readAction limit)
  return { condition, intention, effects, position }

/-- Reads the rules after the first, at most as many as `bound` is long; the rules read so far are
held in reverse. The last rule may be followed by a semicolon. -/
def moreRules (limit : Nat) : (bound : List Located) → List Rule → Reader (List Rule)
  | [], found => return found.reverse
  | _ :: bound, found => do
    if ← accept .semicolon then
      if (← current).token = .closeBrace then
        return found.reverse
      else
        let rule ← readRule limit
        moreRules limit bound (rule :: found)
    else
      return found.reverse

/-- Reads `RULES` and the rules between braces. -/
def readRules (limit : Nat) : Reader (List Rule) := do
  expect .rulesWord .rulesWord
  expect .openBrace .openBrace
  if (← current).token = .closeBrace then unexpected .oneRule
  let first ← readRule limit
  let rules ← moreRules limit (← get) [first]
  expect .closeBrace .ruleEnd
  return rules

/-- Reads a program, after which nothing may follow. -/
def readProgram (limit : Nat) : Reader Program := do
  let rules ← readRules limit
  let here ← current
  if here.token = .endOfInput then
    return ⟨rules⟩
  else
    throw (.trailingInput here.position)

/-- The program that a text spells, within limits. -/
def Program.read (limits : Limits) (text : String) : Except ReadError Program :=
  if limits.maxInputBytes < text.utf8ByteSize then
    .error (.inputTooLarge limits.maxInputBytes text.utf8ByteSize)
  else do
    let tokens ← tokenize text
    (readProgram limits.maxNesting).run' tokens

end CausalRules
