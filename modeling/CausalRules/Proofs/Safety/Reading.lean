import CausalRules.Proofs.Safety.Scanning
import CausalRules.Rule.Read

/-!
# Reading tokens by index does not crash

The readers of the model take tokens from the front of a list, which they may empty, and repeat at most
as often as there are tokens left. Here they keep all tokens and the index of the one they look at:
they crash where there is none, where they pass over the last one, and where they repeat more often
than there are tokens. They never do, because the last token is the end of the input, which none of
them passes over.

- `Indexed`: a reader with an index; `current`, `skip`, `accept`, `expect`, `separated` and one reader
  for each construct of the grammar.
- `Follows`: an indexed reader does what a reader of the model does, and does not crash.
- `follows_bind`, `follows_current`, `follows_skip`, `follows_accept`: how such readers are composed.
- `readBytes_eq`: no text crashes the reader, which finds the program of the model.
-/

namespace CausalRules.Safety

/-- The tokens of a text, and the index of the one that is read next. -/
structure Place where
  tokens : List Located
  index : Nat

/-- A reader that may crash. -/
abbrev Indexed := StateT Place (Checked ReadError)

namespace Indexed

variable {α β : Type}

/-! ## Readers -/

/-- The reader that crashes. -/
def crash : Indexed α :=
  StateT.lift Safety.crash

/-- The token at the index, which must be one of the tokens. -/
def current : Indexed Located := do
  let place ← get
  match place.tokens[place.index]? with
  | some here => return here
  | none => crash

/-- Passes over the token at the index, which must not be the last one. -/
def skip : Indexed Unit := do
  let place ← get
  if place.index + 1 < place.tokens.length then set { place with index := place.index + 1 }
  else crash

/-- Fails at the token at the index, which is not what was expected. -/
def unexpected (expected : Expected) : Indexed α := do
  let here ← current
  throw (.unexpectedToken expected here.token.text here.position)

/-- Passes over a token if it stands first, and tells whether it did. -/
def accept (token : Token) : Indexed Bool := do
  if (← current).token = token then
    skip
    return true
  else
    return false

/-- Passes over a token that must stand first. -/
def expect (token : Token) (expected : Expected) : Indexed Unit := do
  unless ← accept token do unexpected expected

/-- Reads an item after each separator, in at most so many steps; the items read so far are held in
reverse. -/
def moreItems (separator : Token) (item : Indexed α) : (steps : Nat) → List α → Indexed (List α)
  | 0, _ => crash
  | steps + 1, found => do
    if ← accept separator then
      let next ← item
      moreItems separator item steps (next :: found)
    else
      return found.reverse

/-- Reads at least one item, and another after each separator. -/
def separated (separator : Token) (item : Indexed α) : Indexed (List α) := do
  let first ← item
  moreItems separator item (← get).tokens.length [first]

/-- Reads the digits before a point. -/
def readWhole : Indexed String := do
  match (← current).token with
  | .digits run =>
    skip
    return run
  | .dot => return ""
  | _ => unexpected .number

/-- Reads `[. digits]`. -/
def readFraction : Indexed (Option String) := do
  if ← accept .dot then
    match (← current).token with
    | .digits run =>
      skip
      return some run
    | _ => unexpected .fractionDigits
  else
    return none

/-- Reads `[-] digits [. digits]` or `[-] . digits`. -/
def readNumber : Indexed Number := do
  let negative ← accept .minus
  let whole ← readWhole
  let fraction ← readFraction
  return ⟨negative, whole, fraction⟩

/-- Reads the name or number between quotes. -/
def readLiteralText : Indexed String := do
  match (← current).token with
  | .ident name =>
    skip
    return literalText name
  | .digits _ | .dot | .minus => Number.text <$> readNumber
  | _ => unexpected .literalText

/-- Reads a quoted name or number whose opening quote has been passed. -/
def readLiteral : Indexed Arg := do
  let text ← readLiteralText
  expect .quote .closingQuote
  return .literal text

/-- Reads a number, variable, continuation or inline code. The marker of a continuation is passed
before its offset is checked. -/
def readPlainArg : Indexed Arg := do
  let here ← current
  match here.token with
  | .digits _ | .dot | .minus => .number <$> readNumber
  | .ident name =>
    skip
    return .variable name
  | .continuation suffix =>
    skip
    match continuationOffset suffix with
    | .ok offset => return .continuation offset
    | .error fault => throw (.invalidContinuation fault here.position)
  | .python code =>
    skip
    return .python code
  | _ => unexpected .argument

/-- Reads arguments up to a closing sign. -/
def readArgs (arg : Indexed Arg) (closing : Token) (expected : Expected) : Indexed (List Arg) := do
  let args ← separated .comma do
    let position := (← current).position
    return (position, ← arg)
  expect closing expected
  checked (checkContinuation 0 args)
  return args.map Prod.snd

/-- Reads an argument, given how the arguments of a state that opens at a position are read. -/
def readArgWith (stateArgs : Nat → Indexed (List Arg)) : Indexed Arg := do
  let here ← current
  match here.token with
  | .quote =>
    skip
    readLiteral
  | .stateWord =>
    skip
    expect .openParen .stateOpening
    .state <$> stateArgs here.position
  | _ => readPlainArg

/-- Reads an argument in which at most `depth` states may be nested. -/
def readArg (limit : Nat) : (depth : Nat) → Indexed Arg
  | 0 => readArgWith fun position => throw (.nestingTooDeep limit position)
  | depth + 1 => readArgWith fun _ => readArgs (readArg limit depth) .closeParen .stateClosing

/-- Reads an action. -/
def readAction (limit : Nat) : Indexed Action := do
  let here ← current
  match here.token with
  | .ident name =>
    skip
    expect .openParen .actionOpening
    if ← accept .closeParen then
      return ⟨name, [], here.position⟩
    else
      let args ← readArgs (readArg limit limit) .closeParen .actionClosing
      return ⟨name, args, here.position⟩
  | _ => unexpected .actionName

/-- Reads the name in parentheses after `ALL` or `TYPE`. -/
def readCallName (expected : Expected) : Indexed String := do
  expect .openParen .callOpening
  match (← current).token with
  | .ident name =>
    skip
    expect .closeParen .callClosing
    return name
  | _ => unexpected expected

/-- Reads the items of a list whose opening bracket has been passed. -/
def readListItems (arg : Indexed Arg) : Indexed (List Arg) := do
  if ← accept .closeBracket then return []
  else readArgs arg .closeBracket .listClosing

/-- Reads an operand in which at most `depth` lists and states may be nested. -/
def readOperand (limit depth : Nat) : Indexed Operand := do
  let here ← current
  match here.token with
  | .allWord =>
    skip
    .all <$> readCallName .allName
  | .typeWord =>
    skip
    .type <$> readCallName .typeName
  | .openBracket =>
    skip
    match depth with
    | 0 => throw (.nestingTooDeep limit here.position)
    | depth + 1 => .list <$> readListItems (readArg limit depth)
  | _ =>
    let arg ← readArg limit depth
    if arg.continuation?.isSome then throw (.invalidContinuation .outsideList here.position)
    return .value arg

/-- Reads one operand, or two with a comparison between them. -/
def readPredicate (limit depth : Nat) : Indexed Predicate := do
  let position := (← current).position
  let left ← readOperand limit depth
  match Comparison.ofToken? (← current).token with
  | some op =>
    skip
    let right ← readOperand limit depth
    return .compare left op right position
  | none => return .bare left position

/-- Reads the rest of a chain, in at most so many steps; the parts before `last` are held from right
to left. -/
def moreChain (item : Indexed Condition) :
    (steps : Nat) → Condition → List (Condition × Connective) → Indexed Condition
  | 0, _, _ => crash
  | steps + 1, last, before => do
    match Connective.ofToken? (← current).token with
    | some op =>
      skip
      let next ← item
      moreChain item steps next ((last, op) :: before)
    | none => return nestRight last before

/-- Reads parts joined by connectives. -/
def readChain (item : Indexed Condition) : Indexed Condition := do
  let first ← item
  moreChain item (← get).tokens.length first []

/-- Reads a group or a predicate, given how the inside of a group that opens at a position is
read. -/
def readItem (limit depth : Nat) (inside : Nat → Indexed Condition) : Indexed Condition := do
  let position := (← current).position
  if ← accept .openParen then
    let inner ← inside position
    expect .closeParen .groupClosing
    return .group inner
  else
    return .atom (← readPredicate limit depth)

/-- Reads a condition in which at most `depth` groups, lists and states may be nested. -/
def readCondition (limit : Nat) : (depth : Nat) → Indexed Condition
  | 0 => readChain (readItem limit 0 fun position => throw (.nestingTooDeep limit position))
  | depth + 1 => readChain (readItem limit (depth + 1) fun _ => readCondition limit depth)

/-- Reads the condition before a rule, if there is one. -/
def readGuard (limit : Nat) : Indexed (Option Condition) := do
  if ← accept .ifWord then
    expect .openParen .conditionOpening
    let condition ← readCondition limit limit
    expect .closeParen .conditionClosing
    expect .colon .conditionColon
    return some condition
  else
    return none

/-- Reads a rule. -/
def readRule (limit : Nat) : Indexed Rule := do
  let position := (← current).position
  let condition ← readGuard limit
  let intention ← readAction limit
  expect .causes .causesSign
  let effects ← separated .comma (readAction limit)
  return { condition, intention, effects, position }

/-- Reads the rules after the first, in at most so many steps; the rules read so far are held in
reverse. -/
def moreRules (limit : Nat) : (steps : Nat) → List Rule → Indexed (List Rule)
  | 0, _ => crash
  | steps + 1, found => do
    if ← accept .semicolon then
      if (← current).token = .closeBrace then
        return found.reverse
      else
        let rule ← readRule limit
        moreRules limit steps (rule :: found)
    else
      return found.reverse

/-- Reads `RULES` and the rules between braces. -/
def readRules (limit : Nat) : Indexed (List Rule) := do
  expect .rulesWord .rulesWord
  expect .openBrace .openBrace
  if (← current).token = .closeBrace then unexpected .oneRule
  let first ← readRule limit
  let rules ← moreRules limit (← get).tokens.length [first]
  expect .closeBrace .ruleEnd
  return rules

/-- Reads a program, after which nothing may follow. -/
def readProgram (limit : Nat) : Indexed Program := do
  let rules ← readRules limit
  let here ← current
  if here.token = .endOfInput then
    return ⟨rules⟩
  else
    throw (.trailingInput here.position)

end Indexed

/-- The program that a text spells, within limits. -/
def readBytes (limits : Limits) (text : String) : Checked ReadError Program :=
  if limits.maxInputBytes < text.utf8ByteSize then
    throw (.inputTooLarge limits.maxInputBytes text.utf8ByteSize)
  else do
    let tokens ← tokenizeBytes text
    (Indexed.readProgram limits.maxNesting).run' ⟨tokens, 0⟩

namespace Indexed

/-! ## Readers that do not crash -/

/-- The last token is the end of the input. -/
def Ended (tokens : List Located) : Prop :=
  ∃ body e, tokens = body ++ [⟨.endOfInput, e⟩]

/-- From an index of tokens that end with the end of the input, an indexed reader does what a reader
of the model does with the tokens from there on: it has the same result and comes to an index of the
tokens that are left, or it fails with the same error. -/
def Follows (tokens : List Located) (i : Nat) (r : Indexed α) (r' : Reader α) : Prop :=
  Ended tokens → i < tokens.length →
    match r'.run (tokens.drop i) with
    | .ok (a, rest) => ∃ j, i ≤ j ∧ j < tokens.length ∧ rest = tokens.drop j ∧
        r.run ⟨tokens, i⟩ = pure (a, ⟨tokens, j⟩)
    | .error e => r.run ⟨tokens, i⟩ = throw e

variable {tokens : List Located} {i : Nat}

/-- A token that is not the end of the input is not the last one. -/
theorem Ended.lt {t : Located} (h : Ended tokens) (hi : tokens[i]? = some t)
    (ht : t.token ≠ .endOfInput) : i + 1 < tokens.length := by
  obtain ⟨body, e, rfl⟩ := h
  have hlt := (List.getElem?_eq_some_iff.mp hi).1
  rw [List.length_append, List.length_singleton] at hlt ⊢
  by_contra hlast
  obtain rfl : i = body.length := by omega
  rw [List.getElem?_concat_length, Option.some.injEq] at hi
  exact ht (hi ▸ rfl)

theorem follows_pure (a : α) : Follows tokens i (pure a) (pure a) := fun _ hi =>
  ⟨i, Nat.le_refl i, hi, rfl, rfl⟩

theorem follows_throw (e : ReadError) : Follows tokens i (throw e : Indexed α) (throw e) :=
  fun _ _ => rfl

/-- A reader that comes from one index to another goes on from there. -/
theorem follows_run {r : Indexed α} {r' : Reader α} {k : α → Indexed β} {k' : α → Reader β} {a : α}
    {j : Nat} (hr : r.run ⟨tokens, i⟩ = pure (a, ⟨tokens, j⟩))
    (hr' : r'.run (tokens.drop i) = .ok (a, tokens.drop j)) (hij : i ≤ j) (hj : j < tokens.length)
    (hk : Follows tokens j (k a) (k' a)) : Follows tokens i (r >>= k) (r' >>= k') := by
  intro hend _
  have hnext := hk hend hj
  have hrun : (r >>= k).run ⟨tokens, i⟩ = (k a).run ⟨tokens, j⟩ := by
    rw [StateT.run_bind, hr, pure_bind]
  have hrun' : (r' >>= k').run (tokens.drop i) = (k' a).run (tokens.drop j) := by
    rw [StateT.run_bind, hr']
    rfl
  rw [hrun, hrun']
  split at hnext
  · obtain ⟨n, hjn, hn, hrest, hk⟩ := hnext
    exact ⟨n, Nat.le_trans hij hjn, hn, hrest, hk⟩
  · exact hnext

theorem follows_bind {r : Indexed α} {r' : Reader α} {k : α → Indexed β} {k' : α → Reader β}
    (h : Follows tokens i r r') (hk : ∀ a j, i ≤ j → Follows tokens j (k a) (k' a)) :
    Follows tokens i (r >>= k) (r' >>= k') := by
  intro hend hi
  have hr := h hend hi
  cases hrun : r'.run (tokens.drop i) with
  | error e =>
    rw [hrun] at hr
    rw [StateT.run_bind, StateT.run_bind, hrun]
    show _ = _
    rw [hr]
    rfl
  | ok x =>
    obtain ⟨a, rest⟩ := x
    rw [hrun] at hr
    obtain ⟨j, hij, hj, rfl, hr⟩ := hr
    exact follows_run hr hrun hij hj (hk a j hij) hend hi

theorem follows_map {r : Indexed α} {r' : Reader α} (f : α → β) (h : Follows tokens i r r') :
    Follows tokens i (f <$> r) (f <$> r') := by
  rw [map_eq_pure_bind, map_eq_pure_bind]
  exact follows_bind h fun a _ _ => follows_pure (f a)

/-- A step that takes no token. -/
theorem follows_checked (x : Except ReadError α) :
    Follows tokens i (monadLift (checked x) : Indexed α) (monadLift x) := by
  cases x with
  | error e => exact follows_throw e
  | ok a => exact follows_pure a

/-- The tokens that are left are as many as there are after the index. -/
theorem follows_get {k : Place → Indexed β} {k' : List Located → Reader β}
    (hk : Follows tokens i (k ⟨tokens, i⟩) (k' (tokens.drop i))) :
    Follows tokens i (get >>= k) (get >>= k') := hk

theorem run_current (hi : i < tokens.length) :
    current.run ⟨tokens, i⟩ = pure (tokens[i], ⟨tokens, i⟩) := by
  show ((match tokens[i]? with
    | some here => pure here
    | none => crash : Indexed Located).run ⟨tokens, i⟩) = _
  rw [List.getElem?_eq_getElem hi]
  rfl

/-- The token at the index is the first one of those that are left. -/
theorem follows_current {k : Located → Indexed β} {k' : Located → Reader β}
    (hk : ∀ here, tokens[i]? = some here → Follows tokens i (k here) (k' here)) :
    Follows tokens i (current >>= k) (Reader.current >>= k') := by
  intro hend hi
  have hdrop : (tokens.drop i).headD ⟨.endOfInput, 0⟩ = tokens[i] := by
    rw [List.drop_eq_getElem_cons hi, List.headD_cons]
  have hrun' : Reader.current.run (tokens.drop i) = .ok (tokens[i], tokens.drop i) :=
    congrArg (fun here => Except.ok (here, tokens.drop i)) hdrop
  have hnext := hk tokens[i] (List.getElem?_eq_getElem hi)
  exact follows_run (run_current hi) hrun' (Nat.le_refl i) hi hnext hend hi

/-- A token that is not the end of the input is passed over, and is not the last one. -/
theorem run_skip {t : Located} (hend : Ended tokens) (hi : tokens[i]? = some t)
    (ht : t.token ≠ .endOfInput) : skip.run ⟨tokens, i⟩ = pure ((), ⟨tokens, i + 1⟩) := by
  show ((if i + 1 < tokens.length then set (⟨tokens, i + 1⟩ : Place)
    else crash : Indexed Unit).run ⟨tokens, i⟩) = _
  rw [if_pos (hend.lt hi ht)]
  rfl

theorem follows_skip {t : Located} {k : Unit → Indexed β} {k' : Unit → Reader β}
    (hi : tokens[i]? = some t) (ht : t.token ≠ .endOfInput)
    (hk : Follows tokens (i + 1) (k ()) (k' ())) :
    Follows tokens i (skip >>= k) (Reader.skip >>= k') := by
  intro hend
  have hrun' : Reader.skip.run (tokens.drop i) = .ok ((), tokens.drop (i + 1)) :=
    congrArg (fun rest => Except.ok ((), rest)) List.tail_drop
  exact follows_run (run_skip hend hi ht) hrun' (Nat.le_succ i) (hend.lt hi ht) hk hend

theorem follows_unexpected (expected : Expected) :
    Follows tokens i (unexpected expected : Indexed α) (Reader.unexpected expected) :=
  follows_current fun _ _ => follows_throw _

/-- Only a token that stands first is passed over. -/
theorem follows_accept {token : Token} {k : Bool → Indexed β} {k' : Bool → Reader β}
    (ht : token ≠ .endOfInput) (htrue : Follows tokens (i + 1) (k true) (k' true))
    (hfalse : Follows tokens i (k false) (k' false)) :
    Follows tokens i (accept token >>= k) (Reader.accept token >>= k') := by
  rw [accept, Reader.accept, bind_assoc, bind_assoc]
  refine follows_current fun here hi => ?_
  by_cases hhere : here.token = token
  · rw [if_pos hhere, if_pos hhere, bind_assoc, bind_assoc]
    exact follows_skip hi (hhere ▸ ht) htrue
  · rw [if_neg hhere, if_neg hhere]
    exact hfalse

theorem follows_expect {token : Token} (expected : Expected) (ht : token ≠ .endOfInput) :
    Follows tokens i (expect token expected) (Reader.expect token expected) :=
  follows_accept ht (follows_pure ()) (follows_unexpected expected)

/-- Each separator is one of the tokens, so that neither the steps nor the bound are ever used up. -/
theorem follows_moreItems {separator : Token} {item : Indexed α} {item' : Reader α} {steps : Nat}
    {bound : List Located} {found : List α} (ht : separator ≠ .endOfInput)
    (hitem : ∀ j, Follows tokens j item item') (hsteps : tokens.length ≤ i + steps)
    (hbound : tokens.length ≤ i + bound.length) :
    Follows tokens i (moreItems separator item steps found)
      (Reader.moreItems separator item' bound found) := by
  induction steps generalizing i bound found with
  | zero => exact fun _ hi => (Nat.not_lt.mpr hsteps hi).elim
  | succ steps ih =>
    cases bound with
    | nil => exact fun _ hi => (Nat.not_lt.mpr hbound hi).elim
    | cons t bound =>
      rw [List.length_cons] at hbound
      refine follows_accept ht ?_ (follows_pure _)
      refine follows_bind (hitem _) fun next j hj => ?_
      exact ih (by omega) (by omega)

theorem follows_separated {separator : Token} {item : Indexed α} {item' : Reader α}
    (ht : separator ≠ .endOfInput) (hitem : ∀ j, Follows tokens j item item') :
    Follows tokens i (separated separator item) (Reader.separated separator item') := by
  refine follows_bind (hitem i) fun first j _ => follows_get ?_
  refine follows_moreItems ht hitem (Nat.le_add_left ..) ?_
  rw [List.length_drop]
  omega

/-! ## The readers of the grammar -/

theorem follows_readWhole : Follows tokens i readWhole CausalRules.readWhole := by
  refine follows_current fun here hi => ?_
  cases hhere : here.token
  case digits run => exact follows_skip hi (by simp [hhere]) (follows_pure run)
  case dot => exact follows_pure ""
  all_goals exact follows_unexpected _

theorem follows_readFraction : Follows tokens i readFraction CausalRules.readFraction := by
  refine follows_accept nofun (follows_current fun here hi => ?_) (follows_pure none)
  cases hhere : here.token
  case digits run => exact follows_skip hi (by simp [hhere]) (follows_pure (some run))
  all_goals exact follows_unexpected _

theorem follows_readNumber : Follows tokens i readNumber CausalRules.readNumber := by
  have hrest (negative : Bool) (j : Nat) := follows_bind (@follows_readWhole tokens j)
    fun whole _ _ => follows_bind follows_readFraction
      fun fraction _ _ => follows_pure (Number.mk negative whole fraction)
  exact follows_accept nofun (hrest true _) (hrest false _)

theorem follows_readLiteralText : Follows tokens i readLiteralText CausalRules.readLiteralText := by
  refine follows_current fun here hi => ?_
  cases hhere : here.token
  case ident name => exact follows_skip hi (by simp [hhere]) (follows_pure (literalText name))
  case digits | dot | minus => exact follows_map _ follows_readNumber
  all_goals exact follows_unexpected _

theorem follows_readLiteral : Follows tokens i readLiteral CausalRules.readLiteral :=
  follows_bind follows_readLiteralText fun _ _ _ =>
    follows_bind (follows_expect _ nofun) fun _ _ _ => follows_pure _

theorem follows_readPlainArg : Follows tokens i readPlainArg CausalRules.readPlainArg := by
  refine follows_current fun here hi => ?_
  cases hhere : here.token
  case digits | dot | minus => exact follows_map _ follows_readNumber
  case ident name => exact follows_skip hi (by simp [hhere]) (follows_pure _)
  case continuation suffix =>
    have ht : here.token ≠ .endOfInput := by simp [hhere]
    dsimp only
    cases continuationOffset suffix with
    | ok offset => exact follows_skip hi ht (follows_pure _)
    | error fault =>
      -- The model refuses the marker without passing it.
      intro hend _
      show (skip >>= fun _ => throw _ : Indexed Arg).run ⟨tokens, i⟩ = throw _
      rw [StateT.run_bind, run_skip hend hi ht]
      rfl
  case python code => exact follows_skip hi (by simp [hhere]) (follows_pure _)
  all_goals exact follows_unexpected _

theorem follows_readArgs {arg : Indexed Arg} {arg' : Reader Arg} {closing : Token}
    (expected : Expected) (ht : closing ≠ .endOfInput) (harg : ∀ j, Follows tokens j arg arg') :
    Follows tokens i (readArgs arg closing expected) (CausalRules.readArgs arg' closing expected) := by
  refine follows_bind (follows_separated nofun fun j => ?_) fun args _ _ => ?_
  · exact follows_current fun here _ => follows_bind (harg j) fun a _ _ => follows_pure _
  · refine follows_bind (follows_expect expected ht) fun _ _ _ => ?_
    exact follows_bind (follows_checked _) fun _ _ _ => follows_pure _

theorem follows_readArgWith {stateArgs : Nat → Indexed (List Arg)}
    {stateArgs' : Nat → Reader (List Arg)}
    (h : ∀ position j, Follows tokens j (stateArgs position) (stateArgs' position)) :
    Follows tokens i (readArgWith stateArgs) (CausalRules.readArgWith stateArgs') := by
  refine follows_current fun here hi => ?_
  cases hhere : here.token
  case quote => exact follows_skip hi (by simp [hhere]) follows_readLiteral
  case stateWord =>
    refine follows_skip hi (by simp [hhere]) (follows_bind (follows_expect _ nofun) fun _ j _ => ?_)
    exact follows_map _ (h here.position j)
  all_goals exact follows_readPlainArg

theorem follows_readArg (limit depth : Nat) :
    Follows tokens i (readArg limit depth) (CausalRules.readArg limit depth) := by
  induction depth generalizing i with
  | zero => exact follows_readArgWith fun position _ => follows_throw _
  | succ depth ih => exact follows_readArgWith fun _ _ => follows_readArgs _ nofun fun _ => ih

theorem follows_readAction (limit : Nat) :
    Follows tokens i (readAction limit) (CausalRules.readAction limit) := by
  refine follows_current fun here hi => ?_
  cases hhere : here.token
  case ident name =>
    refine follows_skip hi (by simp [hhere]) (follows_bind (follows_expect _ nofun) fun _ _ _ => ?_)
    refine follows_accept nofun (follows_pure _) ?_
    exact follows_bind (follows_readArgs _ nofun fun _ => follows_readArg limit limit)
      fun _ _ _ => follows_pure _
  all_goals exact follows_unexpected _

theorem follows_readCallName (expected : Expected) :
    Follows tokens i (readCallName expected) (CausalRules.readCallName expected) := by
  refine follows_bind (follows_expect _ nofun) fun _ _ _ => follows_current fun here hi => ?_
  cases hhere : here.token
  case ident name =>
    refine follows_skip hi (by simp [hhere]) ?_
    exact follows_bind (follows_expect _ nofun) fun _ _ _ => follows_pure name
  all_goals exact follows_unexpected _

theorem follows_readListItems {arg : Indexed Arg} {arg' : Reader Arg}
    (harg : ∀ j, Follows tokens j arg arg') :
    Follows tokens i (readListItems arg) (CausalRules.readListItems arg') :=
  follows_accept nofun (follows_pure []) (follows_readArgs _ nofun harg)

theorem follows_readOperand (limit depth : Nat) :
    Follows tokens i (readOperand limit depth) (CausalRules.readOperand limit depth) := by
  refine follows_current fun here hi => ?_
  cases hhere : here.token
  case allWord =>
    exact follows_skip hi (by simp [hhere]) (follows_map _ (follows_readCallName _))
  case typeWord =>
    exact follows_skip hi (by simp [hhere]) (follows_map _ (follows_readCallName _))
  case openBracket =>
    refine follows_skip hi (by simp [hhere]) ?_
    cases depth with
    | zero => exact follows_throw _
    | succ depth =>
      exact follows_map _ (follows_readListItems fun _ => follows_readArg limit depth)
  all_goals
    refine follows_bind (follows_readArg limit depth) fun arg _ _ => ?_
    cases arg.continuation?.isSome with
    | true => exact follows_throw _
    | false => exact follows_pure _

theorem follows_readPredicate (limit depth : Nat) :
    Follows tokens i (readPredicate limit depth) (CausalRules.readPredicate limit depth) := by
  refine follows_current fun start _ => ?_
  refine follows_bind (follows_readOperand limit depth) fun left j _ => ?_
  refine follows_current fun here hi => ?_
  cases hop : Comparison.ofToken? here.token with
  | none => exact follows_pure _
  | some op =>
    have ht : here.token ≠ .endOfInput := by
      intro h
      rw [h] at hop
      cases hop
    refine follows_skip hi ht ?_
    exact follows_bind (follows_readOperand limit depth) fun right _ _ => follows_pure _

/-- Each connective is one of the tokens. -/
theorem follows_moreChain {item : Indexed Condition} {item' : Reader Condition} {steps : Nat}
    {bound : List Located} {last : Condition} {before : List (Condition × Connective)}
    (hitem : ∀ j, Follows tokens j item item') (hsteps : tokens.length ≤ i + steps)
    (hbound : tokens.length ≤ i + bound.length) :
    Follows tokens i (moreChain item steps last before)
      (CausalRules.moreChain item' bound last before) := by
  induction steps generalizing i bound last before with
  | zero => exact fun _ hi => (Nat.not_lt.mpr hsteps hi).elim
  | succ steps ih =>
    cases bound with
    | nil => exact fun _ hi => (Nat.not_lt.mpr hbound hi).elim
    | cons t bound =>
      rw [List.length_cons] at hbound
      refine follows_current fun here hi => ?_
      cases hop : Connective.ofToken? here.token with
      | none => exact follows_pure _
      | some op =>
        have ht : here.token ≠ .endOfInput := by
          intro h
          rw [h] at hop
          cases hop
        refine follows_skip hi ht (follows_bind (hitem _) fun next j hj => ?_)
        exact ih (by omega) (by omega)

theorem follows_readChain {item : Indexed Condition} {item' : Reader Condition}
    (hitem : ∀ j, Follows tokens j item item') :
    Follows tokens i (readChain item) (CausalRules.readChain item') := by
  refine follows_bind (hitem i) fun first j _ => follows_get ?_
  refine follows_moreChain hitem (Nat.le_add_left ..) ?_
  rw [List.length_drop]
  omega

theorem follows_readItem (limit depth : Nat) {inside : Nat → Indexed Condition}
    {inside' : Nat → Reader Condition}
    (h : ∀ position j, Follows tokens j (inside position) (inside' position)) :
    Follows tokens i (readItem limit depth inside) (CausalRules.readItem limit depth inside') := by
  refine follows_current fun here _ => follows_accept nofun ?_ ?_
  · refine follows_bind (h here.position _) fun inner _ _ => ?_
    exact follows_bind (follows_expect _ nofun) fun _ _ _ => follows_pure _
  · exact follows_bind (follows_readPredicate limit depth) fun predicate _ _ => follows_pure _

theorem follows_readCondition (limit depth : Nat) :
    Follows tokens i (readCondition limit depth) (CausalRules.readCondition limit depth) := by
  induction depth generalizing i with
  | zero => exact follows_readChain fun _ => follows_readItem limit 0 fun _ _ => follows_throw _
  | succ depth ih =>
    exact follows_readChain fun _ => follows_readItem limit (depth + 1) fun _ _ => ih

theorem follows_readGuard (limit : Nat) :
    Follows tokens i (readGuard limit) (CausalRules.readGuard limit) := by
  refine follows_accept nofun ?_ (follows_pure none)
  refine follows_bind (follows_expect _ nofun) fun _ _ _ => ?_
  refine follows_bind (follows_readCondition limit limit) fun condition _ _ => ?_
  refine follows_bind (follows_expect _ nofun) fun _ _ _ => ?_
  exact follows_bind (follows_expect _ nofun) fun _ _ _ => follows_pure (some condition)

theorem follows_readRule (limit : Nat) :
    Follows tokens i (readRule limit) (CausalRules.readRule limit) := by
  refine follows_current fun here _ => ?_
  refine follows_bind (follows_readGuard limit) fun condition _ _ => ?_
  refine follows_bind (follows_readAction limit) fun intention _ _ => ?_
  refine follows_bind (follows_expect _ nofun) fun _ _ _ => ?_
  exact follows_bind (follows_separated nofun fun _ => follows_readAction limit)
    fun effects _ _ => follows_pure _

/-- Each semicolon is one of the tokens. -/
theorem follows_moreRules {limit steps : Nat} {bound : List Located} {found : List Rule}
    (hsteps : tokens.length ≤ i + steps) (hbound : tokens.length ≤ i + bound.length) :
    Follows tokens i (moreRules limit steps found) (CausalRules.moreRules limit bound found) := by
  induction steps generalizing i bound found with
  | zero => exact fun _ hi => (Nat.not_lt.mpr hsteps hi).elim
  | succ steps ih =>
    cases bound with
    | nil => exact fun _ hi => (Nat.not_lt.mpr hbound hi).elim
    | cons t bound =>
      rw [List.length_cons] at hbound
      refine follows_accept nofun (follows_current fun here _ => ?_) (follows_pure _)
      by_cases hclosing : here.token = .closeBrace
      · rw [if_pos hclosing, if_pos hclosing]
        exact follows_pure _
      · rw [if_neg hclosing, if_neg hclosing]
        refine follows_bind (follows_readRule limit) fun rule j hj => ?_
        exact ih (by omega) (by omega)

/-- The rules between the braces, the first of which is no closing brace. -/
theorem follows_rules (limit : Nat) :
    Follows tokens i
      (do
        let first ← readRule limit
        let rules ← moreRules limit (← get).tokens.length [first]
        expect .closeBrace .ruleEnd
        return rules)
      (do
        let first ← CausalRules.readRule limit
        let rules ← CausalRules.moreRules limit (← get) [first]
        Reader.expect .closeBrace .ruleEnd
        return rules) := by
  refine follows_bind (follows_readRule limit) fun first j _ => follows_get ?_
  have hbound : tokens.length ≤ j + (tokens.drop j).length := by
    rw [List.length_drop]
    omega
  refine follows_bind (follows_moreRules (Nat.le_add_left ..) hbound) fun rules _ _ => ?_
  exact follows_bind (follows_expect _ nofun) fun _ _ _ => follows_pure rules

theorem follows_readRules (limit : Nat) :
    Follows tokens i (readRules limit) (CausalRules.readRules limit) := by
  refine follows_bind (follows_expect _ nofun) fun _ _ _ => ?_
  refine follows_bind (follows_expect _ nofun) fun _ _ _ => follows_current fun here _ => ?_
  by_cases hclosing : here.token = .closeBrace
  · rw [if_pos hclosing, if_pos hclosing]
    exact follows_bind (follows_unexpected .oneRule) fun _ _ _ => follows_rules limit
  · rw [if_neg hclosing, if_neg hclosing]
    exact follows_rules limit

theorem follows_readProgram (limit : Nat) :
    Follows tokens i (readProgram limit) (CausalRules.readProgram limit) := by
  refine follows_bind (follows_readRules limit) fun rules _ _ => follows_current fun here _ => ?_
  by_cases hlast : here.token = .endOfInput
  · rw [if_pos hlast, if_pos hlast]
    exact follows_pure _
  · rw [if_neg hlast, if_neg hlast]
    exact follows_throw _

/-- From the first token on nothing else happens. -/
theorem run'_eq {r : Indexed α} {r' : Reader α} (hend : Ended tokens)
    (h : Follows tokens 0 r r') : r.run' ⟨tokens, 0⟩ = checked (r'.run' tokens) := by
  have hpos : 0 < tokens.length := by
    obtain ⟨body, e, rfl⟩ := hend
    simp
  have hrun := h hend hpos
  show Prod.fst <$> r.run ⟨tokens, 0⟩ = checked (Prod.fst <$> r'.run tokens)
  rw [List.drop_zero] at hrun
  split at hrun
  · rename_i hok
    obtain ⟨j, -, -, -, hrun⟩ := hrun
    rw [hrun, hok]
    rfl
  · rename_i herror
    rw [hrun, herror]
    rfl

end Indexed

/-- No text crashes the reader, which finds the program of the model or its error. -/
theorem readBytes_eq (limits : Limits) (text : String) :
    readBytes limits text = checked (Program.read limits text) := by
  unfold readBytes Program.read
  split
  · rfl
  · rw [tokenizeBytes_eq]
    refine bind_checked fun tokens htokens => ?_
    obtain ⟨body, e, htokens, -⟩ := tokenize_ends htokens
    exact Indexed.run'_eq ⟨body, e, htokens⟩ (Indexed.follows_readProgram limits.maxNesting)

end CausalRules.Safety
