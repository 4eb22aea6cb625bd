import CausalRules.Proofs.Meaning
import CausalRules.Token

/-!
# Nesting

Groups, states and lists may stand inside one another. In a program they are counted in the order in
which they open, each with the number of those that are open then; in a text they are opened by
certain tokens, in the same order.

- `Arg.depths`, `Condition.depths`, `Program.depths`: the depths of what opens, in order.
- `Program.nesting`: the largest number of groups, states and lists that are open at the same time.
- `Climbs`: depths go up one by one.
- `Token.opens`, `openings`: which tokens open something, and where they stand.
- `firstBeyond`: the offset of the first opening that is deeper than a limit.
-/

namespace CausalRules

/-! ## Depths in a program -/

/-- The depths inside something that opens, with its own. -/
def enclose (inside : List Nat) : List Nat :=
  1 :: inside.map (· + 1)

mutual

/-- The depths of the states in an argument, in the order in which they open. -/
def Arg.depths : Arg → List Nat
  | .state args => enclose (argsDepths args)
  | _ => []

/-- The depths of the states in some arguments. -/
def argsDepths : List Arg → List Nat
  | [] => []
  | arg :: args => arg.depths ++ argsDepths args

end

/-- The depths of the lists and states in an operand. -/
def Operand.depths : Operand → List Nat
  | .value arg => arg.depths
  | .list items => enclose (argsDepths items)
  | .all _ | .type _ => []

/-- The depths of the lists and states in a predicate. -/
def Predicate.depths (test : Predicate) : List Nat :=
  test.operands.flatMap Operand.depths

/-- The depths of the groups, lists and states in a condition. -/
def Condition.depths : Condition → List Nat
  | .atom test => test.depths
  | .group inner => enclose (Condition.depths inner)
  | .chain left _ right => Condition.depths left ++ Condition.depths right

/-- The depths of the states in an action. -/
def Action.depths (action : Action) : List Nat :=
  argsDepths action.args

/-- The depths of the groups, lists and states in a rule. -/
def Rule.depths (rule : Rule) : List Nat :=
  rule.condition.elim [] Condition.depths ++
    (rule.intention.depths ++ rule.effects.flatMap Action.depths)

/-- The depths of the groups, lists and states in a program, in the order in which they open. -/
def Program.depths (program : Program) : List Nat :=
  program.rules.flatMap Rule.depths

/-- The largest number of groups, states and lists that are open at the same time. -/
def Program.nesting (program : Program) : Nat :=
  program.depths.foldr max 0

theorem argsDepths_eq_flatMap (args : List Arg) : argsDepths args = args.flatMap Arg.depths := by
  induction args with
  | nil => rfl
  | cons arg args ih => rw [argsDepths, ih, List.flatMap_cons]

theorem Program.nesting_le_iff {program : Program} {n : Nat} :
    program.nesting ≤ n ↔ ∀ depth ∈ program.depths, depth ≤ n := by
  unfold nesting
  induction program.depths with
  | nil => simp
  | cons depth depths ih => rw [List.foldr_cons, Nat.max_le, ih, List.forall_mem_cons]

/-! ## Depths go up one by one -/

/-- The first depth beyond a limit is one more than the limit. -/
def Climbs (depths : List Nat) : Prop :=
  ∀ n depth, depths.find? (n < ·) = some depth → depth = n + 1

section Climbs

variable {α : Type} {depths more : List Nat}

theorem climbs_nil : Climbs [] :=
  nofun

theorem Climbs.append (h : Climbs depths) (h' : Climbs more) : Climbs (depths ++ more) := by
  intro n depth hfind
  rw [List.find?_append, Option.or_eq_some_iff] at hfind
  rcases hfind with hfind | ⟨-, hfind⟩
  · exact h n depth hfind
  · exact h' n depth hfind

theorem climbs_flatMap {f : α → List Nat} {as : List α} (h : ∀ a ∈ as, Climbs (f a)) :
    Climbs (as.flatMap f) := by
  induction as with
  | nil => exact climbs_nil
  | cons a as ih =>
    obtain ⟨ha, has⟩ := List.forall_mem_cons.mp h
    rw [List.flatMap_cons]
    exact ha.append (ih has)

theorem Climbs.enclose (h : Climbs depths) : Climbs (enclose depths) := by
  intro n depth hfind
  cases n with
  | zero => simpa [CausalRules.enclose] using hfind.symm
  | succ n =>
    have hinside : (depths.find? (n < ·)).map (· + 1) = some depth := by
      simpa [CausalRules.enclose, List.find?_map, Function.comp_def] using hfind
    obtain ⟨inside, hfound, rfl⟩ := Option.map_eq_some_iff.mp hinside
    rw [h n inside hfound]

theorem Arg.climbs : (arg : Arg) → Climbs arg.depths
  | .state args => by
    rw [Arg.depths, argsDepths_eq_flatMap]
    exact (climbs_flatMap fun arg _ => arg.climbs).enclose
  | .variable _ | .literal _ | .number _ | .continuation _ | .python _ => by
    rw [Arg.depths]
    · exact climbs_nil
    · exact nofun

theorem climbs_argsDepths (args : List Arg) : Climbs (argsDepths args) := by
  rw [argsDepths_eq_flatMap]
  exact climbs_flatMap fun arg _ => arg.climbs

theorem Operand.climbs (operand : Operand) : Climbs operand.depths := by
  cases operand with
  | value arg => exact arg.climbs
  | list items => exact (climbs_argsDepths items).enclose
  | all | type => exact climbs_nil

theorem Condition.climbs (c : Condition) : Climbs (Condition.depths c) := by
  induction c with
  | atom test => exact climbs_flatMap fun operand _ => operand.climbs
  | group inner ih => exact ih.enclose
  | chain left op right ihleft ihright => exact ihleft.append ihright

theorem Rule.climbs (rule : Rule) : Climbs rule.depths := by
  refine Climbs.append ?_ ((climbs_argsDepths _).append ?_)
  · cases rule.condition with
    | none => exact climbs_nil
    | some c => exact Condition.climbs c
  · exact climbs_flatMap fun effect _ => climbs_argsDepths effect.args

theorem Program.climbs (program : Program) : Climbs program.depths :=
  climbs_flatMap fun rule _ => rule.climbs

end Climbs

/-! ## Openings in a text -/

/-- Words with a parenthesis of their own after them. -/
def Token.isCalled : Token → Bool
  | .ident _ | .allWord | .typeWord | .stateWord | .ifWord => true
  | _ => false

/-- Whether a token that comes after another one opens a group, a state or a list. -/
def Token.opens : (token previous : Token) → Bool
  | .openBracket, _ | .stateWord, _ => true
  | .openParen, previous => !previous.isCalled
  | _, _ => false

/-- The offsets of the tokens that open something, after a token. -/
def openingsAfter (previous : Token) : List Located → List Nat
  | [] => []
  | t :: rest =>
    if t.token.opens previous then t.position :: openingsAfter t.token rest
    else openingsAfter t.token rest

/-- The offsets of the tokens of a text that open a group, a state or a list. -/
def openings (tokens : List Located) : List Nat :=
  openingsAfter .endOfInput tokens

/-- The last of some tokens, or the token before them. -/
def lastToken (previous : Token) (s : List Located) : Token :=
  s.foldl (fun _ t => t.token) previous

theorem openingsAfter_append (previous : Token) (s u : List Located) :
    openingsAfter previous (s ++ u) =
      openingsAfter previous s ++ openingsAfter (lastToken previous s) u := by
  induction s generalizing previous with
  | nil => rfl
  | cons t s ih =>
    rw [List.cons_append, openingsAfter, openingsAfter, ih]
    split
    · rfl
    · rfl

/-- The offset of the first opening that is deeper than a limit. -/
def firstBeyond (limit : Nat) (depths offsets : List Nat) : Option Nat :=
  ((depths.zip offsets).find? (limit < ·.1)).map Prod.snd

section FirstBeyond

variable {limit position : Nat} {depths more offsets others : List Nat}

theorem firstBeyond_append (h : depths.length = offsets.length) :
    firstBeyond limit (depths ++ more) (offsets ++ others) =
      (firstBeyond limit depths offsets).or (firstBeyond limit more others) := by
  rw [firstBeyond, List.zip_append h, List.find?_append, Option.map_or]
  rfl

/-- What encloses others is beyond a limit of none. -/
theorem firstBeyond_enclose_zero :
    firstBeyond 0 (enclose depths) (position :: offsets) = some position :=
  rfl

/-- Inside something that opens, one less may open. -/
theorem firstBeyond_enclose_succ :
    firstBeyond (limit + 1) (enclose depths) (position :: offsets) =
      firstBeyond limit depths offsets := by
  simp [firstBeyond, enclose, List.zip_map_left, List.find?_map, Function.comp_def]

theorem firstBeyond_eq_none_iff (h : depths.length = offsets.length) :
    firstBeyond limit depths offsets = none ↔ ∀ depth ∈ depths, depth ≤ limit := by
  have hzip := List.forall_mem_map (f := Prod.fst) (P := (· ≤ limit)) (l := depths.zip offsets)
  rw [List.map_fst_zip (Nat.le_of_eq h)] at hzip
  rw [firstBeyond, Option.map_eq_none_iff, List.find?_eq_none, hzip]
  simp only [decide_eq_true_eq, Nat.not_lt]

/-- Where depths go up one by one, the first that is beyond the limit is one more. -/
theorem find?_zip_of_firstBeyond (hclimbs : Climbs depths) (h : depths.length = offsets.length)
    (hfirst : firstBeyond limit depths offsets = some position) :
    (depths.zip offsets).find? (limit < ·.1) = some (limit + 1, position) := by
  obtain ⟨⟨depth, offset⟩, hfind, rfl⟩ := Option.map_eq_some_iff.mp hfirst
  have hdepth : depths.find? (limit < ·) = some depth := by
    rw [← List.map_fst_zip (Nat.le_of_eq h), List.find?_map]
    exact congrArg (Option.map Prod.fst) hfind
  rw [hfind, hclimbs limit depth hdepth]

end FirstBeyond

end CausalRules
