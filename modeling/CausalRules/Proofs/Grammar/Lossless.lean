import CausalRules.Proofs.Grammar.Canonical
import CausalRules.Proofs.Grammar.Soundness
import CausalRules.Proofs.Layout
import CausalRules.Proofs.Rule

/-!
# Reading loses nothing

What a text spells determines its tokens, up to the choices that `canonical` makes. So two texts that
are read as the same program, offsets aside, have the same canonical tokens.

- `spelling`: the canonical tokens of located ones.
- `spelling_of_spellsArg`, `spelling_of_spellsCondition`, `spelling_of_spellsRule`,
  `spelling_of_spellsProgram`: the spelling of each part of a program is given by what it spells.
- `Program.tokens_eq_of_alike`: offsets do not matter to the tokens of a program.
- `Program.canonical_eq_of_alike`: texts of programs that are alike have the same canonical tokens.
-/

namespace CausalRules

/-- The canonical tokens of located ones. -/
def spelling (s : List Located) : List Token :=
  canonical (s.map Located.token)

section Steps

variable {s u : List Located} {t : Token} {p : Nat}

theorem spelling_append (ht : t.joins = false) :
    spelling (s ++ ⟨t, p⟩ :: u) = spelling s ++ spelling (⟨t, p⟩ :: u) := by
  unfold spelling
  rw [List.map_append, List.map_cons]
  exact canonical_append ht

theorem spelling_cons (ht : t.chooses = false) : spelling (⟨t, p⟩ :: u) = t :: spelling u :=
  canonical_cons ht

theorem spelling_append_cons (hjoins : t.joins = false) (hchooses : t.chooses = false) :
    spelling (s ++ ⟨t, p⟩ :: u) = spelling s ++ t :: spelling u := by
  rw [spelling_append hjoins, spelling_cons hchooses]

/-- A closing sign at the end. -/
theorem spelling_concat (hjoins : t.joins = false) (hchooses : t.chooses = false) :
    spelling (s ++ [⟨t, p⟩]) = spelling s ++ [t] :=
  spelling_append_cons hjoins hchooses

end Steps

/-! ## Numbers -/

section Numbers

variable {s : List Located} {n : Number}

/-- A number is spelled by its tokens, of which a missing whole part is none. -/
theorem SpellsNumber.tokens_eq (h : SpellsNumber s n) (hs : ∀ t ∈ s, t.token.Lexical) :
    s.map Located.token = n.tokens := by
  induction h with
  | whole run =>
    have hrun : run ≠ "" := (hs _ (List.mem_cons_self ..)).1
    simp [Number.tokens, fractionTokens, hrun]
  | decimal run fraction =>
    have hrun : run ≠ "" := (hs _ (List.mem_cons_self ..)).1
    simp [Number.tokens, fractionTokens, hrun]
  | point fraction => rfl
  | negative _ ih =>
    rw [List.map_cons, ih fun t ht => hs t (List.mem_cons_of_mem _ ht)]
    rfl

theorem SpellsNumber.whole_digits (h : SpellsNumber s n) (hs : ∀ t ∈ s, t.token.Lexical) :
    ∀ c ∈ n.whole.toList, c.isDigit = true := by
  induction h with
  | whole run => exact (hs _ (List.mem_cons_self ..)).2
  | decimal run fraction => exact (hs _ (List.mem_cons_self ..)).2
  | point fraction => simp
  | negative _ ih => exact ih fun t ht => hs t (List.mem_cons_of_mem _ ht)

/-- A number has a whole part or a fraction. -/
theorem SpellsNumber.fraction_ne_none (h : SpellsNumber s n) (hs : ∀ t ∈ s, t.token.Lexical)
    (hwhole : n.whole = "") : n.fraction ≠ none := by
  induction h with
  | whole run => exact absurd hwhole (hs _ (List.mem_cons_self ..)).1
  | decimal run fraction => simp
  | point fraction => simp
  | negative _ ih => exact ih (fun t ht => hs t (List.mem_cons_of_mem _ ht)) hwhole

/-- No choice is made inside a number. -/
theorem spelling_of_spellsNumber (h : SpellsNumber s n) (hs : ∀ t ∈ s, t.token.Lexical) :
    spelling s = n.tokens := by
  have hkept : ∀ t ∈ s, t.token.chooses = false := by
    clear hs
    induction h with
    | whole | decimal | point => simp [Token.chooses]
    | negative _ ih => simpa [Token.chooses] using ih
  rw [spelling, canonical_eq_self (List.forall_mem_map.mpr hkept), h.tokens_eq hs]

/-- Between quotes, a zero is written for a missing whole part. -/
theorem spelling_of_quoted {p q : Nat} (h : SpellsNumber s n) (hs : ∀ t ∈ s, t.token.Lexical) :
    spelling (⟨.quote, p⟩ :: (s ++ [⟨.quote, q⟩])) =
      Token.quote :: (n.written.tokens ++ [Token.quote]) := by
  rw [spelling, List.map_cons, List.map_append, h.tokens_eq hs, n.written_tokens]
  have hfraction := h.fraction_ne_none hs
  obtain ⟨negative, whole, fraction⟩ := n
  by_cases hwhole : whole = ""
  · cases fraction with
    | none => exact absurd rfl (hfraction hwhole)
    | some fraction =>
      subst hwhole
      cases negative <;> rfl
  · cases negative <;> cases fraction <;>
      simp [canonical, zeroQuoted, dropSemicolon, Token.evaluated, Number.tokens, Number.written,
        fractionTokens, hwhole]

end Numbers

/-! ## Arguments -/

/-- Items with a separator are spelled by their tokens with the separator between each two. -/
theorem spelling_of_separated {α : Type} {separator : Token} {Item : List Located → α → Prop}
    {tokens : α → List Token} {s : List Located} {as : List α}
    (h : Separated separator Item s as)
    (hseparator : ∀ s u bs p, Separated separator Item u bs →
      spelling (s ++ ⟨separator, p⟩ :: u) = spelling s ++ separator :: spelling u)
    (hitem : ∀ u a, u <:+: s → Item u a → spelling u = tokens a) :
    spelling s = [separator].intercalate (as.map tokens) := by
  induction h with
  | @last s a ha => simpa using hitem s a List.infix_rfl ha
  | @more s u a as p ha hmore ih =>
    have hs : spelling s = tokens a := hitem s a (List.prefix_append _ _).isInfix ha
    have hu : spelling u = [separator].intercalate (as.map tokens) := by
      refine ih fun v b hv hb => hitem v b (hv.trans ?_) hb
      exact ⟨s ++ [⟨separator, p⟩], [], by simp⟩
    have hne : as.map tokens ≠ [] := by
      cases hmore with
      | last | more => simp
    rw [hseparator s u as p hmore, hs, hu, List.map_cons, List.intercalate_cons_of_ne_nil hne]
    simp

theorem spelling_of_commas {α : Type} {Item : List Located → α → Prop} {tokens : α → List Token}
    {s : List Located} {as : List α} (h : Separated .comma Item s as)
    (hitem : ∀ u a, u <:+: s → Item u a → spelling u = tokens a) :
    spelling s = [.comma].intercalate (as.map tokens) :=
  spelling_of_separated h (fun _ _ _ _ _ => spelling_append_cons rfl rfl) hitem

/-- What a continuation denotes is the value of its digits. -/
theorem eq_suffixValue_of_denotes {suffix : String} {offset : Nat} (h : Denotes suffix offset) :
    suffixValue suffix = offset := by
  unfold Denotes at h
  unfold suffixValue
  split
  · rename_i hempty
    rw [if_pos hempty] at h
    exact h.symm
  · rename_i hempty
    rw [if_neg hempty] at h
    exact h.1.symm

theorem spelling_of_spellsArg {s : List Located} {arg : Arg} (h : SpellsArg s arg)
    (hs : ∀ t ∈ s, t.token.Lexical) : spelling s = arg.tokens := by
  -- the arguments of a state have fewer tokens
  induction hn : s.length using Nat.strong_induction_on generalizing s arg with
  | _ n ih =>
    cases h with
    | name name =>
      have hname : (Token.ident name).Lexical :=
        hs _ (List.mem_cons_of_mem _ (List.mem_cons_self ..))
      rw [Arg.tokens, literalTokens_name hname]
      rfl
    | @quoted u number p q hu =>
      have hlexical : ∀ t ∈ u, t.token.Lexical := fun t ht => hs t (by simp [ht])
      rw [spelling_of_quoted hu hlexical, Arg.tokens,
        literalTokens_number (hu.whole_digits hlexical)]
    | @state u args p q r hu =>
      have hargs : spelling u = [.comma].intercalate (args.map Arg.tokens) := by
        refine spelling_of_commas hu fun v arg hv harg => ?_
        have hlength : v.length < n := by
          have := hv.length_le
          simp at hn
          omega
        exact ih _ hlength harg (fun t ht => hs t (by simp [hv.subset ht])) rfl
      rw [spelling_cons rfl, spelling_cons rfl, spelling_concat rfl rfl, hargs, Arg.tokens,
        Arg.listTokens_eq_map]
    | number hnumber => exact spelling_of_spellsNumber hnumber hs
    | «variable» name => rfl
    | continuation hdenotes =>
      rw [Arg.tokens, ← eq_suffixValue_of_denotes hdenotes]
      rfl
    | python code => rfl

theorem spelling_of_spellsArgs {s : List Located} {args : List Arg} (h : SpellsArgs s args)
    (hs : ∀ t ∈ s, t.token.Lexical) : spelling s = argsTokens args :=
  spelling_of_commas h.1 fun _ _ hu harg =>
    spelling_of_spellsArg harg fun t ht => hs t (hu.subset ht)

/-! ## Conditions -/

theorem Comparison.joins_token (op : Comparison) : op.token.joins = false := by
  cases op <;> rfl

theorem Comparison.chooses_token (op : Comparison) : op.token.chooses = false := by
  cases op <;> rfl

theorem Connective.joins_token (op : Connective) : op.token.joins = false := by
  cases op <;> rfl

theorem Connective.chooses_token (op : Connective) : op.token.chooses = false := by
  cases op <;> rfl

theorem spelling_of_spellsOperand {s : List Located} {operand : Operand}
    (h : SpellsOperand s operand) (hs : ∀ t ∈ s, t.token.Lexical) :
    spelling s = operand.tokens := by
  cases h with
  | all | type | empty => rfl
  | list hitems =>
    rw [spelling_cons rfl, spelling_concat rfl rfl,
      spelling_of_spellsArgs hitems fun t ht => hs t (by simp [ht])]
    rfl
  | value harg => exact spelling_of_spellsArg harg hs

theorem spelling_of_spellsPredicate {s : List Located} {p : Predicate} (h : SpellsPredicate s p)
    (hs : ∀ t ∈ s, t.token.Lexical) : spelling s = p.tokens := by
  cases h with
  | bare hoperand => exact spelling_of_spellsOperand hoperand hs
  | compare op hleft hright =>
    rw [← List.cons_append, spelling_append_cons op.joins_token op.chooses_token,
      spelling_of_spellsOperand hleft fun t ht => hs t (List.mem_append_left _ ht),
      spelling_of_spellsOperand hright fun t ht => hs t (by simp [ht])]
    rfl

/-- Items with connectives are spelled by their tokens with the connectives between them. -/
theorem spelling_of_chained {Item : List Located → Condition → Prop} {s : List Located}
    {c : Condition} (h : Chained Item s c)
    (hitem : ∀ u c, u <:+: s → Item u c → spelling u = conditionTokens c) :
    spelling s = conditionTokens c := by
  induction h with
  | last hc => exact hitem _ _ List.infix_rfl hc
  | @more s u left right p op hleft _ ih =>
    have hs : spelling s = conditionTokens left :=
      hitem s left (List.prefix_append _ _).isInfix hleft
    have hu : spelling u = conditionTokens right := by
      refine ih fun v c hv hc => hitem v c (hv.trans ?_) hc
      exact ⟨s ++ [⟨op.token, p⟩], [], by simp⟩
    rw [spelling_append_cons op.joins_token op.chooses_token, hs, hu]
    rfl

theorem spelling_of_spellsCondition {s : List Located} {c : Condition} (h : SpellsCondition s c)
    (hs : ∀ t ∈ s, t.token.Lexical) : spelling s = conditionTokens c := by
  -- the inside of a group has fewer tokens
  induction hn : s.length using Nat.strong_induction_on generalizing s c with
  | _ n ih =>
    refine spelling_of_chained h fun u c hu hc => ?_
    cases hc with
    | @group v inner p q hinner =>
      have hlength : v.length < n := by
        have := hu.length_le
        simp at this
        omega
      have hlexical : ∀ t ∈ v, t.token.Lexical := fun t ht => hs t (hu.subset (by simp [ht]))
      rw [spelling_cons rfl, spelling_concat rfl rfl, ih _ hlength hinner hlexical rfl]
      rfl
    | test htest => exact spelling_of_spellsPredicate htest fun t ht => hs t (hu.subset ht)

/-! ## Programs -/

theorem spelling_of_spellsAction {s : List Located} {action : Action} (h : SpellsAction s action)
    (hs : ∀ t ∈ s, t.token.Lexical) : spelling s = action.tokens := by
  cases h with
  | plain => rfl
  | applied name hargs =>
    rw [spelling_cons rfl, spelling_cons rfl, spelling_concat rfl rfl,
      spelling_of_spellsArgs hargs fun t ht => hs t (by simp [ht])]
    rfl

theorem spelling_of_effects {s : List Located} {effects : List Action}
    (h : Separated .comma SpellsAction s effects) (hs : ∀ t ∈ s, t.token.Lexical) :
    spelling s = [.comma].intercalate (effects.map Action.tokens) :=
  spelling_of_commas h fun _ _ hu haction =>
    spelling_of_spellsAction haction fun t ht => hs t (hu.subset ht)

theorem spelling_of_spellsRule {s : List Located} {rule : Rule} (h : SpellsRule s rule)
    (hs : ∀ t ∈ s, t.token.Lexical) : spelling s = rule.tokens := by
  cases h with
  | always hintention heffects =>
    rw [spelling_append_cons rfl rfl,
      spelling_of_spellsAction hintention fun t ht => hs t (by simp [ht]),
      spelling_of_effects heffects fun t ht => hs t (by simp [ht])]
    rfl
  | guarded hcondition hintention heffects =>
    rw [spelling_cons rfl, spelling_cons rfl, spelling_append_cons rfl rfl, spelling_cons rfl,
      spelling_append_cons rfl rfl,
      spelling_of_spellsCondition hcondition fun t ht => hs t (by simp [ht]),
      spelling_of_spellsAction hintention fun t ht => hs t (by simp [ht]),
      spelling_of_effects heffects fun t ht => hs t (by simp [ht])]
    simp [Rule.tokens, guardTokens]

/-- The first token of a rule is a name or `if`. -/
theorem SpellsRule.exists_cons {s : List Located} {rule : Rule} (h : SpellsRule s rule) :
    ∃ t p u, s = ⟨t, p⟩ :: u ∧ t.joins = false := by
  cases h with
  | always hintention =>
    cases hintention with
    | plain | applied => exact ⟨_, _, _, rfl, rfl⟩
  | guarded => exact ⟨_, _, _, rfl, rfl⟩

/-- Rules are spelled by their tokens with semicolons between them, none of which stands before a
brace. -/
theorem spelling_of_rules {s : List Located} {rules : List Rule}
    (h : Separated .semicolon SpellsRule s rules) (hs : ∀ t ∈ s, t.token.Lexical) :
    spelling s = [.semicolon].intercalate (rules.map Rule.tokens) := by
  refine spelling_of_separated h (fun s u rules p hu => ?_) fun u rule hu hrule =>
    spelling_of_spellsRule hrule fun t ht => hs t (hu.subset ht)
  obtain ⟨t, q, v, rfl, ht⟩ : ∃ t q v, u = ⟨t, q⟩ :: v ∧ t.joins = false := by
    cases hu with
    | last hrule => exact hrule.exists_cons
    | more hrule =>
      obtain ⟨t, q, v, rfl, ht⟩ := hrule.exists_cons
      exact ⟨t, q, _, rfl, ht⟩
  have hnext : spelling (⟨.semicolon, p⟩ :: ⟨t, q⟩ :: v) = .semicolon :: spelling (⟨t, q⟩ :: v) :=
    spelling_append (s := [⟨.semicolon, p⟩]) ht
  rw [spelling_append rfl, hnext]

/-- A closing parenthesis is the last token. -/
def EndsClosed (s : List Located) : Prop :=
  ∃ p, [⟨.closeParen, p⟩] <:+ s

theorem EndsClosed.mono {s u : List Located} (h : EndsClosed s) (hsu : s <:+ u) : EndsClosed u := by
  obtain ⟨p, hp⟩ := h
  exact ⟨p, hp.trans hsu⟩

theorem Separated.endsClosed {α : Type} {separator : Token} {Item : List Located → α → Prop}
    {s : List Located} {as : List α} (h : Separated separator Item s as)
    (hitem : ∀ s a, Item s a → EndsClosed s) : EndsClosed s := by
  induction h with
  | last ha => exact hitem _ _ ha
  | @more s u _ _ p _ _ ih => exact ih.mono ⟨s ++ [⟨separator, p⟩], by simp⟩

theorem SpellsAction.endsClosed {s : List Located} {action : Action} (h : SpellsAction s action) :
    EndsClosed s := by
  cases h with
  | @plain p q r name => exact ⟨r, [⟨.ident name, p⟩, ⟨.openParen, q⟩], rfl⟩
  | @applied u _ p q r name => exact ⟨r, ⟨.ident name, p⟩ :: ⟨.openParen, q⟩ :: u, by simp⟩

theorem SpellsRule.endsClosed {s : List Located} {rule : Rule} (h : SpellsRule s rule) :
    EndsClosed s := by
  cases h with
  | @always s u _ _ p _ heffects =>
    exact (heffects.endsClosed fun _ _ => SpellsAction.endsClosed).mono
      ⟨s ++ [⟨.causes, p⟩], by simp⟩
  | @guarded c s u _ _ _ p q r o n _ _ heffects =>
    exact (heffects.endsClosed fun _ _ => SpellsAction.endsClosed).mono
      ⟨⟨.ifWord, p⟩ :: ⟨.openParen, q⟩ :: (c ++ ⟨.closeParen, r⟩ :: ⟨.colon, o⟩ ::
        (s ++ [⟨.causes, n⟩])), by simp⟩

/-- **The canonical tokens of a text are those of the program that it spells.** -/
theorem spelling_of_spellsProgram {s : List Located} {program : Program}
    (h : SpellsProgram s program) (hs : ∀ t ∈ s, t.token.Lexical) :
    spelling s = program.tokens := by
  cases h with
  | @rules s u rules p q r e hrules htrailing =>
    have hspelling := spelling_of_rules hrules fun t ht => hs t (by simp [ht])
    -- the semicolon is left out, and without it nothing stands before the brace that is left out
    have hend : spelling (s ++ (u ++ [⟨.closeBrace, r⟩, ⟨.endOfInput, e⟩])) =
        spelling s ++ [Token.closeBrace, Token.endOfInput] := by
      rcases htrailing with rfl | ⟨n, rfl⟩
      · obtain ⟨p, v, rfl⟩ := hrules.endsClosed fun _ _ => SpellsRule.endsClosed
        have hbrace : spelling [⟨.closeParen, p⟩, ⟨.closeBrace, r⟩, ⟨.endOfInput, e⟩] =
            [.closeParen, .closeBrace, .endOfInput] := rfl
        rw [spelling_concat rfl rfl, List.nil_append, List.append_assoc]
        show spelling (v ++ ⟨.closeParen, p⟩ :: _) = _
        rw [spelling_append rfl]
        show spelling v ++ spelling [_, _, _] = _
        rw [hbrace, List.append_assoc]
        rfl
      · exact spelling_append rfl
    rw [spelling_cons rfl, spelling_cons rfl, hend, hspelling]
    rfl

/-! ## Programs that are alike -/

section Alike

variable {R : Nat → Nat → Prop}

theorem Action.tokens_eq_of_alike {a a' : Action} (h : a.Alike R a') : a.tokens = a'.tokens := by
  rw [tokens, tokens, h.name, h.args]

theorem conditionTokens_eq_of_alike {c c' : Condition} (h : Condition.Alike R c c') :
    conditionTokens c = conditionTokens c' := by
  induction h with
  | atom h => cases h <;> rfl
  | group _ ih => rw [conditionTokens, conditionTokens, ih]
  | chain op _ _ ihl ihr => rw [conditionTokens, conditionTokens, ihl, ihr]

theorem guardTokens_eq_of_alike {guard guard' : Option Condition}
    (h : Option.Rel (Condition.Alike R) guard guard') : guardTokens guard = guardTokens guard' := by
  cases h with
  | none => rfl
  | some hc => rw [guardTokens, guardTokens, conditionTokens_eq_of_alike hc]

theorem Rule.tokens_eq_of_alike {rule rule' : Rule} (h : rule.Alike R rule') :
    rule.tokens = rule'.tokens := by
  rw [tokens, tokens, guardTokens_eq_of_alike h.condition, Action.tokens_eq_of_alike h.intention,
    map_eq_of_forall₂ h.effects fun _ _ => Action.tokens_eq_of_alike]

/-- Offsets do not matter to the tokens of a program. -/
theorem Program.tokens_eq_of_alike {program program' : Program} (h : program.Alike R program') :
    program.tokens = program'.tokens := by
  rw [tokens, tokens, map_eq_of_forall₂ h.rules fun _ _ => Rule.tokens_eq_of_alike]

end Alike

/-- **Reading loses nothing.** Two texts that are read as programs which differ in offsets only have
the same tokens, when a semicolon before the closing brace is left out, continuations have their
values for digits, and numbers between quotes have a whole part. -/
theorem Program.canonical_eq_of_alike {limits limits' : Limits} {text text' : String}
    {program program' : Program} (h : Program.read limits text = .ok program)
    (h' : Program.read limits' text' = .ok program')
    (halike : program.Alike (fun _ _ => True) program') :
    ∃ tokens tokens', tokenize text = .ok tokens ∧ tokenize text' = .ok tokens' ∧
      canonical (tokens.map Located.token) = canonical (tokens'.map Located.token) := by
  obtain ⟨tokens, htokens, hspells⟩ := Program.spells_of_read h
  obtain ⟨tokens', htokens', hspells'⟩ := Program.spells_of_read h'
  refine ⟨tokens, tokens', htokens, htokens', ?_⟩
  have hspelling := spelling_of_spellsProgram hspells (tokenize_lexical htokens)
  have hspelling' := spelling_of_spellsProgram hspells' (tokenize_lexical htokens')
  calc canonical (tokens.map Located.token) = program.tokens := hspelling
    _ = program'.tokens := Program.tokens_eq_of_alike halike
    _ = canonical (tokens'.map Located.token) := hspelling'.symm

/-- Water is poured from a cup, with all three choices made one way and the other. -/
def pouringText : String :=
  "RULES \x7b pour(cup, CONT) := lift(cup, CONT), tilt('.5', 'far_left'); \x7d"

/-- Another spelling of `pouringText`. -/
def pouringAgain : String :=
  "RULES\x7bpour(cup,CONT01) := lift(cup,CONT1), tilt('0.5','far_left')\x7d"

/-- The rule of both texts, at given offsets. -/
def pouring (intention lift tilt position : Nat) : Rule where
  condition := none
  intention := ⟨"pour", [.variable "cup", .continuation 1], intention⟩
  effects := [⟨"lift", [.variable "cup", .continuation 1], lift⟩,
    ⟨"tilt", [.literal "0.5", .literal "far left"], tilt⟩]
  position := position

/-- The two texts have the same canonical tokens. -/
theorem pouring_canonical : ∃ tokens tokens',
    tokenize pouringText = .ok tokens ∧ tokenize pouringAgain = .ok tokens' ∧
      canonical (tokens.map Located.token) = canonical (tokens'.map Located.token) := by
  have hread : Program.read ⟨100, 0⟩ pouringText = .ok ⟨[pouring 8 27 44 8]⟩ := by
    decide +kernel
  have hagain : Program.read ⟨80, 7⟩ pouringAgain = .ok ⟨[pouring 6 26 43 6]⟩ := by
    decide +kernel
  refine Program.canonical_eq_of_alike hread hagain ⟨.cons ?_ .nil⟩
  exact ⟨.none, ⟨rfl, rfl, trivial⟩, .cons ⟨rfl, rfl, trivial⟩ (.cons ⟨rfl, rfl, trivial⟩ .nil),
    trivial⟩

end CausalRules
