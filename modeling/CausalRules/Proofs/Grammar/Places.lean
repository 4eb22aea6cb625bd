import CausalRules.Proofs.Grammar.WellFormed
import CausalRules.Proofs.Reading.Gaps
import CausalRules.Proofs.Renaming

/-!
# Where the parts of a program stand

Actions, predicates and rules have offsets, which are those of tokens: what an offset belongs to is
spelled by tokens that begin there. As no token is the first one of two such parts, apart from a rule
without a condition and its intention, an offset tells them apart.

- `BeginsAt`: some tokens spell a value, and a certain token is the first of them.
- `Rule.StandsIn`: a rule and its parts begin at their offsets. `SpellsRule.standsIn` says so for every
  rule that is spelled.
- `Rule.offsets`, `Program.offsets`: the offsets in the order of the text.
- `Program.stands_of_read`: both for a program that was read, whose offsets increase.
-/

namespace CausalRules

/-! ## Tokens that spell a value -/

section BeginsAt

variable {α : Type} {Spells : List Located → α → Prop} {s tokens : List Located} {a : α}
  {first : Located}

/-- Tokens side by side spell a value, and a certain one is the first of them. -/
def BeginsAt (Spells : List Located → α → Prop) (tokens : List Located) (a : α) (first : Located) :
    Prop :=
  ∃ rest, first :: rest <:+: tokens ∧ Spells (first :: rest) a

theorem BeginsAt.mono (h : BeginsAt Spells s a first) (hs : s <:+: tokens) :
    BeginsAt Spells tokens a first := by
  obtain ⟨rest, hrest, hspells⟩ := h
  exact ⟨rest, hrest.trans hs, hspells⟩

theorem BeginsAt.mem (h : BeginsAt Spells tokens a first) : first ∈ tokens := by
  obtain ⟨rest, hrest, -⟩ := h
  exact hrest.subset List.mem_cons_self

/-- The offsets of items are noted in the order of the items. -/
theorem Separated.offsets_sublist {separator : Token} {offsets : α → List Nat} {as : List α}
    (h : Separated separator Spells s as)
    (hitem : ∀ u a, Spells u a → (offsets a).Sublist (u.map Located.position)) :
    (as.flatMap offsets).Sublist (s.map Located.position) := by
  induction h with
  | @last s a ha =>
    rw [List.flatMap_singleton]
    exact hitem s a ha
  | @more s u a as p ha _ ih =>
    rw [List.flatMap_cons, List.map_append, List.map_cons]
    exact (hitem s a ha).append (ih.cons _)

end BeginsAt

/-! ## Predicates -/

/-- The operand that a predicate begins with. -/
def Predicate.left : Predicate → Operand
  | .compare left _ _ _ => left
  | .bare operand _ => operand

variable {s : List Located}

/-- A predicate has the offset of the first token of its left operand. -/
theorem SpellsPredicate.begins {p : Predicate} (h : SpellsPredicate s p) :
    ∃ first rest, s = first :: rest ∧ first.position = p.position ∧
      BeginsAt SpellsOperand s p.left first := by
  cases h with
  | @bare t s operand hoperand => exact ⟨t, s, rfl, rfl, s, List.infix_rfl, hoperand⟩
  | @compare t s u left right n op hleft _ =>
    refine ⟨t, _, rfl, rfl, s, ?_, hleft⟩
    rw [← List.cons_append]
    exact (List.prefix_append _ _).isInfix

/-- The predicates of a condition are spelled by some of its tokens, one after the other. -/
structure Condition.StandsIn (s : List Located) (c : Condition) : Prop where
  predicates : ∀ p ∈ c.atoms, ∃ u, u <:+: s ∧ SpellsPredicate u p
  offsets : (c.atoms.map Predicate.position).Sublist (s.map Located.position)

theorem Condition.StandsIn.mono {u : List Located} {c : Condition} (h : c.StandsIn s)
    (hs : s <:+: u) : c.StandsIn u := by
  refine ⟨fun p hp => ?_, h.offsets.trans (hs.sublist.map _)⟩
  obtain ⟨v, hv, hspells⟩ := h.predicates p hp
  exact ⟨v, hv.trans hs, hspells⟩

theorem SpellsPredicate.standsIn {p : Predicate} (h : SpellsPredicate s p) :
    Condition.StandsIn s (.atom p) := by
  obtain ⟨first, rest, rfl, hposition, -⟩ := h.begins
  refine ⟨fun q hq => ?_, ?_⟩
  · obtain rfl := List.mem_singleton.mp hq
    exact ⟨_, List.infix_rfl, h⟩
  · show [p.position].Sublist _
    rw [← hposition]
    exact (List.nil_sublist _).cons_cons _

/-- What stands in the parts of a chain stands in the chain, in the order of the parts. -/
theorem Chained.standsIn {c : Condition} (h : SpellsCondition s c)
    (hitem : ∀ u c, u <:+: s → SpellsItem u c → Condition.StandsIn u c) :
    Condition.StandsIn s c := by
  induction h with
  | last hc => exact hitem _ _ List.infix_rfl hc
  | @more s u left right p op hleft _ ih =>
    have hs : s <:+: s ++ ⟨op.token, p⟩ :: u := (List.prefix_append _ _).isInfix
    have hu : u <:+: s ++ ⟨op.token, p⟩ :: u := ⟨s ++ [⟨op.token, p⟩], [], by simp⟩
    have standsLeft := hitem s left hs hleft
    have standsRight := ih fun v c hv hc => hitem v c (hv.trans hu) hc
    refine ⟨List.forall_mem_append.mpr
      ⟨(standsLeft.mono hs).predicates, (standsRight.mono hu).predicates⟩, ?_⟩
    rw [Formula.atoms, List.map_append, List.map_append, List.map_cons]
    exact standsLeft.offsets.append (standsRight.offsets.cons _)

theorem SpellsCondition.standsIn {c : Condition} (h : SpellsCondition s c) :
    Condition.StandsIn s c := by
  -- the inside of a group has fewer tokens
  induction hn : s.length using Nat.strong_induction_on generalizing s c with
  | _ n ih =>
    refine Chained.standsIn h fun u c hu hc => ?_
    cases hc with
    | @group v inner p q hinner =>
      have hlength : v.length < n := by
        have := hu.length_le
        simp at this
        omega
      have hv : v <:+: ⟨.openParen, p⟩ :: (v ++ [⟨.closeParen, q⟩]) :=
        ⟨[⟨.openParen, p⟩], [⟨.closeParen, q⟩], by simp⟩
      have inside := (ih _ hlength hinner rfl).mono hv
      exact ⟨inside.predicates, inside.offsets⟩
    | test htest => exact htest.standsIn

/-! ## Actions and rules -/

/-- An action begins with its name. -/
theorem SpellsAction.begins {action : Action} (h : SpellsAction s action) :
    ∃ rest, s = ⟨.ident action.name, action.position⟩ :: rest := by
  cases h with
  | plain | applied => exact ⟨_, rfl⟩

theorem SpellsAction.beginsAt {action : Action} (h : SpellsAction s action) :
    BeginsAt SpellsAction s action ⟨.ident action.name, action.position⟩ := by
  obtain ⟨rest, rfl⟩ := h.begins
  exact ⟨rest, List.infix_rfl, h⟩

theorem SpellsAction.offset_sublist {action : Action} (h : SpellsAction s action) :
    [action.position].Sublist (s.map Located.position) := by
  obtain ⟨rest, rfl⟩ := h.begins
  exact (List.nil_sublist _).cons_cons _

/-- The offsets of effects are noted in their order. -/
theorem effects_offsets_sublist {effects : List Action}
    (h : Separated .comma SpellsAction s effects) :
    (effects.map Action.position).Sublist (s.map Located.position) := by
  rw [List.map_eq_flatMap]
  exact h.offsets_sublist fun _ _ => SpellsAction.offset_sublist

/-- Effects begin with their names. -/
theorem effects_beginAt {effects : List Action} (h : Separated .comma SpellsAction s effects) :
    ∀ effect ∈ effects, BeginsAt SpellsAction s effect ⟨.ident effect.name, effect.position⟩ :=
  h.forall_mem fun _ _ hu heffect => heffect.beginsAt.mono hu

/-- A rule and its parts begin at their offsets. -/
structure Rule.StandsIn (tokens : List Located) (rule : Rule) : Prop where
  /-- A rule with a condition begins with its `if`. -/
  guarded : rule.condition ≠ none → BeginsAt SpellsRule tokens rule ⟨.ifWord, rule.position⟩
  /-- A rule without a condition begins with its intention. -/
  always : rule.condition = none → rule.position = rule.intention.position ∧
    BeginsAt SpellsRule tokens rule ⟨.ident rule.intention.name, rule.position⟩
  actions : ∀ action ∈ rule.intention :: rule.effects,
    BeginsAt SpellsAction tokens action ⟨.ident action.name, action.position⟩
  /-- A predicate begins with its left operand. -/
  predicates : ∀ p ∈ rule.predicates, ∃ first, first.position = p.position ∧
    BeginsAt SpellsPredicate tokens p first ∧ BeginsAt SpellsOperand tokens p.left first

theorem Rule.StandsIn.mono {tokens : List Located} {rule : Rule} (h : rule.StandsIn s)
    (hs : s <:+: tokens) : rule.StandsIn tokens := by
  refine ⟨fun hc => (h.guarded hc).mono hs, fun hc => ?_,
    fun action haction => (h.actions action haction).mono hs, fun p hp => ?_⟩
  · obtain ⟨hposition, hbegins⟩ := h.always hc
    exact ⟨hposition, hbegins.mono hs⟩
  · obtain ⟨first, hposition, hpredicate, hleft⟩ := h.predicates p hp
    exact ⟨first, hposition, hpredicate.mono hs, hleft.mono hs⟩

/-- The predicates of a condition begin with their left operands. -/
theorem Condition.StandsIn.begin {c : Condition} (h : c.StandsIn s) :
    ∀ p ∈ c.atoms, ∃ first, first.position = p.position ∧
      BeginsAt SpellsPredicate s p first ∧ BeginsAt SpellsOperand s p.left first := by
  intro p hp
  obtain ⟨u, hu, hspells⟩ := h.predicates p hp
  obtain ⟨first, rest, rfl, hposition, hleft⟩ := hspells.begins
  exact ⟨first, hposition, ⟨rest, hu, hspells⟩, hleft.mono hu⟩

/-- **A rule that is spelled begins at its offset, and so do its parts.** -/
theorem SpellsRule.standsIn {rule : Rule} (h : SpellsRule s rule) : rule.StandsIn s := by
  have hrule := h
  cases h with
  | @always s u intention effects p hintention heffects =>
    have hs : s <:+: s ++ ⟨.causes, p⟩ :: u := (List.prefix_append _ _).isInfix
    have hu : u <:+: s ++ ⟨.causes, p⟩ :: u := ⟨s ++ [⟨.causes, p⟩], [], by simp⟩
    refine ⟨fun hnone => (hnone rfl).elim, fun _ => ⟨rfl, ?_⟩, ?_, nofun⟩
    · obtain ⟨rest, rfl⟩ := hintention.begins
      exact ⟨_, List.infix_rfl, hrule⟩
    · exact List.forall_mem_cons.mpr ⟨hintention.beginsAt.mono hs,
        fun effect heffect => (effects_beginAt heffects effect heffect).mono hu⟩
  | @guarded c s u condition intention effects p q r o n hcondition hintention heffects =>
    have hc : c <:+: ⟨.ifWord, p⟩ :: ⟨.openParen, q⟩ :: (c ++ ⟨.closeParen, r⟩ :: ⟨.colon, o⟩ ::
        (s ++ ⟨.causes, n⟩ :: u)) := ⟨[⟨.ifWord, p⟩, ⟨.openParen, q⟩], _, by simp; rfl⟩
    have hs : s <:+: ⟨.ifWord, p⟩ :: ⟨.openParen, q⟩ :: (c ++ ⟨.closeParen, r⟩ :: ⟨.colon, o⟩ ::
        (s ++ ⟨.causes, n⟩ :: u)) :=
      ⟨⟨.ifWord, p⟩ :: ⟨.openParen, q⟩ :: (c ++ [⟨.closeParen, r⟩, ⟨.colon, o⟩]), _, by simp; rfl⟩
    have hu : u <:+: ⟨.ifWord, p⟩ :: ⟨.openParen, q⟩ :: (c ++ ⟨.closeParen, r⟩ :: ⟨.colon, o⟩ ::
        (s ++ ⟨.causes, n⟩ :: u)) :=
      ⟨⟨.ifWord, p⟩ :: ⟨.openParen, q⟩ :: (c ++ ⟨.closeParen, r⟩ :: ⟨.colon, o⟩ ::
        (s ++ [⟨.causes, n⟩])), [], by simp⟩
    refine ⟨fun _ => ⟨_, List.infix_rfl, hrule⟩, nofun, ?_, fun p hp => ?_⟩
    · exact List.forall_mem_cons.mpr ⟨hintention.beginsAt.mono hs,
        fun effect heffect => (effects_beginAt heffects effect heffect).mono hu⟩
    · obtain ⟨first, hposition, hpredicate, hleft⟩ :=
        (SpellsCondition.standsIn hcondition).begin p hp
      exact ⟨first, hposition, hpredicate.mono hc, hleft.mono hc⟩

/-! ## Offsets in the order of the text -/

/-- The offsets of a rule and its parts. A rule without a condition has that of its intention, which
is listed once. -/
def Rule.offsets (rule : Rule) : List Nat :=
  (match rule.condition with
    | some c => rule.position :: c.atoms.map Predicate.position
    | none => []) ++
    rule.intention.position :: rule.effects.map Action.position

/-- The offsets of the rules of a program and of their parts. -/
def Program.offsets (program : Program) : List Nat :=
  program.rules.flatMap Rule.offsets

theorem SpellsRule.offsets_sublist {rule : Rule} (h : SpellsRule s rule) :
    rule.offsets.Sublist (s.map Located.position) := by
  cases h with
  | @always s u intention effects p hintention heffects =>
    rw [List.map_append, List.map_cons]
    exact hintention.offset_sublist.append ((effects_offsets_sublist heffects).cons _)
  | @guarded c s u condition intention effects p q r o n hcondition hintention heffects =>
    have hactions : (intention.position :: effects.map Action.position).Sublist
        ((s ++ ⟨.causes, n⟩ :: u).map Located.position) := by
      rw [List.map_append, List.map_cons]
      exact hintention.offset_sublist.append ((effects_offsets_sublist heffects).cons _)
    have hpredicates := (SpellsCondition.standsIn hcondition).offsets
    rw [List.map_cons, List.map_cons, List.map_append, List.map_cons, List.map_cons]
    exact ((hpredicates.append ((hactions.cons _).cons _)).cons _).cons_cons p

theorem SpellsProgram.offsets_sublist {program : Program} (h : SpellsProgram s program) :
    program.offsets.Sublist (s.map Located.position) := by
  cases h with
  | @rules s u rules p q r e hrules _ =>
    have hoffsets := hrules.offsets_sublist fun _ _ => SpellsRule.offsets_sublist
    rw [List.map_cons, List.map_cons, List.map_append]
    exact ((hoffsets.trans (List.sublist_append_left ..)).cons _).cons _

theorem SpellsProgram.standsIn {program : Program} (h : SpellsProgram s program) :
    ∀ rule ∈ program.rules, rule.StandsIn s := by
  cases h with
  | @rules s u rules p q r e hrules _ =>
    refine hrules.forall_mem fun v rule hv hrule => hrule.standsIn.mono (hv.trans ?_)
    exact ⟨[⟨.rulesWord, p⟩, ⟨.openBrace, q⟩], _, by simp; rfl⟩

/-- The predicates of a program are among its parts. -/
theorem predicates_offsets_sublist (program : Program) :
    ((program.rules.flatMap Rule.predicates).map Predicate.position).Sublist program.offsets := by
  have hrule : ∀ rule : Rule, (rule.predicates.map Predicate.position).Sublist rule.offsets := by
    intro rule
    refine List.Sublist.trans ?_ (List.sublist_append_left _ _)
    unfold Rule.predicates
    cases rule.condition with
    | some c => exact List.sublist_cons_self _ _
    | none => exact List.nil_sublist _
  rw [List.map_flatMap, Program.offsets]
  induction program.rules with
  | nil => exact List.nil_sublist _
  | cons rule rules ih =>
    rw [List.flatMap_cons, List.flatMap_cons]
    exact (hrule rule).append ih

/-- **The parts of a program stand where their offsets say.** The tokens of the text spell the
program: a rule with a condition begins with its `if` and one without with its intention, an action
begins with its name, and a predicate with its left operand. In the order of the text all these
offsets increase, so no two predicates have the same one. -/
theorem Program.stands_of_read {limits : Limits} {text : String} {program : Program}
    (h : Program.read limits text = .ok program) :
    ∃ tokens, tokenize text = .ok tokens ∧ SpellsProgram tokens program ∧
      (∀ rule ∈ program.rules, rule.StandsIn tokens ∧
        (rule.condition ≠ none → Located.StandsIn ⟨.ifWord, rule.position⟩ text) ∧
        ∀ action ∈ rule.intention :: rule.effects,
          Located.StandsIn ⟨.ident action.name, action.position⟩ text) ∧
      program.offsets.Pairwise (· < ·) ∧
      ((program.rules.flatMap Rule.predicates).map Predicate.position).Nodup := by
  obtain ⟨tokens, htokens, hspells⟩ := Program.spells_of_read h
  have hspread := tokenize_spread htokens
  have hincreasing : program.offsets.Pairwise (· < ·) :=
    (List.pairwise_map.mpr hspread.increasing).sublist hspells.offsets_sublist
  refine ⟨tokens, htokens, hspells, fun rule hrule => ?_, hincreasing, ?_⟩
  · have hstands := hspells.standsIn rule hrule
    exact ⟨hstands, fun hc => hspread.standsIn (hstands.guarded hc).mem nofun,
      fun action haction => hspread.standsIn (hstands.actions action haction).mem nofun⟩
  · exact (hincreasing.sublist (predicates_offsets_sublist program)).imp Nat.ne_of_lt

/-- A rule with a group in its condition, after a line end and a character of several bytes, and a
rule without a condition. -/
def twoRulesText : String := "RULES\x7b\nif((PYTHON(#é#))&&x=x):a(x):=b(x);c():=d()\x7d"

/-- The `if` is at 7, the predicates are at 11 and 26, and the second rule is where its intention
is. -/
theorem twoRules_stand : ∃ program, Program.read ⟨60, 1⟩ twoRulesText = .ok program ∧
    program.rules.map Rule.position = [7, 42] ∧
    program.offsets = [7, 11, 26, 31, 37, 42, 47] ∧ program.offsets.Pairwise (· < ·) ∧
    ∀ rule ∈ program.rules,
      Located.StandsIn ⟨.ident rule.intention.name, rule.intention.position⟩ twoRulesText := by
  have hprogram : ((Program.read ⟨60, 1⟩ twoRulesText).toOption.any fun program =>
      decide (program.rules.map Rule.position = [7, 42] ∧
        program.offsets = [7, 11, 26, 31, 37, 42, 47])) = true := by decide +kernel
  obtain ⟨program, hread, hprogram⟩ := exists_of_any_toOption hprogram
  obtain ⟨hrules, hoffsets⟩ := of_decide_eq_true hprogram
  obtain ⟨_, _, _, hstands, hincreasing, _⟩ := Program.stands_of_read hread
  exact ⟨program, hread, hrules, hoffsets, hincreasing,
    fun rule hrule => (hstands rule hrule).2.2 _ List.mem_cons_self⟩

end CausalRules
