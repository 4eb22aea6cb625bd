import CausalRules.Proofs.Grammar.Lossless
import CausalRules.Proofs.Reading.Printed

/-!
# Well-formed programs

What may be relied on in a program that was read, said of the program alone: names are names, numbers
have digits, continuations stand last in their lists and reach no further back than the list goes,
and chains nest to the right.

- `Number.WellFormed`, `Arg.WellFormed`, `Operand.WellFormed`, `Predicate.WellFormed`,
  `Condition.WellFormed`, `Action.WellFormed`, `Rule.WellFormed`, `Program.WellFormed`: one predicate
  for each part.
- `SpellsNumber.wellFormed` and so on: what legible tokens spell is well formed.
- `Program.wellFormed_of_read`: every program that is read is well formed.
- `Program.wellFormed_of_alike`: offsets do not matter.
-/

namespace CausalRules

/-! ## The predicates -/

/-- Decimal digits on both sides of a point, or on one; at least one digit stands after a point. -/
structure Number.WellFormed (n : Number) : Prop where
  whole : ∀ c ∈ n.whole.toList, c.isDigit = true
  fraction : ∀ fraction, n.fraction = some fraction → IsDigits fraction
  some_digit : n.whole ≠ "" ∨ n.fraction ≠ none

/-- A text of the form `[-] digits [. digits]`, without blanks. -/
def IsNumberText (text : String) : Prop :=
  ∃ sign whole tail : String, text = sign ++ whole ++ tail ∧ (sign = "" ∨ sign = "-") ∧
    IsDigits whole ∧ (tail = "" ∨ ∃ fraction, IsDigits fraction ∧ tail = "." ++ fraction)

/-- A name with spaces for its underscores, or the text of a number. -/
def IsLiteralText (text : String) : Prop :=
  (∃ name, IsName name ∧ text = literalText name) ∨ IsNumberText text

/-- Arguments as they are read. Whether a continuation may stand where it does is up to the list that
it is in. -/
inductive Arg.WellFormed : Arg → Prop
  | variable {name : String} : IsName name → Arg.WellFormed (.variable name)
  | literal {text : String} : IsLiteralText text → Arg.WellFormed (.literal text)
  | number {n : Number} : n.WellFormed → Arg.WellFormed (.number n)
  | continuation {offset : Nat} : 1 ≤ offset → offset ≤ 2 ^ 32 - 1 →
      Arg.WellFormed (.continuation offset)
  | state {args : List Arg} : args ≠ [] → (∀ arg ∈ args, Arg.WellFormed arg) →
      ContinuationsPlaced args → Arg.WellFormed (.state args)
  | python {code : String} : '#' ∉ code.toList → Arg.WellFormed (.python code)

/-- Lists of arguments: continuations stand last and have the arguments before them that they reach
back to. -/
structure ArgsWellFormed (args : List Arg) : Prop where
  each : ∀ arg ∈ args, arg.WellFormed
  placed : ContinuationsPlaced args

/-- Operands. A continuation is none. -/
inductive Operand.WellFormed : Operand → Prop
  | value {arg : Arg} : arg.WellFormed → arg.continuation? = none → Operand.WellFormed (.value arg)
  | all {typeName : String} : IsName typeName → Operand.WellFormed (.all typeName)
  | type {variableName : String} : IsName variableName → Operand.WellFormed (.type variableName)
  | list {items : List Arg} : ArgsWellFormed items → Operand.WellFormed (.list items)

/-- Predicates: their operands are well formed. -/
def Predicate.WellFormed : Predicate → Prop
  | .compare left _ right _ => left.WellFormed ∧ right.WellFormed
  | .bare operand _ => operand.WellFormed

/-- Conditions: the left part of a chain is no chain. -/
inductive Condition.WellFormed : Condition → Prop
  | atom {test : Predicate} : test.WellFormed → Condition.WellFormed (.atom test)
  | group {inner : Condition} : Condition.WellFormed inner → Condition.WellFormed (.group inner)
  | chain {left right : Condition} (op : Connective) : Condition.WellFormed left →
      (∀ l o r, left ≠ .chain l o r) → Condition.WellFormed right →
      Condition.WellFormed (.chain left op right)

/-- Actions. -/
structure Action.WellFormed (action : Action) : Prop where
  name : IsName action.name
  args : ArgsWellFormed action.args

/-- Rules. There is at least one effect. -/
structure Rule.WellFormed (rule : Rule) : Prop where
  condition : ∀ c, rule.condition = some c → Condition.WellFormed c
  intention : rule.intention.WellFormed
  some_effect : rule.effects ≠ []
  effects : ∀ effect ∈ rule.effects, effect.WellFormed

/-- Programs. There is at least one rule. -/
structure Program.WellFormed (program : Program) : Prop where
  some_rule : program.rules ≠ []
  rules : ∀ rule ∈ program.rules, rule.WellFormed

/-! ## Numbers and literals -/

/-- Legible names and runs of digits are made of their characters. -/
theorem Token.Legible.lexical {t : Token} (h : t.Legible) : t.Lexical := by
  cases t with
  | ident name => exact h.shape
  | digits run => exact ⟨h.ne_empty, h.digits⟩
  | _ => trivial

section Numbers

variable {s : List Located} {n : Number}

theorem SpellsNumber.wellFormed (h : SpellsNumber s n) (hs : ∀ t ∈ s, t.token.Legible) :
    n.WellFormed := by
  have hlexical : ∀ t ∈ s, t.token.Lexical := fun t ht => (hs t ht).lexical
  refine ⟨h.whole_digits hlexical, ?_, ?_⟩
  · clear hlexical
    induction h with
    | whole run => exact nofun
    | @decimal p q r run fraction =>
      rintro _ heq
      obtain rfl := Option.some.inj heq
      exact hs ⟨.digits fraction, r⟩ (by simp)
    | @point p q fraction =>
      rintro _ heq
      obtain rfl := Option.some.inj heq
      exact hs ⟨.digits fraction, q⟩ (by simp)
    | negative _ ih => exact ih fun t ht => hs t (List.mem_cons_of_mem _ ht)
  · by_cases hwhole : n.whole = ""
    · exact .inr (h.fraction_ne_none hlexical hwhole)
    · exact .inl hwhole

theorem Number.WellFormed.written_whole (h : n.WellFormed) : IsDigits n.written.whole := by
  refine ⟨n.written_whole_ne_empty, ?_⟩
  unfold Number.written
  by_cases hempty : n.whole = ""
  · simp [hempty]
  · simpa [hempty] using h.whole

/-- The texts of well-formed numbers begin with a digit, after the sign if there is one. -/
theorem isNumberText_iff {text : String} :
    IsNumberText text ↔ ∃ n : Number, n.WellFormed ∧ n.text = text := by
  constructor
  · rintro ⟨sign, whole, tail, rfl, hsign, hwhole, htail⟩
    have hne : whole ≠ "" := hwhole.ne_empty
    have hsign' : (if sign = "-" then "-" else "") = sign := by
      rcases hsign with rfl | rfl <;> rfl
    rcases htail with rfl | ⟨fraction, hfraction, rfl⟩
    · refine ⟨⟨sign = "-", whole, none⟩, ⟨hwhole.digits, nofun, .inl hne⟩, ?_⟩
      simp [Number.text, hsign', hne]
    · refine ⟨⟨sign = "-", whole, some fraction⟩, ⟨hwhole.digits, ?_, .inl hne⟩, ?_⟩
      · rintro _ heq
        obtain rfl := Option.some.inj heq
        exact hfraction
      · simp [Number.text, hsign', hne]
  · rintro ⟨n, hn, rfl⟩
    refine ⟨if n.negative then "-" else "", n.written.whole, n.fraction.elim "" ("." ++ ·), ?_, ?_,
      hn.written_whole, ?_⟩
    · cases hfraction : n.fraction <;>
        simp [Number.text, Number.written, hfraction, String.isEmpty_iff]
    · cases n.negative
      · exact .inl rfl
      · exact .inr rfl
    · cases hfraction : n.fraction with
      | none => exact .inl rfl
      | some digits => exact .inr ⟨digits, hn.fraction digits hfraction, rfl⟩

end Numbers

/-! ## What is spelled is well formed -/

/-- Items that lie inside given tokens hold what those inside them do. -/
theorem Separated.forall_mem {α : Type} {separator : Token} {Item : List Located → α → Prop}
    {P : α → Prop} {s : List Located} {as : List α} (h : Separated separator Item s as)
    (hitem : ∀ u a, u <:+: s → Item u a → P a) : ∀ a ∈ as, P a := by
  induction h with
  | @last s a ha =>
    intro b hb
    obtain rfl := List.mem_singleton.mp hb
    exact hitem s b List.infix_rfl ha
  | @more s u a as p ha _ ih =>
    refine List.forall_mem_cons.mpr ⟨hitem s a (List.prefix_append _ _).isInfix ha, ?_⟩
    refine ih fun v b hv hb => hitem v b (hv.trans ?_) hb
    exact ⟨s ++ [⟨separator, p⟩], [], by simp⟩

theorem Separated.ne_nil {α : Type} {separator : Token} {Item : List Located → α → Prop}
    {s : List Located} {as : List α} (h : Separated separator Item s as) : as ≠ [] := by
  cases h with
  | last | more => exact List.cons_ne_nil _ _

/-- What a continuation denotes is an offset from 1 to 2^32 - 1. -/
theorem bounds_of_denotes {suffix : String} {offset : Nat} (h : Denotes suffix offset) :
    1 ≤ offset ∧ offset ≤ 2 ^ 32 - 1 := by
  unfold Denotes at h
  split at h
  · omega
  · exact h.2

theorem SpellsArg.wellFormed {s : List Located} {arg : Arg} (h : SpellsArg s arg)
    (hs : ∀ t ∈ s, t.token.Legible) : arg.WellFormed := by
  -- the arguments of a state have fewer tokens
  induction hn : s.length using Nat.strong_induction_on generalizing s arg with
  | _ n ih =>
    cases h with
    | @name p q r name =>
      have hname : IsName name := hs ⟨.ident name, q⟩ (by simp)
      exact .literal (.inl ⟨name, hname, rfl⟩)
    | @quoted u number p q hu =>
      have hnumber : number.WellFormed := hu.wellFormed fun t ht => hs t (by simp [ht])
      exact .literal (.inr (isNumberText_iff.mpr ⟨number, hnumber, rfl⟩))
    | @state u args p q r hu hplaced =>
      refine .state hu.ne_nil (hu.forall_mem fun v arg hv harg => ?_) hplaced
      have hlength : v.length < n := by
        have := hv.length_le
        simp at hn
        omega
      exact ih _ hlength harg (fun t ht => hs t (by simp [hv.subset ht])) rfl
    | number hnumber => exact .number (hnumber.wellFormed hs)
    | @«variable» p name => exact .variable (hs ⟨.ident name, p⟩ (by simp))
    | continuation hdenotes =>
      obtain ⟨hlow, hhigh⟩ := bounds_of_denotes hdenotes
      exact .continuation hlow hhigh
    | @python p code => exact .python (hs ⟨.python code, p⟩ (by simp))

theorem SpellsArgs.wellFormed {s : List Located} {args : List Arg} (h : SpellsArgs s args)
    (hs : ∀ t ∈ s, t.token.Legible) : ArgsWellFormed args :=
  ⟨h.1.forall_mem fun _ _ hu harg => harg.wellFormed fun t ht => hs t (hu.subset ht), h.2⟩

theorem SpellsOperand.wellFormed {s : List Located} {operand : Operand}
    (h : SpellsOperand s operand) (hs : ∀ t ∈ s, t.token.Legible) : operand.WellFormed := by
  cases h with
  | @all p q r o name => exact .all (hs ⟨.ident name, r⟩ (by simp))
  | @type p q r o name => exact .type (hs ⟨.ident name, r⟩ (by simp))
  | empty => exact .list ⟨nofun, nofun⟩
  | list hitems => exact .list (hitems.wellFormed fun t ht => hs t (by simp [ht]))
  | value harg hplain => exact .value (harg.wellFormed hs) hplain

theorem SpellsPredicate.wellFormed {s : List Located} {test : Predicate}
    (h : SpellsPredicate s test) (hs : ∀ t ∈ s, t.token.Legible) : test.WellFormed := by
  cases h with
  | bare hoperand => exact hoperand.wellFormed hs
  | compare op hleft hright =>
    refine ⟨hleft.wellFormed fun t ht => ?_, hright.wellFormed fun t ht => hs t (by simp [ht])⟩
    rw [← List.cons_append] at hs
    exact hs t (List.mem_append_left _ ht)

/-- Only the last part of a chain may be a chain, and it may not be one by itself. -/
theorem SpellsItem.ne_chain {s : List Located} {c : Condition} (h : SpellsItem s c) :
    ∀ l o r, c ≠ .chain l o r := by
  cases h with
  | group | test => exact nofun

theorem Chained.wellFormed {s : List Located} {c : Condition} (h : SpellsCondition s c)
    (hitem : ∀ u c, u <:+: s → SpellsItem u c → Condition.WellFormed c) :
    Condition.WellFormed c := by
  induction h with
  | last hc => exact hitem _ _ List.infix_rfl hc
  | @more s u left right p op hleft _ ih =>
    refine .chain op (hitem s left (List.prefix_append _ _).isInfix hleft) hleft.ne_chain ?_
    refine ih fun v c hv hc => hitem v c (hv.trans ?_) hc
    exact ⟨s ++ [⟨op.token, p⟩], [], by simp⟩

theorem SpellsCondition.wellFormed {s : List Located} {c : Condition} (h : SpellsCondition s c)
    (hs : ∀ t ∈ s, t.token.Legible) : Condition.WellFormed c := by
  -- the inside of a group has fewer tokens
  induction hn : s.length using Nat.strong_induction_on generalizing s c with
  | _ n ih =>
    refine Chained.wellFormed h fun u c hu hc => ?_
    cases hc with
    | @group v inner p q hinner =>
      have hlength : v.length < n := by
        have := hu.length_le
        simp at this
        omega
      exact .group (ih _ hlength hinner (fun t ht => hs t (hu.subset (by simp [ht]))) rfl)
    | test htest => exact .atom (htest.wellFormed fun t ht => hs t (hu.subset ht))

theorem SpellsAction.wellFormed {s : List Located} {action : Action} (h : SpellsAction s action)
    (hs : ∀ t ∈ s, t.token.Legible) : action.WellFormed := by
  cases h with
  | @plain p q r name => exact ⟨hs ⟨.ident name, p⟩ (by simp), ⟨nofun, nofun⟩⟩
  | @applied s args p q r name hargs =>
    exact ⟨hs ⟨.ident name, p⟩ (by simp), hargs.wellFormed fun t ht => hs t (by simp [ht])⟩

theorem SpellsRule.wellFormed {s : List Located} {rule : Rule} (h : SpellsRule s rule)
    (hs : ∀ t ∈ s, t.token.Legible) : rule.WellFormed := by
  have effects : ∀ {u as}, u ⊆ s → Separated .comma SpellsAction u as →
      ∀ effect ∈ as, effect.WellFormed := by
    intro u as hsub h
    exact h.forall_mem fun v a hv ha => ha.wellFormed fun t ht => hs t (hsub (hv.subset ht))
  cases h with
  | always hintention heffects =>
    exact ⟨nofun, hintention.wellFormed fun t ht => hs t (by simp [ht]), heffects.ne_nil,
      effects (fun t ht => by simp [ht]) heffects⟩
  | guarded hcondition hintention heffects =>
    refine ⟨?_, hintention.wellFormed fun t ht => hs t (by simp [ht]), heffects.ne_nil,
      effects (fun t ht => by simp [ht]) heffects⟩
    rintro _ heq
    obtain rfl := Option.some.inj heq
    exact SpellsCondition.wellFormed hcondition fun t ht => hs t (by simp [ht])

theorem SpellsProgram.wellFormed {s : List Located} {program : Program}
    (h : SpellsProgram s program) (hs : ∀ t ∈ s, t.token.Legible) : program.WellFormed := by
  cases h with
  | rules hrules _ =>
    refine ⟨hrules.ne_nil, hrules.forall_mem fun u rule hu hrule => ?_⟩
    exact hrule.wellFormed fun t ht => hs t (by simp [hu.subset ht])

/-- **Every program that is read is well formed.** -/
theorem Program.wellFormed_of_read {limits : Limits} {text : String} {program : Program}
    (h : Program.read limits text = .ok program) : program.WellFormed := by
  obtain ⟨tokens, htokens, hspells⟩ := Program.spells_of_read h
  exact hspells.wellFormed (tokenize_legible htokens)

/-! ## Offsets -/

section Alike

variable {R : Nat → Nat → Prop}

theorem Condition.wellFormed_of_alike {c c' : Condition} (h : Condition.Alike R c c')
    (hc : Condition.WellFormed c) : Condition.WellFormed c' := by
  induction h with
  | atom h =>
    cases hc with
    | atom htest => cases h <;> exact .atom htest
  | group _ ih =>
    cases hc with
    | group hinner => exact .group (ih hinner)
  | chain op hl _ ihl ihr =>
    cases hc with
    | chain _ hleft hne hright =>
      refine .chain op (ihl hleft) ?_ (ihr hright)
      rintro l o r rfl
      cases hl
      exact hne _ _ _ rfl

theorem Action.wellFormed_of_alike {a a' : Action} (h : a.Alike R a') (ha : a.WellFormed) :
    a'.WellFormed :=
  ⟨h.name ▸ ha.name, h.args ▸ ha.args⟩

/-- What holds of the elements of one list holds of those of the other that they are related to. -/
theorem forall_mem_of_forall₂ {α β : Type} {S : α → β → Prop} {P : α → Prop} {Q : β → Prop}
    {as : List α} {bs : List β} (h : List.Forall₂ S as bs) (himp : ∀ a b, S a b → P a → Q b)
    (has : ∀ a ∈ as, P a) : ∀ b ∈ bs, Q b := by
  intro b hb
  obtain ⟨a, ha, hab⟩ := exists_of_forall₂ h.flip hb
  exact himp a b hab (has a ha)

theorem Rule.wellFormed_of_alike {rule rule' : Rule} (h : rule.Alike R rule')
    (hrule : rule.WellFormed) : rule'.WellFormed := by
  refine ⟨?_, Action.wellFormed_of_alike h.intention hrule.intention, ?_,
    forall_mem_of_forall₂ h.effects (fun _ _ => Action.wellFormed_of_alike) hrule.effects⟩
  · intro c' hc'
    have hcondition := h.condition
    rw [hc'] at hcondition
    cases hc : rule.condition with
    | none =>
      rw [hc] at hcondition
      cases hcondition
    | some c =>
      rw [hc] at hcondition
      cases hcondition with
      | some halike => exact Condition.wellFormed_of_alike halike (hrule.condition c hc)
  · intro hnil
    have heffects := h.effects
    rw [hnil, List.forall₂_nil_right_iff] at heffects
    exact hrule.some_effect heffects

/-- Whether a program is well formed does not depend on offsets. -/
theorem Program.wellFormed_of_alike {program program' : Program} (h : program.Alike R program')
    (hprogram : program.WellFormed) : program'.WellFormed := by
  refine ⟨?_, forall_mem_of_forall₂ h.rules (fun _ _ => Rule.wellFormed_of_alike) hprogram.rules⟩
  intro hnil
  have hrules := h.rules
  rw [hnil, List.forall₂_nil_right_iff] at hrules
  exact hprogram.some_rule hrules

end Alike

end CausalRules
