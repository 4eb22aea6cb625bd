import CausalRules.Script.Literal
import CausalRules.Facility.Text
import CausalRules.Imitation.Text
import CausalRules.Proofs.Grammar.WellFormed
import CausalRules.Proofs.Meaning
import CausalRules.Proofs.Rule
import Mathlib.Data.Rat.Defs
import Mathlib.Tactic.NormNum

/-!
# The numbers of a script

A number stands in a script with the digits that it was written with. The script language reads
fewer digits than that: an integer must not begin with a zero, unless it has no other digits.

- `Numeral`: the texts that a script language reads as a number, each with its value.
- `Number.value`: the value of a number as written.
- `Number.WellFormed.eq_value`: a number's text is read as the number's value, if at all.
- `Number.WellFormed.exists_numeral_iff`: it is read unless it is an integer with a zero in front.
- `Program.HasNumber`: the unquoted numbers of a program, with `SpellsProgram.holdsNumber` for the
  tokens that they come from.
- `number_rendered`: the same for every number of every program that is read.
-/

namespace CausalRules

/-! ## Numerals -/

namespace Script

/-- The texts that are read as a number without a sign: integers that begin with a zero only when
they have no other digits, and any digits around a point, at least one of them. -/
inductive Magnitude : String → ℚ → Prop
  | integer {digits : String} : IsDigits digits →
      (∀ c ∈ digits.toList, c = '0') ∨ digits.toList.head? ≠ some '0' →
      Magnitude digits (decimalValue digits)
  | point {whole fraction : String} : (∀ c ∈ whole.toList, c.isDigit = true) →
      (∀ c ∈ fraction.toList, c.isDigit = true) → whole ≠ "" ∨ fraction ≠ "" →
      Magnitude (whole ++ "." ++ fraction)
        (decimalValue whole + decimalValue fraction / 10 ^ fraction.length)

/-- The texts that are read as a number, with a minus sign or none. -/
inductive Numeral : String → ℚ → Prop
  | positive {text : String} {value : ℚ} : Magnitude text value → Numeral text value
  | negative {text : String} {value : ℚ} : Magnitude text value → Numeral ("-" ++ text) (-value)

end Script

/-- The value of a number without its sign. -/
def Number.magnitude (n : Number) : ℚ :=
  decimalValue n.whole +
    match n.fraction with
    | some digits => decimalValue digits / 10 ^ digits.length
    | none => 0

/-- The value of a number: that of its digits, with its sign. -/
def Number.value (n : Number) : ℚ :=
  if n.negative then -n.magnitude else n.magnitude

/-- A number has a point, or no digit but zeros, or another digit than a zero in front. -/
def Number.Plain (n : Number) : Prop :=
  n.fraction ≠ none ∨ (∀ c ∈ n.whole.toList, c = '0') ∨ n.whole.toList.head? ≠ some '0'

open Script

/-! ## Reading a number's text -/

/-- The text of a number without its sign. -/
def Number.unsigned (n : Number) : String :=
  Number.text { n with negative := false }

section Reading

variable {n : Number} {text whole digits : String} {value : ℚ}

theorem Number.text_eq (n : Number) :
    n.text = (if n.negative then "-" else "") ++ n.unsigned := by
  simp [Number.text, Number.unsigned, String.append_assoc]

theorem Number.unsigned_of_none (h : n.fraction = none) : n.unsigned = n.written.whole := by
  simp [Number.unsigned, Number.text, Number.written, String.isEmpty_iff, h]

theorem Number.unsigned_of_some (h : n.fraction = some digits) :
    n.unsigned = n.written.whole ++ "." ++ digits := by
  simp [Number.unsigned, Number.text, Number.written, String.isEmpty_iff, String.append_assoc, h]

/-- The zero that is written for a missing whole part does not change the value. -/
theorem decimalValue_written (n : Number) :
    decimalValue n.written.whole = decimalValue n.whole := by
  unfold Number.written
  by_cases h : n.whole = ""
  · simp only [h, if_true]
    rfl
  · simp [h]

theorem magnitude_of_none (h : n.fraction = none) : n.magnitude = decimalValue n.whole := by
  simp [Number.magnitude, h]

theorem magnitude_of_some (h : n.fraction = some digits) :
    n.magnitude = decimalValue n.whole + decimalValue digits / 10 ^ digits.length := by
  simp [Number.magnitude, h]

theorem point_not_mem (h : ∀ c ∈ text.toList, c.isDigit = true) : '.' ∉ text.toList :=
  fun hmem => nomatch h '.' hmem

theorem minus_not_mem (h : ∀ c ∈ text.toList, c.isDigit = true) : '-' ∉ text.toList :=
  fun hmem => nomatch h '-' hmem

/-- There is one way to split a text at its only point. -/
theorem append_point_inj {whole' digits' : String} (hwhole : '.' ∉ whole.toList)
    (hdigits : '.' ∉ digits.toList) (h : whole ++ "." ++ digits = whole' ++ "." ++ digits') :
    whole = whole' ∧ digits = digits' := by
  have hlist : whole.toList ++ '.' :: digits.toList = whole'.toList ++ '.' :: digits'.toList := by
    simpa using congrArg String.toList h
  obtain ⟨hleft, -, hright⟩ := (List.append_cons_inj_of_notMem hwhole hdigits).mp hlist
  exact ⟨String.toList_inj.mp hleft, String.toList_inj.mp hright⟩

theorem Script.Magnitude.minus_not_mem (h : Magnitude text value) : '-' ∉ text.toList := by
  cases h with
  | integer hdigits _ => exact CausalRules.minus_not_mem hdigits.digits
  | point hwhole hfraction _ =>
    simp [CausalRules.minus_not_mem hwhole, CausalRules.minus_not_mem hfraction]

namespace Number.WellFormed

theorem minus_not_mem_unsigned (hn : n.WellFormed) : '-' ∉ n.unsigned.toList := by
  have hwhole := minus_not_mem hn.written_whole.digits
  cases hfraction : n.fraction with
  | none => rwa [unsigned_of_none hfraction]
  | some digits =>
    simp [unsigned_of_some hfraction, hwhole, minus_not_mem (hn.fraction digits hfraction).digits]

/-- The sign of a number is read as a sign. -/
theorem numeral_text_iff (hn : n.WellFormed) :
    Numeral n.text value ↔
      ∃ m, Magnitude n.unsigned m ∧ value = if n.negative then -m else m := by
  rw [Number.text_eq]
  constructor
  · generalize htext : (if n.negative then "-" else "") ++ n.unsigned = text
    intro h
    cases hnegative : n.negative with
    | false =>
      replace htext : n.unsigned = text := by simpa [hnegative] using htext
      cases h with
      | positive hm => exact ⟨value, htext ▸ hm, rfl⟩
      | negative hm => exact absurd (by simp [htext]) hn.minus_not_mem_unsigned
    | true =>
      cases h with
      | positive hm => exact absurd (by simp [← htext, hnegative]) hm.minus_not_mem
      | @negative rest m hm =>
        obtain rfl : n.unsigned = rest := by simpa [hnegative] using htext
        exact ⟨m, hm, rfl⟩
  · rintro ⟨m, hm, rfl⟩
    cases n.negative with
    | false => simpa using Numeral.positive hm
    | true => simpa using Numeral.negative hm

/-- The digits of a number are read as their value. -/
theorem eq_magnitude (hn : n.WellFormed) (h : Magnitude n.unsigned value) :
    value = n.magnitude := by
  have hwhole := point_not_mem hn.written_whole.digits
  generalize htext : n.unsigned = text at h
  cases hfraction : n.fraction with
  | none =>
    rw [unsigned_of_none hfraction] at htext
    cases h with
    | integer _ _ => rw [magnitude_of_none hfraction, ← decimalValue_written, htext]
    | point _ _ _ => exact absurd (by simp [htext]) hwhole -- the text has no point
  | some digits =>
    rw [unsigned_of_some hfraction] at htext
    cases h with
    | integer hdigits _ => exact absurd (by simp [← htext]) (point_not_mem hdigits.digits)
    | @point whole' digits' hwhole' hdigits' _ =>
      have hdigits := point_not_mem (hn.fraction digits hfraction).digits
      obtain ⟨rfl, rfl⟩ := append_point_inj hwhole hdigits htext
      rw [magnitude_of_some hfraction, decimalValue_written]

/-- The text of a number is read as its value, if it is read. -/
theorem eq_value (hn : n.WellFormed) (h : Numeral n.text value) : value = n.value := by
  obtain ⟨m, hm, rfl⟩ := hn.numeral_text_iff.mp h
  rw [hn.eq_magnitude hm]
  rfl

/-- The digits of a number are read unless they are those of an integer with a zero in front. -/
theorem exists_magnitude_iff (hn : n.WellFormed) :
    (∃ value, Magnitude n.unsigned value) ↔ n.Plain := by
  cases hfraction : n.fraction with
  | some digits =>
    have hdigits := hn.fraction digits hfraction
    rw [unsigned_of_some hfraction]
    refine iff_of_true ⟨_, .point hn.written_whole.digits hdigits.digits (.inr hdigits.ne_empty)⟩ ?_
    exact .inl (by simp [hfraction])
  | none =>
    have hne : n.whole ≠ "" := hn.some_digit.resolve_right fun h => h hfraction
    have hwritten : n.written.whole = n.whole := by simp [Number.written, hne]
    rw [unsigned_of_none hfraction, hwritten]
    constructor
    · rintro ⟨value, h⟩
      generalize htext : n.whole = text at h
      cases h with
      | integer _ hplain => exact .inr (htext ▸ hplain)
      | point _ _ _ => exact absurd (by simp [htext]) (point_not_mem hn.whole)
    · intro h
      exact ⟨_, .integer ⟨hne, hn.whole⟩ (h.resolve_left fun h => h hfraction)⟩

/-- The text of a number is read unless it is an integer with a zero in front. -/
theorem exists_numeral_iff (hn : n.WellFormed) : (∃ value, Numeral n.text value) ↔ n.Plain := by
  rw [← hn.exists_magnitude_iff]
  constructor
  · rintro ⟨value, h⟩
    obtain ⟨m, hm, -⟩ := hn.numeral_text_iff.mp h
    exact ⟨m, hm⟩
  · rintro ⟨m, hm⟩
    exact ⟨_, hn.numeral_text_iff.mpr ⟨m, hm, rfl⟩⟩

end Number.WellFormed

end Reading

/-! ## The numbers of a program -/

/-- An argument is a number, or a state that holds it. -/
inductive Arg.HasNumber (n : Number) : Arg → Prop
  | self : Arg.HasNumber n (.number n)
  | state {args : List Arg} {arg : Arg} :
      arg ∈ args → Arg.HasNumber n arg → Arg.HasNumber n (.state args)

/-- An operand is a number, or a list that holds it. -/
inductive Operand.HasNumber (n : Number) : Operand → Prop
  | value {arg : Arg} : arg.HasNumber n → Operand.HasNumber n (.value arg)
  | list {items : List Arg} {item : Arg} :
      item ∈ items → item.HasNumber n → Operand.HasNumber n (.list items)

/-- A program holds a number among the arguments of an action, or in a condition. -/
def Program.HasNumber (program : Program) (n : Number) : Prop :=
  ∃ rule ∈ program.rules,
    (∃ operand ∈ rule.operands, operand.HasNumber n) ∨
      ∃ action ∈ rule.intention :: rule.effects, ∃ arg ∈ action.args, arg.HasNumber n

/-- Some of the tokens, next to each other, spell a number. -/
def HoldsNumber (s : List Located) (n : Number) : Prop :=
  ∃ u, u <:+: s ∧ SpellsNumber u n

section Numbers

variable {n : Number} {s u : List Located}

theorem HoldsNumber.mono (h : HoldsNumber u n) (hus : u <:+: s) : HoldsNumber s n := by
  obtain ⟨v, hv, hn⟩ := h
  exact ⟨v, hv.trans hus, hn⟩

/-- Each of the items with a separator is spelled by some of the tokens. -/
theorem Separated.exists_isInfix {α : Type} {separator : Token} {Item : List Located → α → Prop}
    {as : List α} (h : Separated separator Item s as) :
    ∀ a ∈ as, ∃ u, u <:+: s ∧ Item u a :=
  h.forall_mem fun u _ hu ha => ⟨u, hu, ha⟩

theorem SpellsArg.holdsNumber {arg : Arg} (h : SpellsArg s arg) (hn : arg.HasNumber n) :
    HoldsNumber s n := by
  induction hn generalizing s with
  | self =>
    cases h with
    | number h => exact ⟨s, List.infix_rfl, h⟩
  | state hmem _ ih =>
    cases h with
    | @state inner _ p q r hargs _ =>
      obtain ⟨u, hu, harg⟩ := hargs.exists_isInfix _ hmem
      refine (ih harg).mono (hu.trans ?_)
      exact ⟨[⟨.stateWord, p⟩, ⟨.openParen, q⟩], [⟨.closeParen, r⟩], by simp⟩

theorem SpellsArgs.holdsNumber {args : List Arg} (h : SpellsArgs s args) {arg : Arg}
    (hmem : arg ∈ args) (hn : arg.HasNumber n) : HoldsNumber s n := by
  obtain ⟨u, hu, harg⟩ := h.1.exists_isInfix arg hmem
  exact (harg.holdsNumber hn).mono hu

theorem SpellsOperand.holdsNumber {operand : Operand} (h : SpellsOperand s operand)
    (hn : operand.HasNumber n) : HoldsNumber s n := by
  cases hn with
  | value hn =>
    cases h with
    | value harg _ => exact harg.holdsNumber hn
  | list hmem hn =>
    cases h with
    | empty => cases hmem
    | @list inner _ p q hitems =>
      exact (hitems.holdsNumber hmem hn).mono ⟨[⟨.openBracket, p⟩], [⟨.closeBracket, q⟩], by simp⟩

theorem SpellsPredicate.holdsNumber {test : Predicate} (h : SpellsPredicate s test)
    {operand : Operand} (hmem : operand ∈ test.operands) (hn : operand.HasNumber n) :
    HoldsNumber s n := by
  cases h with
  | bare hoperand =>
    obtain rfl := List.mem_singleton.mp hmem
    exact hoperand.holdsNumber hn
  | @compare t left right _ _ p op hleft hright =>
    rcases List.mem_pair.mp hmem with rfl | rfl
    · exact (hleft.holdsNumber hn).mono ⟨[], ⟨op.token, p⟩ :: right, by simp⟩
    · exact (hright.holdsNumber hn).mono ⟨t :: left ++ [⟨op.token, p⟩], [], by simp⟩

/-- The tests of a condition are spelled by parts of its tokens. -/
theorem SpellsCondition.exists_isInfix {c : Condition} (h : SpellsCondition s c) :
    ∀ test ∈ c.atoms, ∃ u, u <:+: s ∧ SpellsPredicate u test := by
  induction c generalizing s with
  | atom test =>
    intro test' hmem
    obtain rfl := List.mem_singleton.mp hmem
    cases h with
    | last hitem =>
      cases hitem with
      | test htest => exact ⟨s, List.infix_rfl, htest⟩
  | group inner ih =>
    intro test hmem
    cases h with
    | last hitem =>
      cases hitem with
      | @group inside _ p q hinner =>
        obtain ⟨u, hu, htest⟩ := ih hinner test hmem
        exact ⟨u, hu.trans ⟨[⟨.openParen, p⟩], [⟨.closeParen, q⟩], by simp⟩, htest⟩
  | chain left op right ihleft ihright =>
    intro test hmem
    cases h with
    -- an item is no chain, so there is a connective among the tokens
    | last hitem => exact absurd rfl (hitem.ne_chain left op right)
    | @more before after _ _ p _ hleft hright =>
      rcases List.mem_append.mp hmem with hmem | hmem
      · obtain ⟨u, hu, htest⟩ := ihleft (.last hleft) test hmem
        exact ⟨u, hu.trans (List.prefix_append _ _).isInfix, htest⟩
      · obtain ⟨u, hu, htest⟩ := ihright hright test hmem
        exact ⟨u, hu.trans ⟨before ++ [⟨op.token, p⟩], [], by simp⟩, htest⟩

theorem SpellsAction.holdsNumber {action : Action} (h : SpellsAction s action) {arg : Arg}
    (hmem : arg ∈ action.args) (hn : arg.HasNumber n) : HoldsNumber s n := by
  cases h with
  | plain => cases hmem
  | @applied inside _ p q r name hargs =>
    exact (hargs.holdsNumber hmem hn).mono
      ⟨[⟨.ident name, p⟩, ⟨.openParen, q⟩], [⟨.closeParen, r⟩], by simp⟩

/-- Where the intention and the effects of a rule are spelled, their numbers are. -/
theorem holdsNumber_of_actions {intention : Action} {effects : List Action}
    (hintention : ∃ v, v <:+: s ∧ SpellsAction v intention)
    (heffects : ∃ v, v <:+: s ∧ Separated .comma SpellsAction v effects)
    (h : ∃ action ∈ intention :: effects, ∃ arg ∈ action.args, arg.HasNumber n) :
    HoldsNumber s n := by
  obtain ⟨action, haction, arg, harg, hn⟩ := h
  rcases List.mem_cons.mp haction with rfl | haction
  · obtain ⟨v, hv, hspells⟩ := hintention
    exact (hspells.holdsNumber harg hn).mono hv
  · obtain ⟨v, hv, hspells⟩ := heffects
    obtain ⟨u, hu, hspells⟩ := hspells.exists_isInfix action haction
    exact (hspells.holdsNumber harg hn).mono (hu.trans hv)

theorem SpellsRule.holdsNumber {rule : Rule} (h : SpellsRule s rule)
    (hn : (∃ operand ∈ rule.operands, operand.HasNumber n) ∨
      ∃ action ∈ rule.intention :: rule.effects, ∃ arg ∈ action.args, arg.HasNumber n) :
    HoldsNumber s n := by
  cases h with
  | @always before after intention effects p hintention heffects =>
    rcases hn with ⟨operand, hmem, -⟩ | hn
    · cases hmem
    · exact holdsNumber_of_actions ⟨before, (List.prefix_append _ _).isInfix, hintention⟩
        ⟨after, ⟨before ++ [⟨.causes, p⟩], [], by simp⟩, heffects⟩ hn
  | @guarded c before after condition intention effects p q r o m hcondition hintention heffects =>
    rcases hn with ⟨operand, hmem, hn⟩ | hn
    · obtain ⟨test, htest, hoperand⟩ := List.mem_flatMap.mp hmem
      obtain ⟨u, hu, hspells⟩ := SpellsCondition.exists_isInfix hcondition test htest
      refine (hspells.holdsNumber hoperand hn).mono (hu.trans ?_)
      exact ⟨[⟨.ifWord, p⟩, ⟨.openParen, q⟩],
        ⟨.closeParen, r⟩ :: ⟨.colon, o⟩ :: (before ++ ⟨.causes, m⟩ :: after), by simp⟩
    · refine holdsNumber_of_actions ⟨before, ?_, hintention⟩ ⟨after, ?_, heffects⟩ hn
      · exact ⟨⟨.ifWord, p⟩ :: ⟨.openParen, q⟩ :: (c ++ [⟨.closeParen, r⟩, ⟨.colon, o⟩]),
          ⟨.causes, m⟩ :: after, by simp⟩
      · exact ⟨⟨.ifWord, p⟩ :: ⟨.openParen, q⟩ :: (c ++ ⟨.closeParen, r⟩ :: ⟨.colon, o⟩ ::
          (before ++ [⟨.causes, m⟩])), [], by simp⟩

/-- The numbers of a program are spelled by its tokens. -/
theorem SpellsProgram.holdsNumber {program : Program} (h : SpellsProgram s program)
    (hn : program.HasNumber n) : HoldsNumber s n := by
  cases h with
  | @rules before after rules p q r e hrules _ =>
    obtain ⟨rule, hmem, hn⟩ := hn
    obtain ⟨u, hu, hspells⟩ := hrules.exists_isInfix rule hmem
    refine (hspells.holdsNumber hn).mono (hu.trans ?_)
    exact ⟨[⟨.rulesWord, p⟩, ⟨.openBrace, q⟩], after ++ [⟨.closeBrace, r⟩, ⟨.endOfInput, e⟩],
      by simp⟩

end Numbers

/-- **Numbers keep their values.** An unquoted number of a program that was read comes from tokens
that spell it. In a script it is read as the value that it has as written, if it is read at all. It
is, unless it is an integer with a zero in front of other digits. -/
theorem number_rendered {limits : Limits} {text : String} {program : Program}
    (h : Program.read limits text = .ok program) {n : Number} (hn : program.HasNumber n) :
    (∃ tokens, tokenize text = .ok tokens ∧ HoldsNumber tokens n) ∧
      ∃ constant, (Arg.number n).constant? = some constant ∧
        ((∃ value, Numeral constant.render value) ↔ n.Plain) ∧
        ∀ value, Numeral constant.render value → value = n.value := by
  obtain ⟨tokens, htokens, hspells⟩ := Program.spells_of_read h
  have hholds := hspells.holdsNumber hn
  have hwf : n.WellFormed := by
    obtain ⟨s, hs, hnumber⟩ := hholds
    exact hnumber.wellFormed fun t ht => tokenize_legible htokens t (hs.subset ht)
  exact ⟨⟨tokens, htokens, hholds⟩, .number n, rfl, hwf.exists_numeral_iff, fun _ => hwf.eq_value⟩

/-- A rule with a number that begins with its point, and a negative one. -/
def coolingText : String := "RULES\x7bif(x=.50):cool(x):=set(x,-12)\x7d"

/-- The rule of `coolingText`. -/
def cooling : Rule where
  condition := some (.atom
    (.compare (.value (.variable "x")) .equal (.value (.number ⟨false, "", some "50"⟩)) 9))
  intention := ⟨"cool", [.variable "x"], 16⟩
  effects := [⟨"set", [.variable "x", .number ⟨true, "12", none⟩], 25⟩]
  position := 6

/-- The numbers of the rule are read as a half and as minus twelve. -/
theorem cooling_rendered :
    Program.read ⟨60, 1⟩ coolingText = .ok ⟨[cooling]⟩ ∧
      (Program.HasNumber ⟨[cooling]⟩ ⟨false, "", some "50"⟩ ∧ Numeral "0.50" (1 / 2)) ∧
        Program.HasNumber ⟨[cooling]⟩ ⟨true, "12", none⟩ ∧ Numeral "-12" (-12) := by
  have hread : Program.read ⟨60, 1⟩ coolingText = .ok ⟨[cooling]⟩ := by decide +kernel
  have hhalf : Program.HasNumber ⟨[cooling]⟩ ⟨false, "", some "50"⟩ :=
    ⟨cooling, by simp, .inl ⟨_, List.mem_cons_of_mem _ (List.mem_singleton_self _), .value .self⟩⟩
  have htwelve : Program.HasNumber ⟨[cooling]⟩ ⟨true, "12", none⟩ :=
    ⟨cooling, by simp, .inr ⟨_, List.mem_cons_of_mem _ (List.mem_singleton_self _), _,
      List.mem_cons_of_mem _ (List.mem_singleton_self _), .self⟩⟩
  obtain ⟨-, _, ⟨⟩, hreads, hvalue⟩ := number_rendered hread hhalf
  obtain ⟨-, _, ⟨⟩, hreads', hvalue'⟩ := number_rendered hread htwelve
  obtain ⟨half, h⟩ := hreads.mpr (.inl (Option.some_ne_none _))
  obtain ⟨twelve, h'⟩ := hreads'.mpr (.inr (.inr (by decide)))
  obtain rfl : half = 1 / 2 := by
    have hfifty : decimalValue "50" = 50 := rfl
    have hnone : decimalValue "" = 0 := rfl
    rw [hvalue half h]
    have hlength : "50".length = 2 := by decide
    simp only [Number.value, Bool.false_eq_true, if_false]
    rw [magnitude_of_some rfl, hfifty, hnone, hlength]
    norm_num
  obtain rfl : twelve = -12 := by
    have hdigits : decimalValue "12" = 12 := rfl
    rw [hvalue' twelve h']
    simp [Number.value, magnitude_of_none, hdigits]
  exact ⟨hread, ⟨hhalf, h⟩, htwelve, h'⟩

/-- A number that begins with zeros. -/
def agentNumber : Number :=
  ⟨false, "007", none⟩

/-- A rule with that number where a target writes it. -/
def agentText : Target → String
  | .facility => "RULES\x7bm(007):=f()\x7d"
  | .imitation => "RULES\x7bm():=f(007)\x7d"

/-- The rule of `agentText`. -/
def agent : Target → Rule
  | .facility => ⟨none, ⟨"m", [.number agentNumber], 6⟩, [⟨"f", [], 14⟩], 6⟩
  | .imitation => ⟨none, ⟨"m", [], 6⟩, [⟨"f", [.number agentNumber], 11⟩], 6⟩

/-- Both targets write the zeros, and what they write is no number. -/
theorem agent_unreadable :
    (∀ target, Program.read ⟨60, 1⟩ (agentText target) = .ok ⟨[agent target]⟩ ∧
      Program.HasNumber ⟨[agent target]⟩ agentNumber) ∧
    (Facility.Domain.ofProgram ⟨[agent .facility]⟩).toOption = some
      ⟨"    if actions == ('f',):\n        g.add((states[0],'m',(007, )))\n", 1⟩ ∧
    (Imitation.methodsText ⟨[agent .imitation]⟩).toOption = some
      ("def m(state):\n    __ret_val = [('f',007)]\n    return __ret_val\n" ++
        "pyhop.declare_methods('m',m)\n") ∧
    ∀ value, ¬Numeral agentNumber.text value := by
  have hwf : agentNumber.WellFormed := ⟨List.all_eq_true.mp rfl, nofun, .inl (by decide)⟩
  have hplain : ¬agentNumber.Plain := by
    rintro (h | h | h)
    · exact h rfl
    · exact absurd (h '7' (by decide)) (by decide)
    · exact h rfl
  refine ⟨fun target => ?_, by decide +kernel, by decide +kernel, fun value h => ?_⟩
  · cases target with
    | facility => exact ⟨by decide +kernel, agent .facility, by simp, .inr ⟨_, List.mem_cons_self .., _,
        List.mem_singleton_self _, .self⟩⟩
    | imitation => exact ⟨by decide +kernel, agent .imitation, by simp, .inr ⟨_, List.mem_cons_of_mem _
        (List.mem_singleton_self _), _, List.mem_singleton_self _, .self⟩⟩
  · exact hplain (hwf.exists_numeral_iff.mp ⟨value, h⟩)

end CausalRules
