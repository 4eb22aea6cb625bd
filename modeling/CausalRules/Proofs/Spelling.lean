import CausalRules.Proofs.Grammar.WellFormed
import CausalRules.Proofs.Meaning
import CausalRules.Proofs.Script.Rendered

/-!
# What a program is spelled with

Names, numbers and literals are made of few characters. Only inline code may hold others, all but the
sign that ends it.

- `Arg.codes`, `Operand.codes`, `Rule.codes`, `Program.codes`: the inline code of a program.
- `IsSpelling`: the characters of names, numbers and literals. They are plain, and quoted as they are.
- `Program.WellFormed.hashless_codes`: the sign that ends inline code does not stand in it.
-/

namespace CausalRules

open Script (IsPlain)

/-! ## Inline code -/

mutual

/-- The inline code in an argument. -/
def Arg.codes : Arg → List String
  | .python code => [code]
  | .state args => argsCodes args
  | _ => []

/-- The inline code in some arguments. -/
def argsCodes : List Arg → List String
  | [] => []
  | arg :: args => arg.codes ++ argsCodes args

end

/-- The inline code in an operand. -/
def Operand.codes : Operand → List String
  | .value arg => arg.codes
  | .list items => argsCodes items
  | .all _ | .type _ => []

/-- The inline code in an action. -/
def Action.codes (action : Action) : List String :=
  argsCodes action.args

/-- The inline code in a rule. -/
def Rule.codes (rule : Rule) : List String :=
  rule.operands.flatMap Operand.codes ++
    (rule.intention.codes ++ rule.effects.flatMap Action.codes)

/-- The inline code in a program. -/
def Program.codes (program : Program) : List String :=
  program.rules.flatMap Rule.codes

theorem argsCodes_eq_flatMap (args : List Arg) : argsCodes args = args.flatMap Arg.codes := by
  induction args with
  | nil => rfl
  | cons arg args ih => rw [argsCodes, ih, List.flatMap_cons]

theorem mem_argsCodes {args : List Arg} {code : String} :
    code ∈ argsCodes args ↔ ∃ arg ∈ args, code ∈ arg.codes := by
  rw [argsCodes_eq_flatMap, List.mem_flatMap]

namespace Rule

variable {rule : Rule} {code : String}

theorem mem_operands {c : Condition} (hc : rule.condition = some c) {p : Predicate}
    (hp : p ∈ c.atoms) {operand : Operand} (hoperand : operand ∈ p.operands) :
    operand ∈ rule.operands := by
  rw [operands, hc]
  exact List.mem_flatMap.mpr ⟨p, hp, hoperand⟩

theorem mem_codes_of_operand {operand : Operand} (hoperand : operand ∈ rule.operands)
    (h : code ∈ operand.codes) : code ∈ rule.codes :=
  List.mem_append_left _ (List.mem_flatMap.mpr ⟨operand, hoperand, h⟩)

theorem mem_codes_of_effect {effect : Action} (heffect : effect ∈ rule.effects)
    (h : code ∈ effect.codes) : code ∈ rule.codes := by
  refine List.mem_append_right _ (List.mem_append_right _ ?_)
  exact List.mem_flatMap.mpr ⟨effect, heffect, h⟩

end Rule

/-! ## Names, numbers and literals -/

section Spelled

variable {P : Char → Prop} {text : String}

theorem IsName.over (h : IsName text) (hP : ∀ c, isWordChar c = true → P c) : Over P text := by
  obtain ⟨c, cs, hname, hc, hcs⟩ := h.shape
  rw [Over, hname, List.forall_mem_cons]
  refine ⟨hP c ?_, fun d hd => hP d (hcs d hd)⟩
  simp [isWordChar, Char.isAlphanum, hc]

/-- The character may stand in a name, a number or a literal. -/
def IsSpelling (c : Char) : Prop :=
  isWordChar c = true ∨ c = ' ' ∨ c = '.'

instance : DecidablePred IsSpelling := fun c =>
  inferInstanceAs (Decidable (isWordChar c = true ∨ c = ' ' ∨ c = '.'))

theorem IsSpelling.ne {c d : Char} (h : IsSpelling c) (hd : ¬ IsSpelling d) : c ≠ d := by
  rintro rfl
  exact hd h

theorem isPlain_of_isSpelling {c : Char} (h : IsSpelling c) : IsPlain c :=
  ⟨h.ne (by decide), h.ne (by decide)⟩

theorem isSpelling_of_isDigit {c : Char} (h : c.isDigit = true) : IsSpelling c := by
  refine .inl ?_
  simp [isWordChar, Char.isAlphanum, h]

theorem IsName.spelling (h : IsName text) : Over IsSpelling text :=
  h.over fun _ => .inl

theorem IsName.plain (h : IsName text) : Over IsPlain text :=
  h.spelling.mono fun _ => isPlain_of_isSpelling

theorem over_of_digits (h : ∀ c ∈ text.toList, c.isDigit = true) : Over IsSpelling text :=
  fun c hc => isSpelling_of_isDigit (h c hc)

theorem Number.WellFormed.spelling {n : Number} (h : n.WellFormed) : Over IsSpelling n.text := by
  rw [Number.text, over_append, over_append]
  refine ⟨⟨?_, ?_⟩, ?_⟩
  · split <;> decide
  · split
    · decide
    · exact over_of_digits h.whole
  · split
    · rename_i digits hdigits
      exact over_append.mpr ⟨by decide, over_of_digits (h.fraction digits hdigits).digits⟩
    · decide

theorem IsLiteralText.spelling (h : IsLiteralText text) : Over IsSpelling text := by
  rcases h with ⟨name, hname, rfl⟩ | hnumber
  · refine over_map hname.spelling fun c hc => ?_
    split
    · decide
    · exact hc
  · obtain ⟨n, hn, rfl⟩ := isNumberText_iff.mp hnumber
    exact hn.spelling

/-- A plain text is quoted by plain characters. -/
theorem over_quote_of_plain (h : Over IsPlain text) : Over IsPlain (Script.quote text) :=
  Script.over_quote (h.mono fun _ hc => hc.1)

/-- Names and literals are quoted as they are. -/
theorem over_quote_of_spelling (hP : ∀ c, IsSpelling c → P c) (hmark : P '\'')
    (h : Over IsSpelling text) : Over P (Script.quote text) := by
  rw [Script.quote, over_ofList, List.forall_mem_cons, List.forall_mem_append,
    List.forall_mem_singleton]
  refine ⟨hmark, fun d hd => ?_, hmark⟩
  obtain ⟨c, hc, hd⟩ := List.mem_flatMap.mp hd
  have hself : Script.quoteChar c = [c] := by
    unfold Script.quoteChar
    split
    · exact absurd (h _ hc) (by decide)
    · exact absurd (h _ hc) (by decide)
    · exact absurd (h _ hc) (by decide)
    · rfl
  rw [hself, List.mem_singleton] at hd
  exact hP d (hd ▸ h c hc)

/-- What constants are made of. -/
theorem over_of_constant? {arg : Arg} {value : Script.Constant} (hP : ∀ c, IsSpelling c → P c)
    (hmark : P '\'') (harg : arg.WellFormed) (h : arg.constant? = some value) :
    Over P value.render := by
  cases harg with
  | literal htext =>
    obtain rfl := Option.some.inj h
    exact over_quote_of_spelling hP hmark htext.spelling
  | number hnumber =>
    obtain rfl := Option.some.inj h
    exact hnumber.spelling.mono hP
  | _ => cases h

end Spelled

/-! ## Inline code of well-formed programs -/

section Hashless

variable {code : String}

theorem Arg.WellFormed.hashless_codes {arg : Arg} (h : arg.WellFormed) (hcode : code ∈ arg.codes) :
    Over (· ≠ '#') code := by
  induction h with
  | python h =>
    rw [Arg.codes, List.mem_singleton] at hcode
    subst hcode
    exact hashless_iff_over.mp h
  | state _ _ _ ih =>
    rw [Arg.codes] at hcode
    obtain ⟨arg, harg, hcode⟩ := mem_argsCodes.mp hcode
    exact ih arg harg hcode
  | _ => cases hcode

theorem ArgsWellFormed.hashless_codes {args : List Arg} (h : ArgsWellFormed args)
    (hcode : code ∈ argsCodes args) : Over (· ≠ '#') code := by
  obtain ⟨arg, harg, hcode⟩ := mem_argsCodes.mp hcode
  exact (h.each arg harg).hashless_codes hcode

theorem Operand.WellFormed.hashless_codes {operand : Operand} (h : operand.WellFormed)
    (hcode : code ∈ operand.codes) : Over (· ≠ '#') code := by
  cases h with
  | value harg => exact harg.hashless_codes hcode
  | list hitems => exact hitems.hashless_codes hcode
  | all | type => cases hcode

/-- The operands of a well-formed predicate are well formed. -/
theorem Predicate.WellFormed.operands {p : Predicate} (h : p.WellFormed) :
    ∀ operand ∈ p.operands, operand.WellFormed := by
  cases p with
  | compare =>
    obtain ⟨hleft, hright⟩ := h
    exact List.forall_mem_cons.mpr ⟨hleft, List.forall_mem_singleton.mpr hright⟩
  | bare => exact List.forall_mem_singleton.mpr h

/-- The predicates of a well-formed condition are well formed. -/
theorem Condition.WellFormed.atoms {c : Condition} (h : Condition.WellFormed c) :
    ∀ p ∈ c.atoms, p.WellFormed := by
  induction h with
  | atom hp => exact List.forall_mem_singleton.mpr hp
  | group _ ih => exact ih
  | chain _ _ _ _ ihl ihr => exact List.forall_mem_append.mpr ⟨ihl, ihr⟩

theorem Rule.WellFormed.operands {rule : Rule} (h : rule.WellFormed) :
    ∀ operand ∈ rule.operands, operand.WellFormed := by
  intro operand hoperand
  unfold Rule.operands at hoperand
  split at hoperand
  · rename_i c hc
    obtain ⟨p, hp, hoperand⟩ := List.mem_flatMap.mp hoperand
    exact ((h.condition c hc).atoms p hp).operands operand hoperand
  · cases hoperand

theorem Rule.WellFormed.hashless_codes {rule : Rule} (h : rule.WellFormed)
    (hcode : code ∈ rule.codes) : Over (· ≠ '#') code := by
  rw [Rule.codes, List.mem_append, List.mem_append, List.mem_flatMap, List.mem_flatMap] at hcode
  rcases hcode with ⟨operand, hoperand, hcode⟩ | hcode | ⟨effect, heffect, hcode⟩
  · exact (h.operands operand hoperand).hashless_codes hcode
  · exact h.intention.args.hashless_codes hcode
  · exact (h.effects effect heffect).args.hashless_codes hcode

/-- **Inline code ends where its last sign stands**, so the sign is not in it. -/
theorem Program.WellFormed.hashless_codes {program : Program} (h : program.WellFormed)
    (hcode : code ∈ program.codes) : Over (· ≠ '#') code := by
  obtain ⟨rule, hrule, hcode⟩ := List.mem_flatMap.mp hcode
  exact (h.rules rule hrule).hashless_codes hcode

end Hashless

end CausalRules
