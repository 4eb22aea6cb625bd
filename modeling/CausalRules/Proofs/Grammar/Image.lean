import CausalRules.Proofs.Grammar.Completeness
import CausalRules.Proofs.Grammar.WellFormed

/-!
# Which programs can be read

Every well-formed program has a text that is read as it, but for offsets: its tokens, printed with a
space after each. With `Program.wellFormed_of_read` this says exactly which programs reading gives.

- `Token.Printable`: legible tokens other than the end of the input. The tokens of a well-formed
  program are printable.
- `spellsArg_of_tokens`, `spellsCondition_of_tokens`, `spellsRule_of_tokens`,
  `spellsProgram_of_tokens`: located tokens that are those of a well-formed part spell it.
- `Program.text`: the text of a program.
- `Program.wellFormed_iff_exists_text`: exactly the well-formed programs are read from some text.
-/

namespace CausalRules

/-! ## Printable tokens -/

/-- The tokens that can be printed and read again. -/
def Token.Printable (t : Token) : Prop :=
  t.Legible ∧ t ≠ .endOfInput

/-- What holds of a separator and of the elements of lists holds of all that is between or in
them. -/
theorem forall_mem_intercalate {α : Type} {P : α → Prop} {separator : α} {ls : List (List α)}
    (hseparator : P separator) (h : ∀ l ∈ ls, ∀ a ∈ l, P a) :
    ∀ a ∈ [separator].intercalate ls, P a := by
  induction ls with
  | nil => exact nofun
  | cons l ls ih =>
    obtain ⟨hl, hls⟩ := List.forall_mem_cons.mp h
    by_cases hne : ls = []
    · subst hne
      simpa using hl
    · rw [List.intercalate_cons_of_ne_nil hne, List.append_assoc]
      simp only [List.forall_mem_append, List.forall_mem_singleton]
      exact ⟨hl, hseparator, ih hls⟩

section Printable

theorem Number.WellFormed.printable {n : Number} (h : n.WellFormed) :
    ∀ t ∈ n.tokens, t.Printable := by
  have hwhole : n.whole ≠ "" → (Token.digits n.whole).Printable := fun hne =>
    ⟨⟨hne, h.whole⟩, Token.noConfusion⟩
  have hfraction : ∀ fraction, n.fraction = some fraction →
      (Token.digits fraction).Printable := fun fraction heq =>
    ⟨h.fraction fraction heq, Token.noConfusion⟩
  unfold Number.tokens
  simp only [List.forall_mem_append]
  refine ⟨⟨?_, ?_⟩, ?_⟩
  · split
    · exact List.forall_mem_singleton.mpr ⟨trivial, Token.noConfusion⟩
    · exact List.forall_mem_nil _
  · split
    · exact List.forall_mem_nil _
    · rename_i hne
      exact List.forall_mem_singleton.mpr (hwhole hne)
  · cases hcase : n.fraction with
    | none => exact List.forall_mem_nil _
    | some fraction =>
      exact List.forall_mem_cons.mpr ⟨⟨trivial, Token.noConfusion⟩,
        List.forall_mem_singleton.mpr (hfraction fraction hcase)⟩

theorem Number.WellFormed.written {n : Number} (h : n.WellFormed) : n.written.WellFormed :=
  ⟨h.written_whole.digits, h.fraction, .inl h.written_whole.ne_empty⟩

theorem Number.text_written (n : Number) : n.written.text = n.text := by
  by_cases h : n.whole = "" <;> simp [Number.text, Number.written, h]

/-- What stands between the quotes of a literal: a name, or a number with its whole part. -/
theorem exists_of_isLiteralText {text : String} (h : IsLiteralText text) :
    (∃ name, IsName name ∧ text = literalText name ∧ literalTokens text.toList = [.ident name]) ∨
      ∃ n : Number, n.WellFormed ∧ text = n.text ∧ literalTokens text.toList = n.tokens := by
  rcases h with ⟨name, hname, rfl⟩ | hnumber
  · have hlexical : (Token.ident name).Lexical := hname.shape
    exact .inl ⟨name, hname, rfl, literalTokens_name hlexical⟩
  · obtain ⟨n, hn, rfl⟩ := isNumberText_iff.mp hnumber
    exact .inr ⟨n.written, hn.written, n.text_written.symm, literalTokens_number hn.whole⟩

theorem printable_literalTokens {text : String} (h : IsLiteralText text) :
    ∀ t ∈ literalTokens text.toList, t.Printable := by
  rcases exists_of_isLiteralText h with ⟨name, hname, -, htokens⟩ | ⟨n, hn, -, htokens⟩
  · rw [htokens]
    exact List.forall_mem_singleton.mpr ⟨hname, Token.noConfusion⟩
  · rw [htokens]
    exact hn.printable

theorem isDigit_toString (n : Nat) : ∀ c ∈ (toString n).toList, c.isDigit = true := by
  intro c hc
  rw [Nat.toString_eq_ofList_toDigits, String.toList_ofList] at hc
  exact Nat.isDigit_of_mem_toDigits (by omega) (by omega) hc

theorem Arg.WellFormed.printable {arg : Arg} (h : arg.WellFormed) :
    ∀ t ∈ arg.tokens, t.Printable := by
  induction h with
  | «variable» hname => exact List.forall_mem_singleton.mpr ⟨hname, Token.noConfusion⟩
  | literal htext =>
    rw [Arg.tokens]
    simp only [List.forall_mem_cons, List.forall_mem_append]
    exact ⟨⟨trivial, Token.noConfusion⟩, printable_literalTokens htext,
      ⟨trivial, Token.noConfusion⟩, List.forall_mem_nil _⟩
  | number hn => exact hn.printable
  | continuation => exact List.forall_mem_singleton.mpr ⟨isDigit_toString _, Token.noConfusion⟩
  | @state args _ _ _ ih =>
    rw [Arg.tokens, Arg.listTokens_eq_map]
    have hargs : ∀ t ∈ [Token.comma].intercalate (args.map Arg.tokens), t.Printable :=
      forall_mem_intercalate ⟨trivial, Token.noConfusion⟩ (List.forall_mem_map.mpr ih)
    simp only [List.forall_mem_cons, List.forall_mem_append]
    exact ⟨⟨trivial, Token.noConfusion⟩, ⟨trivial, Token.noConfusion⟩, hargs,
      ⟨trivial, Token.noConfusion⟩, List.forall_mem_nil _⟩
  | python hcode => exact List.forall_mem_singleton.mpr ⟨hcode, Token.noConfusion⟩

theorem ArgsWellFormed.printable {args : List Arg} (h : ArgsWellFormed args) :
    ∀ t ∈ argsTokens args, t.Printable :=
  forall_mem_intercalate ⟨trivial, Token.noConfusion⟩
    (List.forall_mem_map.mpr fun arg harg => (h.each arg harg).printable)

theorem Operand.WellFormed.printable {operand : Operand} (h : operand.WellFormed) :
    ∀ t ∈ operand.tokens, t.Printable := by
  cases h with
  | value harg _ => exact harg.printable
  | all hname | type hname =>
    simp only [Operand.tokens, List.forall_mem_cons]
    exact ⟨⟨trivial, Token.noConfusion⟩, ⟨trivial, Token.noConfusion⟩, ⟨hname, Token.noConfusion⟩,
      ⟨trivial, Token.noConfusion⟩, List.forall_mem_nil _⟩
  | list hitems =>
    simp only [Operand.tokens, List.forall_mem_cons, List.forall_mem_append]
    exact ⟨⟨trivial, Token.noConfusion⟩, hitems.printable, ⟨trivial, Token.noConfusion⟩,
      List.forall_mem_nil _⟩

theorem Comparison.printable_token (op : Comparison) : op.token.Printable := by
  cases op <;> exact ⟨trivial, Token.noConfusion⟩

theorem Connective.printable_token (op : Connective) : op.token.Printable := by
  cases op <;> exact ⟨trivial, Token.noConfusion⟩

theorem Predicate.WellFormed.printable {test : Predicate} (h : test.WellFormed) :
    ∀ t ∈ test.tokens, t.Printable := by
  cases test with
  | compare left op right _ =>
    obtain ⟨hleft, hright⟩ := h
    simp only [Predicate.tokens, List.forall_mem_append, List.forall_mem_cons]
    exact ⟨hleft.printable, op.printable_token, hright.printable⟩
  | bare operand _ => exact Operand.WellFormed.printable h

theorem Condition.WellFormed.printable {c : Condition} (h : Condition.WellFormed c) :
    ∀ t ∈ conditionTokens c, t.Printable := by
  induction h with
  | atom htest => exact htest.printable
  | group _ ih =>
    simp only [conditionTokens, List.forall_mem_append, List.forall_mem_cons]
    exact ⟨⟨trivial, Token.noConfusion⟩, ih, ⟨trivial, Token.noConfusion⟩, List.forall_mem_nil _⟩
  | chain op _ _ _ ihl ihr =>
    simp only [conditionTokens, List.forall_mem_append, List.forall_mem_cons]
    exact ⟨ihl, op.printable_token, ihr⟩

theorem Action.WellFormed.printable {action : Action} (h : action.WellFormed) :
    ∀ t ∈ action.tokens, t.Printable := by
  simp only [Action.tokens, List.forall_mem_append, List.forall_mem_cons]
  exact ⟨⟨h.name, Token.noConfusion⟩, ⟨trivial, Token.noConfusion⟩, h.args.printable,
    ⟨trivial, Token.noConfusion⟩, List.forall_mem_nil _⟩

theorem Rule.WellFormed.printable {rule : Rule} (h : rule.WellFormed) :
    ∀ t ∈ rule.tokens, t.Printable := by
  have hguard : ∀ t ∈ guardTokens rule.condition, t.Printable := by
    cases hc : rule.condition with
    | none => exact List.forall_mem_nil _
    | some c =>
      simp only [guardTokens, List.forall_mem_append, List.forall_mem_cons]
      exact ⟨⟨trivial, Token.noConfusion⟩, ⟨trivial, Token.noConfusion⟩,
        (h.condition c hc).printable, ⟨trivial, Token.noConfusion⟩,
        ⟨trivial, Token.noConfusion⟩, List.forall_mem_nil _⟩
  have heffects : ∀ t ∈ [Token.comma].intercalate (rule.effects.map Action.tokens),
      t.Printable :=
    forall_mem_intercalate ⟨trivial, Token.noConfusion⟩
      (List.forall_mem_map.mpr fun effect heffect => (h.effects effect heffect).printable)
  simp only [Rule.tokens, List.forall_mem_append, List.forall_mem_cons]
  exact ⟨hguard, h.intention.printable, ⟨trivial, Token.noConfusion⟩, heffects⟩

/-- The tokens of a program without the end of the input. -/
def Program.writtenTokens (program : Program) : List Token :=
  .rulesWord :: .openBrace ::
    ([.semicolon].intercalate (program.rules.map Rule.tokens) ++ [.closeBrace])

theorem Program.WellFormed.printable {program : Program} (h : program.WellFormed) :
    ∀ t ∈ program.writtenTokens, t.Printable := by
  have hrules : ∀ t ∈ [Token.semicolon].intercalate (program.rules.map Rule.tokens),
      t.Printable :=
    forall_mem_intercalate ⟨trivial, Token.noConfusion⟩
      (List.forall_mem_map.mpr fun rule hrule => (h.rules rule hrule).printable)
  simp only [Program.writtenTokens, List.forall_mem_append, List.forall_mem_cons]
  exact ⟨⟨trivial, Token.noConfusion⟩, ⟨trivial, Token.noConfusion⟩, hrules,
    ⟨trivial, Token.noConfusion⟩, List.forall_mem_nil _⟩

end Printable

/-! ## Tokens spell what they are the tokens of -/

section Spelled

variable {s : List Located}

theorem exists_cons_of_map_token {t : Token} {ts : List Token}
    (h : s.map Located.token = t :: ts) : ∃ p u, s = ⟨t, p⟩ :: u ∧ u.map Located.token = ts := by
  obtain ⟨first, u, rfl, rfl, rfl⟩ := List.map_eq_cons_iff.mp h
  exact ⟨first.position, u, rfl, rfl⟩

theorem exists_append_cons_of_map_token {ts us : List Token} {t : Token}
    (h : s.map Located.token = ts ++ t :: us) : ∃ v p u, s = v ++ ⟨t, p⟩ :: u ∧
      v.map Located.token = ts ∧ u.map Located.token = us := by
  obtain ⟨v, w, rfl, hv, hw⟩ := List.map_eq_append_iff.mp h
  obtain ⟨p, u, rfl, hu⟩ := exists_cons_of_map_token hw
  exact ⟨v, p, u, rfl, hv, hu⟩

theorem exists_concat_of_map_token {ts : List Token} {t : Token}
    (h : s.map Located.token = ts ++ [t]) :
    ∃ v p, s = v ++ [⟨t, p⟩] ∧ v.map Located.token = ts := by
  obtain ⟨v, p, u, rfl, hv, hu⟩ := exists_append_cons_of_map_token h
  obtain rfl := List.map_eq_nil_iff.mp hu
  exact ⟨v, p, rfl, hv⟩

/-- Items between separators are spelled by tokens that have a separator between theirs. -/
theorem separated_of_tokens {α : Type} {separator : Token} {Item : List Located → α → Prop}
    {S : α → α → Prop} {tokens : α → List Token} {as : List α} (hne : as ≠ [])
    (hitem : ∀ a ∈ as, ∀ u : List Located, u.map Located.token = tokens a →
      ∃ b, Item u b ∧ S b a)
    (hs : s.map Located.token = [separator].intercalate (as.map tokens)) :
    ∃ bs, Separated separator Item s bs ∧ List.Forall₂ S bs as := by
  induction as generalizing s with
  | nil => exact absurd rfl hne
  | cons a as ih =>
    obtain ⟨ha, has⟩ := List.forall_mem_cons.mp hitem
    by_cases hnil : as = []
    · subst hnil
      obtain ⟨b, hb, hba⟩ := ha s (by simpa using hs)
      exact ⟨[b], .last hb, .cons hba .nil⟩
    · have hmap : as.map tokens ≠ [] := by simpa using hnil
      rw [List.map_cons, List.intercalate_cons_of_ne_nil hmap, List.append_assoc] at hs
      obtain ⟨v, p, u, rfl, hv, hu⟩ := exists_append_cons_of_map_token hs
      obtain ⟨b, hb, hba⟩ := ha v hv
      obtain ⟨bs, hbs, hbas⟩ := ih hnil has hu
      exact ⟨b :: bs, .more hb hbs, .cons hba hbas⟩

/-! ### Arguments -/

theorem spellsNumber_of_tokens {n : Number} (h : n.WellFormed)
    (hs : s.map Located.token = n.tokens) : SpellsNumber s n := by
  obtain ⟨negative, whole, fraction⟩ := n
  -- a number without its sign
  have magnitude : ∀ u : List Located, u.map Located.token =
      (if whole = "" then [] else [Token.digits whole]) ++ fractionTokens fraction →
      SpellsNumber u ⟨false, whole, fraction⟩ := by
    intro u hu
    by_cases hwhole : whole = ""
    · subst hwhole
      cases fraction with
      | none => exact absurd rfl (h.some_digit.resolve_left fun hne => hne rfl)
      | some fraction =>
        obtain ⟨p, v, rfl, hv⟩ := exists_cons_of_map_token hu
        obtain ⟨q, w, rfl, hw⟩ := exists_cons_of_map_token hv
        obtain rfl := List.map_eq_nil_iff.mp hw
        exact .point fraction
    · rw [if_neg hwhole, List.singleton_append] at hu
      obtain ⟨p, v, rfl, hv⟩ := exists_cons_of_map_token hu
      cases fraction with
      | none =>
        obtain rfl := List.map_eq_nil_iff.mp hv
        exact .whole whole
      | some fraction =>
        obtain ⟨q, w, rfl, hw⟩ := exists_cons_of_map_token hv
        obtain ⟨r, x, rfl, hx⟩ := exists_cons_of_map_token hw
        obtain rfl := List.map_eq_nil_iff.mp hx
        exact .decimal whole fraction
  rw [Number.tokens, List.append_assoc] at hs
  cases negative with
  | false => exact magnitude s hs
  | true =>
    obtain ⟨p, u, rfl, hu⟩ := exists_cons_of_map_token hs
    exact .negative (magnitude u hu)

/-- The digits of an offset denote it. -/
theorem denotes_toString {offset : Nat} (hlow : 1 ≤ offset) (hhigh : offset ≤ 2 ^ 32 - 1) :
    Denotes (toString offset) offset := by
  have hvalue : decimalValue (toString offset) = offset := by
    rw [← foldl_eq_decimalValue, Nat.toString_eq_ofList_toDigits, String.toList_ofList,
      ← Nat.ofDigitChars_eq_foldl, Nat.ofDigitChars_ten_toDigits]
  unfold Denotes
  rw [if_neg (by simp), hvalue]
  exact ⟨rfl, hlow, hhigh⟩

theorem spellsArg_of_tokens {arg : Arg} (h : arg.WellFormed)
    (hs : s.map Located.token = arg.tokens) : SpellsArg s arg := by
  induction h generalizing s with
  | «variable» hname =>
    obtain ⟨p, u, rfl, hu⟩ := exists_cons_of_map_token hs
    obtain rfl := List.map_eq_nil_iff.mp hu
    exact .variable _
  | literal htext =>
    obtain ⟨p, u, rfl, hu⟩ := exists_cons_of_map_token hs
    obtain ⟨v, q, rfl, hv⟩ := exists_concat_of_map_token hu
    rcases exists_of_isLiteralText htext with ⟨name, -, rfl, htokens⟩ | ⟨n, hn, rfl, htokens⟩
    · rw [htokens] at hv
      obtain ⟨r, w, rfl, hw⟩ := exists_cons_of_map_token hv
      obtain rfl := List.map_eq_nil_iff.mp hw
      exact .name name
    · exact .quoted (spellsNumber_of_tokens hn (hv.trans htokens))
  | number hn => exact .number (spellsNumber_of_tokens hn hs)
  | continuation hlow hhigh =>
    obtain ⟨p, u, rfl, hu⟩ := exists_cons_of_map_token hs
    obtain rfl := List.map_eq_nil_iff.mp hu
    exact .continuation (denotes_toString hlow hhigh)
  | @state args hne _ hplaced ih =>
    rw [Arg.tokens, Arg.listTokens_eq_map] at hs
    obtain ⟨p, u, rfl, hu⟩ := exists_cons_of_map_token hs
    obtain ⟨q, v, rfl, hv⟩ := exists_cons_of_map_token hu
    obtain ⟨w, r, rfl, hw⟩ := exists_concat_of_map_token hv
    obtain ⟨bs, hbs, hsame⟩ := separated_of_tokens (S := Eq) hne
      (fun arg harg u hu => ⟨arg, ih arg harg hu, rfl⟩) hw
    rw [List.forall₂_eq_eq_eq] at hsame
    subst hsame
    exact .state hbs hplaced
  | python hcode =>
    obtain ⟨p, u, rfl, hu⟩ := exists_cons_of_map_token hs
    obtain rfl := List.map_eq_nil_iff.mp hu
    exact .python _

theorem spellsArgs_of_tokens {args : List Arg} (h : ArgsWellFormed args) (hne : args ≠ [])
    (hs : s.map Located.token = argsTokens args) : SpellsArgs s args := by
  obtain ⟨bs, hbs, hsame⟩ := separated_of_tokens (S := Eq) hne
    (fun arg harg u hu => ⟨arg, spellsArg_of_tokens (h.each arg harg) hu, rfl⟩) hs
  rw [List.forall₂_eq_eq_eq] at hsame
  subst hsame
  exact ⟨hbs, h.placed⟩

/-! ### Conditions -/

theorem spellsOperand_of_tokens {operand : Operand} (h : operand.WellFormed)
    (hs : s.map Located.token = operand.tokens) : SpellsOperand s operand := by
  cases h with
  | value harg hplain => exact .value (spellsArg_of_tokens harg hs) hplain
  | all hname =>
    obtain ⟨p, u, rfl, hu⟩ := exists_cons_of_map_token hs
    obtain ⟨q, v, rfl, hv⟩ := exists_cons_of_map_token hu
    obtain ⟨r, w, rfl, hw⟩ := exists_cons_of_map_token hv
    obtain ⟨o, x, rfl, hx⟩ := exists_cons_of_map_token hw
    obtain rfl := List.map_eq_nil_iff.mp hx
    exact .all _
  | type hname =>
    obtain ⟨p, u, rfl, hu⟩ := exists_cons_of_map_token hs
    obtain ⟨q, v, rfl, hv⟩ := exists_cons_of_map_token hu
    obtain ⟨r, w, rfl, hw⟩ := exists_cons_of_map_token hv
    obtain ⟨o, x, rfl, hx⟩ := exists_cons_of_map_token hw
    obtain rfl := List.map_eq_nil_iff.mp hx
    exact .type _
  | @list items hitems =>
    obtain ⟨p, u, rfl, hu⟩ := exists_cons_of_map_token hs
    obtain ⟨v, q, rfl, hv⟩ := exists_concat_of_map_token hu
    by_cases hne : items = []
    · subst hne
      obtain rfl := List.map_eq_nil_iff.mp hv
      exact .empty
    · exact .list (spellsArgs_of_tokens hitems hne hv)

theorem SpellsOperand.ne_nil {operand : Operand} (h : SpellsOperand s operand) : s ≠ [] := by
  cases h with
  | value harg =>
    obtain ⟨t, u, rfl, -⟩ := harg.exists_cons
    exact List.cons_ne_nil t u
  | _ => exact List.cons_ne_nil _ _

theorem spellsPredicate_of_tokens {test : Predicate} (h : test.WellFormed)
    (hs : s.map Located.token = test.tokens) :
    ∃ test', SpellsPredicate s test' ∧ test'.Alike (fun _ _ => True) test := by
  cases test with
  | compare left op right _ =>
    obtain ⟨hleft, hright⟩ := h
    obtain ⟨v, p, u, rfl, hv, hu⟩ := exists_append_cons_of_map_token hs
    have hspelled : SpellsOperand v left := spellsOperand_of_tokens hleft hv
    obtain ⟨t, v, rfl⟩ := List.exists_cons_of_ne_nil hspelled.ne_nil
    exact ⟨_, .compare op hspelled (spellsOperand_of_tokens hright hu), .compare _ _ _ trivial⟩
  | bare operand _ =>
    have hspelled : SpellsOperand s operand := spellsOperand_of_tokens h hs
    obtain ⟨t, v, rfl⟩ := List.exists_cons_of_ne_nil hspelled.ne_nil
    exact ⟨_, .bare hspelled, .bare _ trivial⟩

/-- The tokens of a condition spell it, as one item unless it is a chain. -/
theorem spellsCondition_of_tokens {c : Condition} (h : Condition.WellFormed c)
    (hs : s.map Located.token = conditionTokens c) :
    ∃ c', SpellsCondition s c' ∧ ((∀ l o r, c ≠ .chain l o r) → SpellsItem s c') ∧
      Condition.Alike (fun _ _ => True) c' c := by
  induction h generalizing s with
  | atom htest =>
    obtain ⟨test', hspelled, halike⟩ := spellsPredicate_of_tokens htest hs
    exact ⟨_, .last (.test hspelled), fun _ => .test hspelled, .atom halike⟩
  | group _ ih =>
    obtain ⟨p, u, rfl, hu⟩ := exists_cons_of_map_token hs
    obtain ⟨v, q, rfl, hv⟩ := exists_concat_of_map_token hu
    obtain ⟨inner', hinner, -, halike⟩ := ih hv
    exact ⟨_, .last (.group hinner), fun _ => .group hinner, .group halike⟩
  | chain op _ hne _ ihl ihr =>
    obtain ⟨v, p, u, rfl, hv, hu⟩ := exists_append_cons_of_map_token hs
    obtain ⟨left', -, hleft, hl⟩ := ihl hv
    obtain ⟨right', hright, -, hr⟩ := ihr hu
    exact ⟨_, .more op (hleft hne) hright, fun hnot => (hnot _ _ _ rfl).elim, .chain op hl hr⟩

/-! ### Programs -/

theorem spellsAction_of_tokens {action : Action} (h : action.WellFormed)
    (hs : s.map Located.token = action.tokens) :
    ∃ action', SpellsAction s action' ∧ action'.Alike (fun _ _ => True) action := by
  obtain ⟨name, args, position⟩ := action
  obtain ⟨p, u, rfl, hu⟩ := exists_cons_of_map_token hs
  obtain ⟨q, v, rfl, hv⟩ := exists_cons_of_map_token hu
  obtain ⟨w, r, rfl, hw⟩ := exists_concat_of_map_token hv
  by_cases hne : args = []
  · subst hne
    obtain rfl := List.map_eq_nil_iff.mp hw
    exact ⟨_, .plain name, rfl, rfl, trivial⟩
  · exact ⟨_, .applied name (spellsArgs_of_tokens h.args hne hw), rfl, rfl, trivial⟩

theorem spellsRule_of_tokens {rule : Rule} (h : rule.WellFormed)
    (hs : s.map Located.token = rule.tokens) :
    ∃ rule', SpellsRule s rule' ∧ rule'.Alike (fun _ _ => True) rule := by
  obtain ⟨condition, intention, effects, position⟩ := rule
  -- what stands after the guard
  have body : ∀ u : List Located, u.map Located.token = intention.tokens ++
      .causes :: [.comma].intercalate (effects.map Action.tokens) →
      ∃ v p w intention' effects', u = v ++ ⟨.causes, p⟩ :: w ∧
        (SpellsAction v intention' ∧ intention'.Alike (fun _ _ => True) intention) ∧
        Separated .comma SpellsAction w effects' ∧
        List.Forall₂ (Action.Alike (fun _ _ => True)) effects' effects := by
    intro u hu
    obtain ⟨v, p, w, rfl, hv, hw⟩ := exists_append_cons_of_map_token hu
    obtain ⟨intention', hintention⟩ := spellsAction_of_tokens h.intention hv
    obtain ⟨effects', heffects⟩ := separated_of_tokens h.some_effect
      (fun effect heffect _ => spellsAction_of_tokens (h.effects effect heffect)) hw
    exact ⟨v, p, w, intention', effects', rfl, hintention, heffects⟩
  cases condition with
  | none =>
    obtain ⟨v, p, w, intention', effects', rfl, ⟨hintention, hi⟩, heffects, he⟩ := body s hs
    exact ⟨_, .always hintention heffects, .none, hi, he, trivial⟩
  | some c =>
    have htokens : s.map Located.token = .ifWord :: .openParen :: (conditionTokens c ++
        .closeParen :: .colon :: (intention.tokens ++
          .causes :: [.comma].intercalate (effects.map Action.tokens))) := by
      simpa [Rule.tokens, guardTokens] using hs
    obtain ⟨p, t, rfl, ht⟩ := exists_cons_of_map_token htokens
    obtain ⟨q, u, rfl, hu⟩ := exists_cons_of_map_token ht
    obtain ⟨d, r, v, rfl, hd, hv⟩ := exists_append_cons_of_map_token hu
    obtain ⟨o, x, rfl, hx⟩ := exists_cons_of_map_token hv
    obtain ⟨c', hcondition, -, hc⟩ := spellsCondition_of_tokens (h.condition c rfl) hd
    obtain ⟨v, n, w, intention', effects', rfl, ⟨hintention, hi⟩, heffects, he⟩ := body x hx
    exact ⟨_, .guarded hcondition hintention heffects, .some hc, hi, he, trivial⟩

theorem spellsProgram_of_tokens {program : Program} (h : program.WellFormed)
    (hs : s.map Located.token = program.writtenTokens) (e : Nat) :
    ∃ program', SpellsProgram (s ++ [⟨.endOfInput, e⟩]) program' ∧
      program'.Alike (fun _ _ => True) program := by
  obtain ⟨p, t, rfl, ht⟩ := exists_cons_of_map_token hs
  obtain ⟨q, u, rfl, hu⟩ := exists_cons_of_map_token ht
  obtain ⟨v, r, rfl, hv⟩ := exists_concat_of_map_token hu
  obtain ⟨rules', hrules, halike⟩ := separated_of_tokens h.some_rule
    (fun rule hrule _ => spellsRule_of_tokens (h.rules rule hrule)) hv
  refine ⟨⟨rules'⟩, ?_, ⟨halike⟩⟩
  simpa using SpellsProgram.rules (u := []) (p := p) (q := q) (r := r) (e := e) hrules (.inl rfl)

end Spelled

/-! ## Texts -/

/-- The text of a program: its tokens with a space after each. -/
def Program.text (program : Program) : String :=
  spaced program.writtenTokens

/-- **The text of a well-formed program is read as it**, but for offsets, when limits leave room. -/
theorem Program.read_text {program : Program} (h : program.WellFormed) {limits : Limits}
    (hsize : program.text.utf8ByteSize ≤ limits.maxInputBytes)
    (hnesting : program.text.length ≤ limits.maxNesting) :
    ∃ found, Program.read limits program.text = .ok found ∧
      found.Alike (fun _ _ => True) program := by
  obtain ⟨located, e, htokens, hlocated⟩ := tokenize_spaced h.printable (List.cons_ne_nil _ _)
  obtain ⟨found, hspells, halike⟩ := spellsProgram_of_tokens h hlocated e
  exact ⟨found, Program.read_of_spells hsize htokens hnesting hspells, halike⟩

/-- **Exactly the well-formed programs are read**, but for offsets. Whatever the limits are, a
program that is read is well formed, as is every program that differs from it in offsets only. A
well-formed program has a text that is read as it under all limits that leave room for that text. -/
theorem Program.wellFormed_iff_exists_text (program : Program) :
    (program.WellFormed ↔ ∃ text, ∀ limits : Limits, text.utf8ByteSize ≤ limits.maxInputBytes →
      text.length ≤ limits.maxNesting → ∃ found, Program.read limits text = .ok found ∧
        found.Alike (fun _ _ => True) program) ∧
      ∀ limits text found, Program.read limits text = .ok found →
        found.Alike (fun _ _ => True) program → program.WellFormed := by
  have sound : ∀ limits text found, Program.read limits text = .ok found →
      found.Alike (fun _ _ => True) program → program.WellFormed :=
    fun _ _ _ hread halike =>
      Program.wellFormed_of_alike halike (Program.wellFormed_of_read hread)
  refine ⟨⟨fun h => ⟨program.text, fun _ => Program.read_text h⟩, ?_⟩, sound⟩
  rintro ⟨text, h⟩
  obtain ⟨found, hread, halike⟩ :=
    h ⟨text.utf8ByteSize, text.length⟩ (Nat.le_refl _) (Nat.le_refl _)
  exact sound _ text found hread halike

end CausalRules
