import CausalRules.Proofs.Grammar
import CausalRules.Proofs.Reading.Tokens

/-!
# Canonical spellings

A program may be spelled in several ways even when blanks do not count: its last rule may be followed
by a semicolon, the digits after `CONT` may be left out or begin with zeros, and a number between
quotes may begin with its point. Everything else is kept in the program that is read.

- `canonical`: tokens with one choice made in each of these places. `canonical_append` and
  `canonical_cons` take them apart.
- `Arg.tokens`, `conditionTokens`, `Rule.tokens`, `Program.tokens`: the canonical tokens of what was
  read. The tokens between quotes are found again in the text of a literal, by `literalTokens`.
-/

namespace CausalRules

/-! ## Three choices -/

/-- The number that the digits after `CONT` stand for, which is 1 without digits. -/
def suffixValue (suffix : String) : Nat :=
  if suffix = "" then 1 else decimalValue suffix

/-- A continuation with its value for digits; other tokens are kept. -/
def Token.evaluated : Token → Token
  | continuation suffix => continuation (toString (suffixValue suffix))
  | token => token

/-- A zero is written before the point that follows a quote, or a quote and a minus. -/
def zeroQuoted : List Token → List Token
  | .quote :: .dot :: rest => .quote :: .digits "0" :: .dot :: zeroQuoted rest
  | .quote :: .minus :: .dot :: rest => .quote :: .minus :: .digits "0" :: .dot :: zeroQuoted rest
  | t :: rest => t :: zeroQuoted rest
  | [] => []

/-- A semicolon before a closing brace is left out. -/
def dropSemicolon : List Token → List Token
  | .semicolon :: .closeBrace :: rest => .closeBrace :: dropSemicolon rest
  | t :: rest => t :: dropSemicolon rest
  | [] => []

/-- Tokens with the three choices made. -/
def canonical (tokens : List Token) : List Token :=
  dropSemicolon (zeroQuoted (tokens.map Token.evaluated))

/-- Whether a token may matter to the choice that is made before it. -/
def Token.joins : Token → Bool
  | dot | minus | closeBrace => true
  | _ => false

/-- Whether a choice may be made where a token stands. -/
def Token.chooses : Token → Bool
  | quote | semicolon | continuation _ => true
  | _ => false

/-- What begins two lists together begins the first, unless it begins the second. -/
theorem exists_of_append_eq_cons {s u v : List Token} {t : Token} (hu : u.head? ≠ some t)
    (h : s ++ u = t :: v) : ∃ s', s = t :: s' ∧ s' ++ u = v := by
  cases s with
  | nil =>
    rw [List.nil_append] at h
    rw [h] at hu
    exact absurd rfl hu
  | cons first rest =>
    obtain ⟨rfl, hrest⟩ := List.cons.inj h
    exact ⟨rest, rfl, hrest⟩

theorem zeroQuoted_append {s u : List Token} (hdot : u.head? ≠ some .dot)
    (hminus : u.head? ≠ some .minus) : zeroQuoted (s ++ u) = zeroQuoted s ++ zeroQuoted u := by
  fun_induction zeroQuoted s with
  | case1 rest ih => simp [zeroQuoted, ih]
  | case2 rest ih => simp [zeroQuoted, ih]
  | case3 t rest hquote hnegative ih =>
    rw [List.cons_append, zeroQuoted, ih, List.cons_append]
    · rintro more rfl heq
      obtain ⟨rest', rfl, -⟩ := exists_of_append_eq_cons hdot heq
      exact hquote _ rfl rfl
    · rintro more rfl heq
      obtain ⟨rest', rfl, hrest⟩ := exists_of_append_eq_cons hminus heq
      obtain ⟨rest'', rfl, -⟩ := exists_of_append_eq_cons hdot hrest
      exact hnegative _ rfl rfl
  | case4 => rfl

theorem dropSemicolon_append {s u : List Token} (h : u.head? ≠ some .closeBrace) :
    dropSemicolon (s ++ u) = dropSemicolon s ++ dropSemicolon u := by
  fun_induction dropSemicolon s with
  | case1 rest ih => simp [dropSemicolon, ih]
  | case2 t rest hsemicolon ih =>
    rw [List.cons_append, dropSemicolon, ih, List.cons_append]
    rintro more rfl heq
    obtain ⟨rest', rfl, -⟩ := exists_of_append_eq_cons h heq
    exact hsemicolon _ rfl rfl
  | case3 => rfl

theorem head?_zeroQuoted (s : List Token) : (zeroQuoted s).head? = s.head? := by
  fun_induction zeroQuoted s with
  | case1 | case2 | case3 | case4 => rfl

theorem Token.joins_evaluated (t : Token) : t.evaluated.joins = t.joins := by
  cases t <;> rfl

/-- What stands before a token that does not matter to its choices may be taken by itself. -/
theorem canonical_append {s u : List Token} {t : Token} (ht : t.joins = false) :
    canonical (s ++ t :: u) = canonical s ++ canonical (t :: u) := by
  have hhead : ∀ d : Token, d.joins = true →
      ((t :: u).map Token.evaluated).head? ≠ some d := by
    rintro d hd heq
    rw [← Option.some.inj heq, t.joins_evaluated, ht] at hd
    cases hd
  unfold canonical
  rw [List.map_append, zeroQuoted_append (hhead _ rfl) (hhead _ rfl), dropSemicolon_append]
  rw [head?_zeroQuoted]
  exact hhead _ rfl

/-- A token where no choice is made is kept. -/
theorem canonical_cons {u : List Token} {t : Token} (ht : t.chooses = false) :
    canonical (t :: u) = t :: canonical u := by
  cases t with
  | quote | semicolon | continuation => cases ht
  | _ => rfl

/-- Tokens where no choice is made are kept. -/
theorem canonical_eq_self {s : List Token} (h : ∀ t ∈ s, t.chooses = false) : canonical s = s := by
  induction s with
  | nil => rfl
  | cons t s ih =>
    rw [canonical_cons (h t (List.mem_cons_self ..)), ih]
    exact fun u hu => h u (List.mem_cons_of_mem _ hu)

/-! ## The tokens of a literal -/

/-- The tokens of a number without sign, from its characters. -/
def decimalTokens (cs : List Char) : List Token :=
  .digits (String.ofList (cs.takeWhile (· ≠ '.'))) ::
    match cs.dropWhile (· ≠ '.') with
    | [] => []
    | _ :: fraction => [.dot, .digits (String.ofList fraction)]

/-- The tokens between quotes, from the characters of the literal. A name has underscores where the
literal has spaces. -/
def literalTokens : List Char → List Token
  | [] => []
  | c :: cs =>
    if c = '-' then .minus :: decimalTokens cs
    else if c.isDigit then decimalTokens (c :: cs)
    else [.ident (String.ofList ((c :: cs).map fun d => if d = ' ' then '_' else d))]

/-- The tokens from the point of a number on. -/
def fractionTokens : Option String → List Token
  | some fraction => [.dot, .digits fraction]
  | none => []

/-- The tokens of a number. -/
def Number.tokens (n : Number) : List Token :=
  (if n.negative then [.minus] else []) ++ (if n.whole = "" then [] else [.digits n.whole]) ++
    fractionTokens n.fraction

/-- A number with a zero for a missing whole part. -/
def Number.written (n : Number) : Number :=
  { n with whole := if n.whole = "" then "0" else n.whole }

theorem ne_of_isDigit {c d : Char} (hc : c.isDigit = true) (hd : d.isDigit = false) : c ≠ d := by
  rintro rfl
  rw [hc] at hd
  cases hd

/-- The characters from the point of a number on. -/
def fractionChars : Option String → List Char
  | some fraction => '.' :: fraction.toList
  | none => []

theorem decimalTokens_append {run : String} (h : ∀ c ∈ run.toList, c.isDigit = true)
    (fraction : Option String) :
    decimalTokens (run.toList ++ fractionChars fraction) =
      .digits run :: fractionTokens fraction := by
  have hrun : ∀ c ∈ run.toList, decide (c ≠ '.') = true := by
    intro c hc
    exact decide_eq_true (ne_of_isDigit (h c hc) rfl)
  unfold decimalTokens
  rw [List.takeWhile_append_of_pos hrun, List.dropWhile_append_of_pos hrun]
  cases fraction with
  | none => simp [fractionChars, fractionTokens]
  | some fraction => simp [fractionChars, fractionTokens]

/-- A number's text begins with its sign and goes on with its digits, of which there are some. -/
theorem Number.text_toList (n : Number) : n.text.toList =
    (if n.negative then ['-'] else []) ++
      (n.written.whole.toList ++ fractionChars n.fraction) := by
  obtain ⟨negative, whole, fraction⟩ := n
  have hsign : (if negative then "-" else "").toList = if negative then ['-'] else [] := by
    cases negative <;> rfl
  simp only [text, written, String.toList_append, hsign, String.isEmpty_iff, List.append_assoc]
  cases fraction with
  | none => rfl
  | some digits => simp [fractionChars]

theorem Number.written_whole_ne_empty (n : Number) : n.written.whole ≠ "" := by
  unfold written
  by_cases h : n.whole = "" <;> simp [h]

theorem Number.written_tokens (n : Number) : n.written.tokens =
    (if n.negative then [Token.minus] else []) ++
      Token.digits n.written.whole :: fractionTokens n.fraction := by
  rw [tokens, if_neg n.written_whole_ne_empty, List.append_assoc]
  rfl

/-- The tokens of a number are found in its text, with a zero for a missing whole part. -/
theorem literalTokens_number {n : Number} (h : ∀ c ∈ n.whole.toList, c.isDigit = true) :
    literalTokens n.text.toList = n.written.tokens := by
  have hwhole : ∀ c ∈ n.written.whole.toList, c.isDigit = true := by
    unfold Number.written
    by_cases hempty : n.whole = ""
    · simp [hempty]
    · simpa [hempty] using h
  rw [n.text_toList, n.written_tokens]
  cases n.negative with
  | true => exact congrArg _ (decimalTokens_append hwhole _)
  | false =>
    rw [← decimalTokens_append hwhole]
    -- the first character is a digit, neither a minus nor a letter
    cases hcs : n.written.whole.toList with
    | nil => exact absurd (String.toList_inj.mp hcs) n.written_whole_ne_empty
    | cons c cs =>
      have hc : c.isDigit = true := by
        apply hwhole
        rw [hcs]
        exact List.mem_cons_self ..
      have hminus : c ≠ '-' := ne_of_isDigit hc rfl
      simp [literalTokens, hminus, hc]

/-- The name between quotes is found in the text of the literal. -/
theorem literalTokens_name {name : String} (h : (Token.ident name).Lexical) :
    literalTokens (literalText name).toList = [.ident name] := by
  obtain ⟨c, cs, hname, hc, hcs⟩ := h
  have hword : ∀ d ∈ name.toList, isWordChar d = true := by
    rw [hname]
    intro d hd
    rcases List.mem_cons.mp hd with rfl | hd
    · simp [isWordChar, Char.isAlphanum, hc]
    · exact hcs d hd
  have hletter : ∀ d : Char, d.isAlpha = false → c ≠ d := by
    rintro d hd rfl
    rw [hc] at hd
    cases hd
  have htext : (literalText name).toList = name.toList.map fun d => if d = '_' then ' ' else d :=
    String.toList_ofList
  -- words hold no spaces, so every space of the text was an underscore
  have hback : (literalText name).toList.map (fun d => if d = ' ' then '_' else d) =
      name.toList := by
    rw [htext, List.map_map]
    refine (List.map_congr_left fun d hd => ?_).trans (List.map_id _)
    have hspace : d ≠ ' ' := by
      rintro rfl
      exact absurd (hword _ hd) (by decide)
    by_cases hd : d = '_'
    · simp [hd]
    · simp [hd, hspace]
  rw [hname, List.map_cons, if_neg (hletter _ rfl)] at htext
  rw [htext] at hback ⊢
  rw [literalTokens, if_neg (hletter _ rfl), isDigit_of_isAlpha hc, if_neg Bool.false_ne_true, hback,
    String.ofList_toList]

/-! ## The tokens of a program -/

mutual

/-- The tokens of an argument. -/
def Arg.tokens : Arg → List Token
  | .variable name => [.ident name]
  | .literal text => .quote :: (literalTokens text.toList ++ [.quote])
  | .number n => n.tokens
  | .continuation offset => [.continuation (toString offset)]
  | .state args =>
    .stateWord :: .openParen :: ([.comma].intercalate (Arg.listTokens args) ++ [.closeParen])
  | .python code => [.python code]

/-- The tokens of each of some arguments. -/
def Arg.listTokens : List Arg → List (List Token)
  | [] => []
  | arg :: args => arg.tokens :: Arg.listTokens args

end

theorem Arg.listTokens_eq_map (args : List Arg) : Arg.listTokens args = args.map Arg.tokens := by
  induction args with
  | nil => rfl
  | cons arg args ih => rw [Arg.listTokens, ih, List.map_cons]

/-- The tokens of a list of arguments, with commas. -/
def argsTokens (args : List Arg) : List Token :=
  [.comma].intercalate (args.map Arg.tokens)

/-- The tokens of an operand. -/
def Operand.tokens : Operand → List Token
  | .value arg => arg.tokens
  | .all typeName => [.allWord, .openParen, .ident typeName, .closeParen]
  | .type variableName => [.typeWord, .openParen, .ident variableName, .closeParen]
  | .list items => .openBracket :: (argsTokens items ++ [.closeBracket])

/-- The tokens of a predicate. -/
def Predicate.tokens : Predicate → List Token
  | .compare left op right _ => left.tokens ++ op.token :: right.tokens
  | .bare operand _ => operand.tokens

/-- The tokens of a condition. -/
def conditionTokens : Condition → List Token
  | .atom p => p.tokens
  | .group inner => .openParen :: (conditionTokens inner ++ [.closeParen])
  | .chain left op right => conditionTokens left ++ op.token :: conditionTokens right

/-- The tokens of an action. -/
def Action.tokens (action : Action) : List Token :=
  .ident action.name :: .openParen :: (argsTokens action.args ++ [.closeParen])

/-- The tokens before the intention of a rule. -/
def guardTokens : Option Condition → List Token
  | some c => .ifWord :: .openParen :: (conditionTokens c ++ [.closeParen, .colon])
  | none => []

/-- The tokens of a rule. -/
def Rule.tokens (rule : Rule) : List Token :=
  guardTokens rule.condition ++ (rule.intention.tokens ++
    .causes :: [.comma].intercalate (rule.effects.map Action.tokens))

/-- The tokens of a program, up to the end of the input. -/
def Program.tokens (program : Program) : List Token :=
  .rulesWord :: .openBrace :: ([.semicolon].intercalate (program.rules.map Rule.tokens) ++
    [.closeBrace, .endOfInput])

end CausalRules
