import CausalRules.Compile
import CausalRules.Proofs.Imitation.Independence
import CausalRules.Proofs.Layout.Reading
import CausalRules.Proofs.Reading.Printed
import Mathlib.Algebra.GroupWithZero.Nat
import Mathlib.Algebra.Order.BigOperators.Group.List
import Mathlib.Algebra.Order.Group.Nat

/-!
# How large scripts can become

A variable that a condition binds to a literal is replaced by the literal wherever it is used. So the
script of a program can be as large as the product of two parts of its text.

- `size_le_quote`, `size_le_renderAll`, `size_le_replaceFirst`: what is quoted, rendered or put in the
  place of a mark does not become smaller.
- `repeating`: a rule that uses a literal any number of times.
- `exists_script_repeating`: its script is at least as large as all the uses together.
-/

namespace CausalRules

theorem size_ofList_cons (c : Char) (cs : List Char) :
    (String.ofList (c :: cs)).utf8ByteSize = c.utf8Size + (String.ofList cs).utf8ByteSize := by
  rw [String.ofList_cons, String.utf8ByteSize_append, String.utf8ByteSize_singleton]

theorem size_ofList_append (cs ds : List Char) : (String.ofList (cs ++ ds)).utf8ByteSize =
    (String.ofList cs).utf8ByteSize + (String.ofList ds).utf8ByteSize := by
  rw [String.ofList_append, String.utf8ByteSize_append]

/-- A text in quotes is no smaller than the text. -/
theorem size_le_quote (text : String) :
    text.utf8ByteSize ≤ (Script.quote text).utf8ByteSize := by
  have hchar : ∀ c, c.utf8Size ≤ (String.ofList (Script.quoteChar c)).utf8ByteSize := by
    intro c
    unfold Script.quoteChar
    split
    · decide +kernel
    · decide +kernel
    · decide +kernel
    · rw [size_ofList_cons]
      exact Nat.le_add_right ..
  have hchars : ∀ cs : List Char, (String.ofList cs).utf8ByteSize ≤
      (String.ofList (cs.flatMap Script.quoteChar)).utf8ByteSize := by
    intro cs
    induction cs with
    | nil => exact Nat.le_refl _
    | cons c cs ih =>
      rw [List.flatMap_cons, size_ofList_cons, size_ofList_append]
      exact Nat.add_le_add (hchar c) ih
  have htext := hchars text.toList
  rw [String.ofList_toList] at htext
  rw [Script.quote, size_ofList_cons, size_ofList_append]
  omega

/-- What takes the place of a mark is in the text. -/
theorem size_le_replaceFirst {mark value text : String} (h : Text.holdsMark mark text = true) :
    value.utf8ByteSize ≤ (Text.replaceFirst mark value text).utf8ByteSize := by
  obtain ⟨⟨before, after⟩, hsplit⟩ := Option.isSome_iff_exists.mp h
  rw [Text.replaceFirst, hsplit]
  simp only [String.utf8ByteSize_append]
  omega

theorem size_join (texts : List String) :
    (String.join texts).utf8ByteSize = (texts.map String.utf8ByteSize).sum := by
  induction texts with
  | nil => rfl
  | cons text texts ih =>
    rw [String.join_cons, String.utf8ByteSize_append, ih, List.map_cons, List.sum_cons]

/-- A line is in the text of the lines. -/
theorem size_le_renderAll {line : Script.Line} {lines : List Script.Line} (h : line ∈ lines) :
    line.text.utf8ByteSize ≤ (Script.Line.renderAll lines).utf8ByteSize := by
  rw [Script.Line.renderAll_eq_join, size_join, List.map_map]
  have hline : line.text.utf8ByteSize ≤ line.render.utf8ByteSize := by
    simp only [Script.Line.render, String.utf8ByteSize_append]
    omega
  exact Nat.le_trans hline (List.le_sum_of_mem (List.mem_map_of_mem h))

namespace Imitation

section Repeating

variable {literal : String} {count p q r s : Nat}

theorem mapM_replicate {α β ε : Type} {f : α → Except ε β} {a : α} {b : β} (h : f a = .ok b)
    (count : Nat) : (List.replicate count a).mapM f = .ok (List.replicate count b) := by
  rw [mapM_eq_ok_iff]
  induction count with
  | zero => exact .nil
  | succ count ih => exact .cons h ih

/-- A rule whose effect has a literal as every argument, by way of a variable that the condition binds
to it. Offsets are as given. -/
def repeating (literal : String) (count p q r s : Nat) : Rule where
  condition := some (.atom (.compare (.value (.variable "a")) .equal (.value (.literal literal)) p))
  intention := ⟨"m", [], q⟩
  effects := [⟨"f", List.replicate count (.variable "a"), r⟩]
  position := s

/-- The call has the literal as often as the rule uses it. -/
theorem call_repeating {scope : Scope} {binding : Binding} (h : scope.binding? "a" = some binding) :
    scope.call ⟨"f", List.replicate count (.variable "a"), r⟩ =
      .ok ⟨"f", List.replicate count (.value binding), none⟩ := by
  have harg : scope.argTerm r (.variable "a") = .ok (.value binding) := by
    rw [Scope.argTerm, Scope.resolve, h]
    rfl
  have hargs := mapM_replicate harg count
  unfold Scope.call
  dsimp only
  rw [List.getLast?_replicate, hargs]
  split
  · rename_i heq
    split at heq <;> cases heq
  · rfl

theorem clause_repeating (signature : Signature) :
    Clause.ofRule signature (repeating literal count p q r s) =
      .ok ⟨[], .satisfied,
        [⟨"f", List.replicate count (.value (.constant (.text literal))), none⟩]⟩ := by
  let scope : Scope := ⟨[("a", .constant (.text literal))], [], [(p, .drop)]⟩
  have hcollect : ((Scope.ofRule signature (repeating literal count p q r s)).collect false
      (.atom (.compare (.value (.variable "a")) .equal (.value (.literal literal)) p))).result =
        .ok scope := rfl
  have hformula : scope.formula
      (.atom (.compare (.value (.variable "a")) .equal (.value (.literal literal)) p)) =
        .ok none := by
    have hresidue : scope.residue? p = some .drop := by simp [scope, Scope.residue?]
    rw [Scope.formula, Scope.test, hresidue]
    rfl
  have hcalls : [⟨"f", List.replicate count (.variable "a"), r⟩].mapM scope.call =
      .ok [⟨"f", List.replicate count (.value (.constant (.text literal))), none⟩] := by
    rw [List.mapM_cons, call_repeating rfl]
    rfl
  unfold Clause.ofRule
  simp only [repeating]
  rw [bind_eq_ok]
  refine ⟨scope, hcollect, ?_⟩
  rw [hformula]
  exact bind_eq_ok.mpr ⟨none, rfl, bind_eq_ok.mpr ⟨.satisfied, rfl, bind_eq_ok.mpr ⟨_, hcalls, rfl⟩⟩⟩

/-- The methods of a program with that rule alone have the literal as often as the rule uses it. -/
theorem exists_methodsText_repeating (literal : String) (count p q r s : Nat) :
    ∃ methods, methodsText ⟨[repeating literal count p q r s]⟩ = .ok methods ∧
      count * literal.utf8ByteSize ≤ methods.utf8ByteSize := by
  let call : Call :=
    ⟨"f", List.replicate count (.value (.constant (.text literal))), none⟩
  let method : Method := ⟨"m", ⟨[], none⟩, [⟨[], .satisfied, [call]⟩]⟩
  have hmethod : ofProgram ⟨[repeating literal count p q r s]⟩ = .ok [method] := by
    have hclauses : [repeating literal count p q r s].mapM (Clause.ofRule ⟨[], none⟩) =
        .ok [⟨[], .satisfied, [call]⟩] := by
      rw [List.mapM_cons, clause_repeating]
      rfl
    have hrules : Method.ofRules "m" [repeating literal count p q r s] = .ok method :=
      bind_eq_ok.mpr ⟨⟨[], none⟩, rfl, bind_eq_ok.mpr ⟨_, hclauses, rfl⟩⟩
    have hgroups : groupsOf [repeating literal count p q r s] =
        .ok [⟨"m", [repeating literal count p q r s]⟩] := rfl
    rw [ofProgram, hgroups]
    refine bind_eq_ok.mpr ⟨_, rfl, ?_⟩
    rw [List.mapM_cons, hrules]
    rfl
  refine ⟨_, bind_eq_ok.mpr ⟨_, hmethod, rfl⟩, ?_⟩
  have hline : ⟨2, "__ret_val = [" ++ ",".intercalate [call.render] ++ "]"⟩ ∈
      [method].flatMap Method.lines := by
    simp [method, Method.lines, Clause.lines, Clause.bodyLines]
  have hcall : count * literal.utf8ByteSize ≤ call.render.utf8ByteSize := by
    have hrendered : (call.args.map fun arg => "," ++ arg.render) =
        List.replicate count ("," ++ Script.quote literal) := List.map_replicate
    have hrender : call.render = "(" ++ Script.quote "f" ++ String.join (List.replicate count
        ("," ++ Script.quote literal)) ++ (if call.args.isEmpty then ",)" else ")") := by
      rw [← hrendered]
      rfl
    have hargs : (String.join (List.replicate count
        ("," ++ Script.quote literal))).utf8ByteSize =
          count * (1 + (Script.quote literal).utf8ByteSize) := by
      rw [size_join, List.map_replicate, List.sum_replicate, String.utf8ByteSize_append]
      rfl
    rw [hrender]
    simp only [String.utf8ByteSize_append, hargs]
    calc count * literal.utf8ByteSize
        ≤ count * (1 + (Script.quote literal).utf8ByteSize) :=
          Nat.mul_le_mul_left count (Nat.le_trans (size_le_quote literal) (Nat.le_add_left ..))
      _ ≤ _ := by omega
  have hsize := size_le_renderAll hline
  simp only [String.utf8ByteSize_append, String.intercalate_singleton] at hsize
  omega

/-- The script with a template that has a place for methods is at least as large. -/
theorem exists_script_repeating {templates : Templates}
    (h : Marker.methods.isIn templates.imitation = true) (literal : String) (count p q r s : Nat) :
    ∃ script, Program.script ⟨[repeating literal count p q r s]⟩ templates .imitation = .ok script ∧
      count * literal.utf8ByteSize ≤ script.utf8ByteSize := by
  obtain ⟨methods, hmethods, hsize⟩ := exists_methodsText_repeating literal count p q r s
  exact ⟨_, bind_eq_ok.mpr ⟨methods, hmethods, rfl⟩, Nat.le_trans hsize (size_le_replaceFirst h)⟩

end Repeating

/-! ## A text -/

section Reading

/-- A name is none of the words that mean something else if it begins like none of them. -/
theorem isName_of_initial {name : String} {c : Char} {cs : List Char} (hname : name.toList = c :: cs)
    (hc : c.isAlpha = true) (hcs : ∀ d ∈ cs, isWordChar d = true)
    (hinitial : c ∉ ['R', 'T', 'A', 'S', 'i', 'P', 'C']) : IsName name := by
  have hne : ∀ word : String, (∃ d ∈ ['R', 'T', 'A', 'S', 'i', 'P', 'C'],
      word.toList.head? = some d) → name ≠ word := by
    rintro word ⟨d, hd, hword⟩ rfl
    rw [hname] at hword
    obtain rfl : c = d := Option.some.inj hword
    exact hinitial hd
  refine ⟨⟨c, cs, hname, hc, hcs⟩, fun hmem => ?_, hne _ ⟨'P', by simp, rfl⟩, fun digits _ heq => ?_⟩
  · have hwords : ∀ word ∈ ["RULES", "TYPE", "ALL", "STATE", "if"],
        ∃ d ∈ ['R', 'T', 'A', 'S', 'i', 'P', 'C'], word.toList.head? = some d := by
      simp
    exact hne name (hwords name hmem) rfl
  · rw [hname] at heq
    obtain ⟨rfl, -⟩ := List.cons.inj heq
    exact hinitial (by simp)

/-- The tokens of such a rule with seventeen uses. -/
def repeatingTokens (literal : String) : List Token :=
  [.rulesWord, .openBrace, .ifWord, .openParen, .ident "a", .equal, .quote, .ident literal, .quote,
    .closeParen, .colon, .ident "m", .openParen, .closeParen, .causes, .ident "f", .openParen] ++
  [Token.comma].intercalate (List.replicate 17 [.ident "a"]) ++ [.closeParen, .closeBrace]

/-- Programs that differ from such a rule in offsets only have such a rule. -/
theorem exists_repeating_of_alike {literal : String} {count : Nat} {program : Program}
    (h : program.Alike (fun _ _ => True) ⟨[repeating literal count 0 0 0 0]⟩) :
    ∃ p q r s, program = ⟨[repeating literal count p q r s]⟩ := by
  obtain ⟨rules⟩ := program
  obtain ⟨hrules⟩ := h
  cases hrules with
  | cons hrule hnil =>
    cases hnil
    rename_i rule
    obtain ⟨condition, ⟨name, args, q⟩, effects, s⟩ := rule
    obtain ⟨hcondition, ⟨hname, hargs, -⟩, heffects, -⟩ := hrule
    cases hcondition with
    | some hformula =>
      cases hformula with
      | atom htest =>
        cases htest with
        | @compare _ _ _ p _ _ =>
          cases heffects with
          | @cons effect _ _ _ heffect hnil =>
            cases hnil
            obtain ⟨name', args', r⟩ := effect
            obtain ⟨hname', hargs', -⟩ := heffect
            dsimp only at hname hargs hname' hargs'
            subst hname hargs hname' hargs'
            exact ⟨p, q, r, s, rfl⟩

/-- Without offsets the tokens are read as such a rule. -/
theorem readProgram_repeating (literal : String) :
    (readProgram 32).run ((repeatingTokens literal ++ [Token.endOfInput]).map (Located.mk · 0)) =
      .ok (⟨[repeating (literalText literal) 17 0 0 0 0]⟩, [⟨.endOfInput, 0⟩]) := by
  rfl

theorem size_spaced_repeatingTokens (literal : String) :
    (spaced (repeatingTokens literal)).utf8ByteSize = literal.utf8ByteSize + 109 := by
  have htokens : repeatingTokens literal = (repeatingTokens literal).take 7 ++
      .ident literal :: (repeatingTokens literal).drop 8 := rfl
  have hbefore : (String.join (((repeatingTokens literal).take 7).map fun t =>
      t.text ++ " ")).utf8ByteSize = 19 := rfl
  have hafter : (String.join (((repeatingTokens literal).drop 8).map fun t =>
      t.text ++ " ")).utf8ByteSize = 89 := rfl
  have hword : ((Token.ident literal).text ++ " ").utf8ByteSize = literal.utf8ByteSize + 1 :=
    String.utf8ByteSize_append
  rw [spaced, htokens, List.map_append, String.join_append, List.map_cons, String.join_cons,
    String.utf8ByteSize_append, String.utf8ByteSize_append, hbefore, hword, hafter]
  omega

theorem legible_repeatingTokens {literal : String} (h : IsName literal) :
    ∀ t ∈ repeatingTokens literal, t.Legible ∧ t ≠ .endOfInput := by
  have hletter : ∀ name ∈ ["a", "m", "f"], IsName name := by
    intro name hname
    simp only [List.mem_cons, List.not_mem_nil, or_false] at hname
    rcases hname with rfl | rfl | rfl
    all_goals exact isName_of_initial rfl (by decide) nofun (by decide)
  have ha := hletter "a" (by simp)
  have hm := hletter "m" (by simp)
  have hf := hletter "f" (by simp)
  simp [repeatingTokens, List.intercalate, Token.Legible, ha, hm, hf, h]

/-- The text of those tokens is read as such a rule. -/
theorem exists_read_repeating {literal : String} (h : IsName literal) {limits : Limits}
    (hsize : (spaced (repeatingTokens literal)).utf8ByteSize ≤ limits.maxInputBytes)
    (hnesting : limits.maxNesting = 32) : ∃ p q r s, Program.read limits
      (spaced (repeatingTokens literal)) = .ok ⟨[repeating (literalText literal) 17 p q r s]⟩ := by
  obtain ⟨located, e, htokens, hlocated⟩ :=
    tokenize_spaced (legible_repeatingTokens h) (List.cons_ne_nil _ _)
  have hbare : (located ++ [Located.mk .endOfInput e]).map (fun t => Located.mk t.token 0) =
      (repeatingTokens literal ++ [Token.endOfInput]).map (Located.mk · 0) := by
    rw [← hlocated]
    simp
  have haligned : Reader.Aligned (fun _ _ => True) (located ++ [⟨.endOfInput, e⟩])
      ((repeatingTokens literal ++ [Token.endOfInput]).map (Located.mk · 0)) := by
    refine aligned_of_forall₂ ?_ rfl
    rw [← hbare, List.forall₂_map_right_iff, List.forall₂_same]
    exact fun t _ => ⟨rfl, trivial⟩
  -- offsets make no difference to what is read
  have hagree : Reader.Agree _ (Program.Alike _) (readProgram 32) (readProgram 32) _ _ :=
    agree_readProgram haligned
  rw [Reader.Agree, readProgram_repeating] at hagree
  rw [Program.read, if_neg (Nat.not_lt.mpr hsize), htokens, hnesting]
  show ∃ p q r s, Prod.fst <$> (readProgram 32).run _ = _
  cases hrun : (readProgram 32).run (located ++ [⟨.endOfInput, e⟩]) with
  | error error =>
    rw [hrun] at hagree
    cases hagree
  | ok found =>
    rw [hrun] at hagree
    obtain ⟨p, q, r, s, hfound⟩ := exists_repeating_of_alike hagree.of_ok.1
    exact ⟨p, q, r, s, congrArg Except.ok hfound⟩

end Reading

end Imitation

end CausalRules
