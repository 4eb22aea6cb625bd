import CausalRules.Proofs.Reading.Tokens

/-!
# Tokens and the gaps between them

A text consists of its tokens, as they are written, and of gaps of blanks and line ends between them.
Offsets say where each token stands, so a text can be put together again from its tokens.

- `Token.text_of_read`: what is read as a token is the text of that token.
- `Spread`: the tokens stand in a text at their offsets, with nothing but gaps between them.
  `Spread.standsIn`, `Spread.apart`, `Spread.eq_join` say what follows for single tokens, for any two
  of them, and for the text.
- `scanFrom_eq_emptyInput_iff`: there is no token exactly in a gap.
- `tokenize_lossless`: both for the tokens of a text.
-/

namespace CausalRules

/-- Blanks, tabs and line ends only. -/
def IsGap (gap : String) : Prop :=
  ∀ c ∈ gap.toList, c = ' ' ∨ c = '\t' ∨ c = '\n' ∨ c = '\r'

/-- A token stands in a text at its offset, which is that of a character. -/
def Located.StandsIn (t : Located) (text : String) : Prop :=
  ∃ before after, text = before ++ t.token.text ++ after ∧ before.utf8ByteSize = t.position

theorem isLayout_iff {c : Char} :
    isLayout c = true ↔ c = ' ' ∨ c = '\t' ∨ c = '\n' ∨ c = '\r' := by
  simp [isLayout, or_assoc]

theorem isGap_empty : IsGap "" :=
  List.forall_mem_nil _

theorem isGap_ofList_cons {c : Char} {gap : String} (hc : isLayout c = true) (hgap : IsGap gap) :
    IsGap (String.singleton c ++ gap) := by
  intro d hd
  rw [String.toList_append, String.toList_singleton, List.singleton_append, List.mem_cons] at hd
  rcases hd with rfl | hd
  · exact isLayout_iff.mp hc
  · exact hgap d hd

/-- A blank is one byte. -/
theorem utf8ByteSize_of_isLayout {c : Char} (hc : isLayout c = true) :
    (String.singleton c).utf8ByteSize = 1 := by
  rcases isLayout_iff.mp hc with rfl | rfl | rfl | rfl <;> rfl

/-! ## The text of a token -/

namespace Token

variable {c : Char} {cs rest : List Char} {token : Token}

/-- A word is the text of its token. -/
theorem text_ofWord (word : List Char) : (ofWord word).text.toList = word := by
  have keyword : ∀ entry ∈ keywords, entry.2.text = entry.1 := by decide
  unfold ofWord
  split
  · rename_i token hlookup
    rw [keyword _ (mem_of_lookup hlookup), String.toList_ofList]
  · split
    · rename_i suffix hsuffix
      unfold continuationSuffix? at hsuffix
      split at hsuffix
      · rw [Option.ite_none_right_eq_some] at hsuffix
        obtain rfl := Option.some.inj hsuffix.2
        simp [text]
      · cases hsuffix
    · simp [text]

theorem text_of_readPython {start : Nat} {after : List Char}
    (h : readPython start after = .ok (token, rest)) :
    ['P', 'Y', 'T', 'H', 'O', 'N'] ++ after = token.text.toList ++ rest := by
  unfold readPython at h
  split at h
  · rename_i body
    split at h
    · rename_i heq
      cases h
      have hbody := List.takeWhile_append_dropWhile (p := (· != '#')) (l := body)
      rw [heq] at hbody
      generalize body.takeWhile (· != '#') = code at hbody
      simp [text, ← hbody]
    · cases h
  · cases h

theorem text_of_readWord {start : Nat} (h : readWord start c cs = .ok (token, rest)) :
    c :: cs = token.text.toList ++ rest := by
  have hword := List.takeWhile_append_dropWhile (p := isWordChar) (l := cs)
  unfold readWord at h
  dsimp only at h
  split at h
  · rename_i hpython
    rw [← text_of_readPython h, ← hpython, List.cons_append, hword]
  · cases h
    rw [text_ofWord, List.cons_append, hword]

/-- **What is read as a token is its text.** -/
theorem text_of_read {position : Nat} (h : read position c cs = .ok (token, rest)) :
    c :: cs = token.text.toList ++ rest := by
  unfold read loneSign at h
  split at h
  case h_25 =>
    split at h
    · cases h
      simp [text]
    · split at h
      · exact text_of_readWord h
      · cases h
  all_goals
    cases h
  all_goals rfl

theorem read_ne_emptyInput {position : Nat} : read position c cs ≠ .error .emptyInput := by
  intro h
  unfold read loneSign readWord readPython at h
  dsimp only at h
  repeat' split at h
  all_goals cases h

end Token

/-! ## Where tokens stand -/

/-- In a text that begins at an offset, tokens stand at their offsets, each after a gap; the end of the
input stands after the last gap. -/
inductive Spread : Nat → String → List Located → Prop
  | ends {position : Nat} {gap : String} (hgap : IsGap gap) :
    Spread position gap [⟨.endOfInput, position + gap.utf8ByteSize⟩]
  | token {position : Nat} {gap rest : String} {t : Token} {tokens : List Located} (hgap : IsGap gap)
    (ht : t ≠ .endOfInput) (htext : t.text ≠ "")
    (hrest : Spread (position + gap.utf8ByteSize + t.text.utf8ByteSize) rest tokens) :
    Spread position (gap ++ t.text ++ rest) (⟨t, position + gap.utf8ByteSize⟩ :: tokens)

namespace Spread

variable {position : Nat} {text : String} {tokens : List Located}

/-- A blank before a text makes its first gap longer. -/
theorem cons {c : Char} (hc : isLayout c = true) (h : Spread (position + 1) text tokens) :
    Spread position (String.singleton c ++ text) tokens := by
  have hadd : ∀ gap : String,
      position + 1 + gap.utf8ByteSize = position + (String.singleton c ++ gap).utf8ByteSize := by
    intro gap
    rw [String.utf8ByteSize_append, utf8ByteSize_of_isLayout hc]
    omega
  cases h with
  | ends hgap =>
    rw [hadd]
    exact .ends (isGap_ofList_cons hc hgap)
  | token hgap ht htext hrest =>
    rw [hadd] at hrest ⊢
    rw [← String.append_assoc, ← String.append_assoc]
    exact .token (isGap_ofList_cons hc hgap) ht htext hrest

/-- The end of the input is the last token and no other one; it stands where the text ends. -/
theorem exists_concat (h : Spread position text tokens) :
    ∃ body : List Located, tokens = body ++ [⟨.endOfInput, position + text.utf8ByteSize⟩] ∧
      ∀ t ∈ body, t.token ≠ .endOfInput := by
  induction h with
  | ends => exact ⟨[], rfl, nofun⟩
  | @token position gap rest t tokens _ ht _ _ ih =>
    obtain ⟨body, rfl, hbody⟩ := ih
    refine ⟨⟨t, position + gap.utf8ByteSize⟩ :: body, ?_, List.forall_mem_cons.mpr ⟨ht, hbody⟩⟩
    rw [List.cons_append, String.utf8ByteSize_append, String.utf8ByteSize_append]
    simp only [Nat.add_assoc]

theorem exists_append (h : Spread position text tokens) {t : Located} (ht : t ∈ tokens)
    (hend : t.token ≠ .endOfInput) :
    ∃ before after, text = before ++ t.token.text ++ after ∧
      position + before.utf8ByteSize = t.position := by
  induction h with
  | ends =>
    obtain rfl := List.mem_singleton.mp ht
    exact (hend rfl).elim
  | @token position gap rest u tokens _ _ _ _ ih =>
    rcases List.mem_cons.mp ht with rfl | ht
    · exact ⟨gap, rest, rfl, rfl⟩
    · obtain ⟨before, after, rfl, hposition⟩ := ih ht
      refine ⟨gap ++ u.text ++ before, after, by simp only [String.append_assoc], ?_⟩
      rw [String.utf8ByteSize_append, String.utf8ByteSize_append]
      omega

/-- Every token but the end of the input stands in the text at its offset. -/
theorem standsIn (h : Spread 0 text tokens) {t : Located} (ht : t ∈ tokens)
    (hend : t.token ≠ .endOfInput) : t.StandsIn text := by
  obtain ⟨before, after, htext, hposition⟩ := h.exists_append ht hend
  exact ⟨before, after, htext, (Nat.zero_add _).symm.trans hposition⟩

/-- No token stands before the text. -/
theorem le_position (h : Spread position text tokens) {t : Located} (ht : t ∈ tokens) :
    position ≤ t.position := by
  induction h with
  | ends =>
    obtain rfl := List.mem_singleton.mp ht
    exact Nat.le_add_right ..
  | token _ _ _ _ ih =>
    rcases List.mem_cons.mp ht with rfl | ht
    · exact Nat.le_add_right ..
    · have := ih ht
      omega

/-- Of two tokens the first ends before the second begins. -/
theorem apart (h : Spread position text tokens) :
    tokens.Pairwise fun t u => t.position + t.token.text.utf8ByteSize ≤ u.position := by
  induction h with
  | ends => exact List.pairwise_singleton ..
  | token _ _ _ hrest ih => exact List.pairwise_cons.mpr ⟨fun u hu => hrest.le_position hu, ih⟩

/-- Each token has a text, so offsets increase. -/
theorem increasing (h : Spread position text tokens) :
    tokens.Pairwise (·.position < ·.position) := by
  induction h with
  | ends => exact List.pairwise_singleton ..
  | @token position gap rest t tokens _ _ htext hrest ih =>
    refine List.pairwise_cons.mpr ⟨fun u hu => ?_, ih⟩
    have hsize : 0 < t.text.utf8ByteSize := Nat.pos_of_ne_zero fun hzero =>
      htext (String.utf8ByteSize_eq_zero_iff.mp hzero)
    have := hrest.le_position hu
    dsimp only
    omega

/-- The text is put together again from gaps and the texts of its tokens. -/
theorem eq_join (h : Spread position text tokens) : ∃ (pieces : List (String × Located))
    (last : String), (∀ piece ∈ pieces, IsGap piece.1) ∧ IsGap last ∧
      tokens = pieces.map Prod.snd ++ [⟨.endOfInput, position + text.utf8ByteSize⟩] ∧
      text = String.join (pieces.map fun piece => piece.1 ++ piece.2.token.text) ++ last := by
  induction h with
  | @ends position gap hgap => exact ⟨[], gap, nofun, hgap, rfl, (String.empty_append ..).symm⟩
  | @token position gap rest t tokens hgap _ _ _ ih =>
    obtain ⟨pieces, last, hpieces, hlast, htokens, hrest⟩ := ih
    refine ⟨(gap, ⟨t, position + gap.utf8ByteSize⟩) :: pieces, last,
      List.forall_mem_cons.mpr ⟨hgap, hpieces⟩, hlast, ?_, ?_⟩
    · rw [htokens, List.map_cons, List.cons_append, String.utf8ByteSize_append,
        String.utf8ByteSize_append]
      simp only [Nat.add_assoc]
    · rw [hrest, List.map_cons, String.join_cons]
      simp only [String.append_assoc]

end Spread

/-! ## Scanning -/

/-- Scanning finds the tokens that stand in what is left. -/
theorem scanFrom_spread {found : List Located} {position : Nat} {text : List Char}
    {tokens : List Located} (h : scanFrom found position text = .ok tokens) :
    ∃ rest, tokens = found.reverse ++ rest ∧ Spread position (String.ofList text) rest := by
  fun_induction scanFrom found position text with
  | case1 => cases h
  | case2 found position =>
    cases h
    refine ⟨[⟨.endOfInput, position⟩], List.reverse_cons, ?_⟩
    exact .ends isGap_empty
  | case3 found position c rest hc ih =>
    obtain ⟨later, htokens, hspread⟩ := ih h
    rw [String.ofList_cons]
    exact ⟨later, htokens, hspread.cons hc⟩
  | case4 => cases h
  | case5 found position c rest _ token after hread _ ih =>
    obtain ⟨later, htokens, hspread⟩ := ih h
    obtain ⟨htext, hend⟩ := Token.written_of_read hread
    refine ⟨⟨token, position⟩ :: later, by simp [htokens], ?_⟩
    rw [Token.text_of_read hread, String.ofList_append, String.ofList_toList]
    have htoken := @Spread.token position "" _ _ _ isGap_empty hend htext hspread
    rwa [String.empty_append] at htoken

/-- Scanning finds nothing exactly in a gap. -/
theorem scanFrom_eq_emptyInput_iff {found : List Located} {position : Nat} {text : List Char} :
    scanFrom found position text = .error .emptyInput ↔
      found = [] ∧ ∀ c ∈ text, isLayout c = true := by
  fun_induction scanFrom found position text with
  | case1 found position hfound => simpa using hfound
  | case2 found position hfound => simpa using hfound
  | case3 found position c rest hc ih => rw [ih, List.forall_mem_cons, and_iff_right hc]
  | case4 found position c rest hc error hread =>
    constructor
    · intro h
      exact (Token.read_ne_emptyInput (Except.error.inj h ▸ hread)).elim
    · exact fun h => absurd (h.2 c (List.mem_cons_self ..)) hc
  | case5 found position c rest hc token after _ _ ih =>
    constructor
    · exact fun h => (List.cons_ne_nil _ _ (ih.mp h).1).elim
    · exact fun h => absurd (h.2 c (List.mem_cons_self ..)) hc

theorem tokenize_spread {text : String} {tokens : List Located} (h : tokenize text = .ok tokens) :
    Spread 0 text tokens := by
  obtain ⟨rest, rfl, hspread⟩ := scanFrom_spread h
  rw [String.ofList_toList] at hspread
  exact hspread

/-- **Nothing of a text is lost.** The tokens of a text stand in it at their offsets, one after the
other, and there are only blanks, tabs and line ends before, between and after them. So the text is put
together again from its tokens and gaps; the end of the input is the last token, at the size of the
text. A text has no tokens exactly if it is nothing but a gap. -/
theorem tokenize_lossless (text : String) :
    (∀ tokens, tokenize text = .ok tokens → Spread 0 text tokens ∧
      (∃ body, tokens = body ++ [⟨.endOfInput, text.utf8ByteSize⟩] ∧
        ∀ t ∈ body, t.token ≠ .endOfInput ∧ t.StandsIn text) ∧
      tokens.Pairwise (·.position < ·.position) ∧
      (tokens.Pairwise fun t u => t.position + t.token.text.utf8ByteSize ≤ u.position) ∧
      ∃ (pieces : List (String × Located)) (last : String),
        (∀ piece ∈ pieces, IsGap piece.1) ∧ IsGap last ∧
        tokens = pieces.map Prod.snd ++ [⟨.endOfInput, text.utf8ByteSize⟩] ∧
        text = String.join (pieces.map fun piece => piece.1 ++ piece.2.token.text) ++ last) ∧
    (tokenize text = .error .emptyInput ↔ IsGap text) := by
  refine ⟨fun tokens h => ?_, ?_⟩
  · have hspread := tokenize_spread h
    obtain ⟨body, htokens, hbody⟩ := hspread.exists_concat
    have hjoin := hspread.eq_join
    rw [Nat.zero_add] at htokens hjoin
    refine ⟨hspread, ⟨body, htokens, fun t ht => ⟨hbody t ht, ?_⟩⟩, hspread.increasing,
      hspread.apart, hjoin⟩
    exact hspread.standsIn (htokens ▸ List.mem_append_left _ ht) (hbody t ht)
  · rw [tokenize, scanFrom_eq_emptyInput_iff]
    simp only [isLayout_iff]
    exact and_iff_right trivial

/-- The tokens of a text with a line end and a character of several bytes. -/
theorem tokenize_lossless_wide :
    ∃ tokens, tokenize "x\n PYTHON(#é#) " = .ok tokens ∧ Spread 0 "x\n PYTHON(#é#) " tokens ∧
      tokens.map Located.position = [0, 3, 16] := by
  have htokens : tokenize "x\n PYTHON(#é#) " =
      .ok [⟨.ident "x", 0⟩, ⟨.python "é", 3⟩, ⟨.endOfInput, 16⟩] := by decide +kernel
  exact ⟨_, htokens, ((tokenize_lossless _).1 _ htokens).1, rfl⟩

end CausalRules
