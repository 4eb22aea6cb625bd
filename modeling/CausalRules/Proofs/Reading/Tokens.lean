import CausalRules.Proofs.Traversal
import CausalRules.Rule.Read
import Mathlib.Data.String.Basic

/-!
# Offsets and texts of tokens

Every token is written with at least one character, so the offsets of the tokens of a text increase:
no two tokens begin at the same place, and there are no more tokens than characters.

- `Token.text_ne_empty_of_read`: a token that was read has a text.
- `tokenize_pairwise`: offsets increase from token to token.
- `tokenize_ends`: the end of the input comes last and nowhere else.
- `Token.Lexical`, `tokenize_lexical`: which characters names and runs of digits are made of.
-/

namespace CausalRules

namespace Token

theorem text_ofWord_ne_empty {word : List Char} (h : word ≠ []) : (ofWord word).text ≠ "" := by
  have keyword : ∀ entry ∈ keywords, entry.2.text ≠ "" := by decide
  unfold ofWord
  split
  · rename_i hlookup
    exact keyword _ (mem_of_lookup hlookup)
  · split
    · simp [text]
    · simpa [text] using h

theorem ofWord_ne_endOfInput (word : List Char) : ofWord word ≠ .endOfInput := by
  have keyword : ∀ entry ∈ keywords, entry.2 ≠ .endOfInput := by decide
  unfold ofWord
  split
  · rename_i hlookup
    exact keyword _ (mem_of_lookup hlookup)
  · split
    · exact nofun
    · exact nofun

/-- A token that was read has a text and is not the end of the input. -/
theorem written_of_read {position : Nat} {c : Char} {cs rest : List Char} {token : Token}
    (h : read position c cs = .ok (token, rest)) : token.text ≠ "" ∧ token ≠ .endOfInput := by
  unfold read loneSign at h
  split at h
  case h_25 =>
    split at h
    · cases h
      exact ⟨by simp [text], nofun⟩
    · split at h
      · unfold readWord readPython at h
        dsimp only at h
        split at h
        · split at h
          · split at h
            · cases h
              exact ⟨by simp [text], nofun⟩
            · cases h
          · cases h
        · cases h
          exact ⟨text_ofWord_ne_empty (List.cons_ne_nil _ _), ofWord_ne_endOfInput _⟩
      · cases h
  all_goals
    cases h
  all_goals decide

/-- A token that was read has a text. -/
theorem text_ne_empty_of_read {position : Nat} {c : Char} {cs rest : List Char} {token : Token}
    (h : read position c cs = .ok (token, rest)) : token.text ≠ "" :=
  (written_of_read h).1

end Token

/-- Scanning keeps offsets increasing: those found are below the next one. -/
theorem scanFrom_pairwise {found : List Located} {position : Nat} {text : List Char}
    {tokens : List Located} (h : scanFrom found position text = .ok tokens)
    (hfound : found.Pairwise (·.position > ·.position))
    (hbelow : ∀ t ∈ found, t.position < position) :
    tokens.Pairwise (·.position < ·.position) := by
  fun_induction scanFrom found position text with
  | case1 => cases h
  | case2 found position =>
    cases h
    rw [List.pairwise_reverse, List.pairwise_cons]
    exact ⟨hbelow, hfound⟩
  | case3 found position c rest _ ih =>
    exact ih h hfound fun t ht => Nat.lt_succ_of_lt (hbelow t ht)
  | case4 => cases h
  | case5 found position c rest _ token after hread _ ih =>
    have hsize : 0 < token.text.utf8ByteSize := Nat.pos_of_ne_zero fun hzero =>
      Token.text_ne_empty_of_read hread (String.utf8ByteSize_eq_zero_iff.mp hzero)
    refine ih h (List.pairwise_cons.mpr ⟨hbelow, hfound⟩) fun t ht => ?_
    rcases List.mem_cons.mp ht with rfl | ht
    · exact Nat.lt_add_of_pos_right hsize
    · exact Nat.lt_add_right _ (hbelow t ht)

/-- **Offsets increase from token to token.** -/
theorem tokenize_pairwise {text : String} {tokens : List Located}
    (h : tokenize text = .ok tokens) : tokens.Pairwise (·.position < ·.position) :=
  scanFrom_pairwise h List.Pairwise.nil fun _ ht => (List.not_mem_nil ht).elim

/-- Scanning finds no end of the input but the last token, and no more tokens than characters. -/
theorem scanFrom_ends {found : List Located} {position : Nat} {text : List Char}
    {tokens : List Located} (h : scanFrom found position text = .ok tokens)
    (hfound : ∀ t ∈ found, t.token ≠ .endOfInput) :
    ∃ (body : List Located) (e : Nat), tokens = body ++ [⟨.endOfInput, e⟩] ∧
      (∀ t ∈ body, t.token ≠ .endOfInput) ∧ body.length ≤ found.length + text.length := by
  fun_induction scanFrom found position text with
  | case1 => cases h
  | case2 found position =>
    cases h
    refine ⟨found.reverse, position, List.reverse_cons, ?_, by simp⟩
    exact fun t ht => hfound t (List.mem_reverse.mp ht)
  | case3 found position c rest _ ih =>
    obtain ⟨body, e, htokens, hbody, hlength⟩ := ih h hfound
    exact ⟨body, e, htokens, hbody, Nat.le_succ_of_le hlength⟩
  | case4 => cases h
  | case5 found position c rest _ token after hread hshorter ih =>
    obtain ⟨body, e, htokens, hbody, hlength⟩ := ih h fun t ht => by
      rcases List.mem_cons.mp ht with rfl | ht
      · exact (Token.written_of_read hread).2
      · exact hfound t ht
    refine ⟨body, e, htokens, hbody, ?_⟩
    rw [List.length_cons] at hlength ⊢
    omega

/-- **The end of the input is the last token and no other one, and the others are no more than the
characters.** -/
theorem tokenize_ends {text : String} {tokens : List Located} (h : tokenize text = .ok tokens) :
    ∃ (body : List Located) (e : Nat), tokens = body ++ [⟨.endOfInput, e⟩] ∧
      (∀ t ∈ body, t.token ≠ .endOfInput) ∧ body.length ≤ text.length := by
  obtain ⟨body, e, htokens, hbody, hlength⟩ := scanFrom_ends h fun _ ht =>
    (List.not_mem_nil ht).elim
  rw [List.length_nil, Nat.zero_add, String.length_toList] at hlength
  exact ⟨body, e, htokens, hbody, hlength⟩

/-! ## What names and digits are made of -/

theorem isAlpha_iff {c : Char} : c.isAlpha = true ↔
    'A'.val ≤ c.val ∧ c.val ≤ 'Z'.val ∨ 'a'.val ≤ c.val ∧ c.val ≤ 'z'.val := by
  show (decide ('A'.val ≤ c.val ∧ c.val ≤ 'Z'.val) ||
    decide ('a'.val ≤ c.val) && decide (c.val ≤ 'z'.val)) = true ↔ _
  simp only [Bool.or_eq_true, Bool.and_eq_true, decide_eq_true_eq]

theorem isDigit_of_isAlpha {c : Char} (h : c.isAlpha = true) : c.isDigit = false := by
  simp only [isAlpha_iff, Char.isDigit, Bool.and_eq_false_iff, decide_eq_false_iff_not,
    UInt32.le_iff_toNat_le] at h ⊢
  simp at h ⊢
  omega

/-- A name begins with a letter and goes on with the characters of words; a run of digits is made of
digits. -/
def Token.Lexical : Token → Prop
  | .ident name => ∃ c cs, name.toList = c :: cs ∧ c.isAlpha = true ∧ ∀ d ∈ cs, isWordChar d = true
  | .digits run => run ≠ "" ∧ ∀ c ∈ run.toList, c.isDigit = true
  | _ => True

theorem Token.lexical_ofWord {c : Char} {cs : List Char} (hc : c.isAlpha = true)
    (hcs : ∀ d ∈ cs, isWordChar d = true) : (ofWord (c :: cs)).Lexical := by
  have keyword : ∀ entry ∈ keywords, entry.2.Lexical := by
    simp [keywords, Lexical]
  unfold ofWord
  split
  · rename_i hlookup
    exact keyword _ (mem_of_lookup hlookup)
  · split
    · trivial
    · exact ⟨c, cs, String.toList_ofList, hc, hcs⟩

theorem Token.lexical_of_read {position : Nat} {c : Char} {cs rest : List Char} {token : Token}
    (h : read position c cs = .ok (token, rest)) : token.Lexical := by
  unfold read loneSign at h
  split at h
  case h_25 =>
    split at h
    · rename_i hdigit
      cases h
      refine ⟨by simp, ?_⟩
      rw [String.toList_ofList]
      rintro d hd
      rcases List.mem_cons.mp hd with rfl | hd
      · exact hdigit
      · exact List.all_eq_true.mp List.all_takeWhile d hd
    · split at h
      · rename_i halpha
        unfold readWord readPython at h
        dsimp only at h
        split at h
        · split at h
          · split at h
            · cases h
              trivial
            · cases h
          · cases h
        · cases h
          exact lexical_ofWord halpha fun d hd => List.all_eq_true.mp List.all_takeWhile d hd
      · cases h
  all_goals
    cases h
  all_goals trivial

theorem scanFrom_lexical {found : List Located} {position : Nat} {text : List Char}
    {tokens : List Located} (h : scanFrom found position text = .ok tokens)
    (hfound : ∀ t ∈ found, t.token.Lexical) : ∀ t ∈ tokens, t.token.Lexical := by
  fun_induction scanFrom found position text with
  | case1 => cases h
  | case2 found position =>
    cases h
    intro t ht
    rcases List.mem_cons.mp (List.mem_reverse.mp ht) with rfl | ht
    · trivial
    · exact hfound t ht
  | case3 found position c rest _ ih => exact ih h hfound
  | case4 => cases h
  | case5 found position c rest _ token after hread _ ih =>
    refine ih h fun t ht => ?_
    rcases List.mem_cons.mp ht with rfl | ht
    · exact Token.lexical_of_read hread
    · exact hfound t ht

/-- **Names and runs of digits are made of their characters.** -/
theorem tokenize_lexical {text : String} {tokens : List Located}
    (h : tokenize text = .ok tokens) : ∀ t ∈ tokens, t.token.Lexical :=
  scanFrom_lexical h fun _ ht => (List.not_mem_nil ht).elim

end CausalRules
