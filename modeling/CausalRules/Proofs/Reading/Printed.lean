import CausalRules.Proofs.Reading.Gaps

/-!
# Tokens that are printed are read again

A token stays the same when a blank or nothing follows its text. So the tokens of a list are found
again in a text that has gaps between them. This asks for tokens that texts can have: an identifier
is no keyword, say, and inline code does not hold the character that ends it.

- `IsName`, `IsDigits`: identifiers, and runs of digits.
- `Token.Legible`: the tokens that texts can have; by `tokenize_legible` they have no others.
- `Token.isReadFrom_text`: a token is read from its text.
- `gapped`: a text of tokens and the gaps before them; `placed`: the tokens where they are written.
- `tokenize_gapped`: that text has these tokens there. `tokenize_spaced` is the case of one space.
-/

namespace CausalRules

/-! ## Legible tokens -/

/-- A letter followed by letters, digits, hyphens and underscores, which together are no keyword, do
not open inline code, and are not `CONT` with digits. -/
structure IsName (name : String) : Prop where
  shape : ∃ c cs, name.toList = c :: cs ∧ c.isAlpha = true ∧ ∀ d ∈ cs, isWordChar d = true
  not_keyword : name ∉ ["RULES", "TYPE", "ALL", "STATE", "if"]
  not_python : name ≠ "PYTHON"
  not_continuation : ∀ digits : List Char, (∀ d ∈ digits, d.isDigit = true) →
    name.toList ≠ 'C' :: 'O' :: 'N' :: 'T' :: digits

/-- Decimal digits, of which there is at least one. -/
structure IsDigits (run : String) : Prop where
  ne_empty : run ≠ ""
  digits : ∀ c ∈ run.toList, c.isDigit = true

namespace Token

/-- The tokens that a text can have. -/
def Legible : Token → Prop
  | .ident name => IsName name
  | .digits run => IsDigits run
  | .continuation suffix => ∀ c ∈ suffix.toList, c.isDigit = true
  | .python code => '#' ∉ code.toList
  | _ => True

/-- A word is no other keyword when it is found under none. -/
theorem not_keyword_of_lookup {word : String} (h : keywords.lookup word = none) :
    word ∉ ["RULES", "TYPE", "ALL", "STATE", "if"] := by
  intro hmem
  have hnames : ["RULES", "TYPE", "ALL", "STATE", "if"] = keywords.map Prod.fst := rfl
  rw [hnames] at hmem
  obtain ⟨entry, hentry, rfl⟩ := List.mem_map.mp hmem
  exact absurd (List.lookup_eq_none_iff.mp h entry hentry) (by simp)

theorem lookup_of_not_keyword {word : String}
    (h : word ∉ ["RULES", "TYPE", "ALL", "STATE", "if"]) : keywords.lookup word = none := by
  have hnames : ["RULES", "TYPE", "ALL", "STATE", "if"] = keywords.map Prod.fst := rfl
  rw [List.lookup_eq_none_iff]
  intro entry hentry
  rw [bne_iff_ne]
  rintro rfl
  exact h (hnames ▸ List.mem_map_of_mem hentry)

theorem continuationSuffix?_eq_some_iff {word suffix : List Char} :
    continuationSuffix? word = some suffix ↔
      word = 'C' :: 'O' :: 'N' :: 'T' :: suffix ∧ ∀ d ∈ suffix, d.isDigit = true := by
  unfold continuationSuffix?
  split
  · rename_i digits
    rw [Option.ite_none_right_eq_some, List.all_eq_true]
    constructor
    · rintro ⟨hdigits, heq⟩
      obtain rfl := Option.some.inj heq
      exact ⟨rfl, hdigits⟩
    · rintro ⟨heq, hdigits⟩
      cases heq
      exact ⟨hdigits, rfl⟩
  · rename_i hword
    constructor
    · exact nofun
    · rintro ⟨rfl, -⟩
      exact (hword _ rfl).elim

/-- The token that a word stands for is legible. -/
theorem legible_ofWord {c : Char} {cs : List Char} (hc : c.isAlpha = true)
    (hcs : ∀ d ∈ cs, isWordChar d = true) (hpython : c :: cs ≠ ['P', 'Y', 'T', 'H', 'O', 'N']) :
    (ofWord (c :: cs)).Legible := by
  have keyword : ∀ entry ∈ keywords, entry.2.Legible := by
    simp [keywords, Legible]
  unfold ofWord
  split
  · rename_i hlookup
    exact keyword _ (mem_of_lookup hlookup)
  · rename_i hlookup
    split
    · rename_i suffix hsuffix
      show ∀ d ∈ (String.ofList suffix).toList, _
      rw [String.toList_ofList]
      exact (continuationSuffix?_eq_some_iff.mp hsuffix).2
    · rename_i hsuffix
      refine ⟨⟨c, cs, String.toList_ofList, hc, hcs⟩, not_keyword_of_lookup hlookup, ?_, ?_⟩
      · intro heq
        exact hpython (by rw [← String.toList_ofList (l := c :: cs), heq]; rfl)
      · intro digits hdigits heq
        rw [String.toList_ofList] at heq
        rw [continuationSuffix?_eq_some_iff.mpr ⟨heq, hdigits⟩] at hsuffix
        cases hsuffix

theorem legible_of_readPython {start : Nat} {after rest : List Char} {token : Token}
    (h : readPython start after = .ok (token, rest)) : token.Legible := by
  unfold readPython at h
  split at h
  · split at h
    · cases h
      show '#' ∉ (String.ofList _).toList
      rw [String.toList_ofList]
      intro hmem
      have hne := List.all_eq_true.mp List.all_takeWhile '#' hmem
      simp at hne
    · cases h
  · cases h

/-- A token that was read is legible. -/
theorem legible_of_read {position : Nat} {c : Char} {cs rest : List Char} {token : Token}
    (h : read position c cs = .ok (token, rest)) : token.Legible := by
  unfold read loneSign at h
  split at h
  case h_25 =>
    split at h
    · rename_i hdigit
      cases h
      refine ⟨by simp, ?_⟩
      rw [String.toList_ofList, List.forall_mem_cons]
      exact ⟨hdigit, List.all_eq_true.mp List.all_takeWhile⟩
    · split at h
      · rename_i halpha
        unfold readWord at h
        dsimp only at h
        split at h
        · exact legible_of_readPython h
        · rename_i hpython
          cases h
          exact legible_ofWord halpha (List.all_eq_true.mp List.all_takeWhile) hpython
      · cases h
  all_goals
    cases h
  all_goals trivial

end Token

theorem scanFrom_legible {found : List Located} {position : Nat} {text : List Char}
    {tokens : List Located} (h : scanFrom found position text = .ok tokens)
    (hfound : ∀ t ∈ found, t.token.Legible) : ∀ t ∈ tokens, t.token.Legible := by
  fun_induction scanFrom found position text with
  | case1 => cases h
  | case2 found position =>
    cases h
    intro t ht
    rcases List.mem_cons.mp (List.mem_reverse.mp ht) with rfl | ht
    · trivial
    · exact hfound t ht
  | case3 found position c rest _ ih => exact ih h hfound
  | case4 => cases h
  | case5 found position c rest _ token after hread _ ih =>
    exact ih h (List.forall_mem_cons.mpr ⟨Token.legible_of_read hread, hfound⟩)

/-- **The tokens of a text are legible.** -/
theorem tokenize_legible {text : String} {tokens : List Located}
    (h : tokenize text = .ok tokens) : ∀ t ∈ tokens, t.token.Legible :=
  scanFrom_legible h fun _ ht => (List.not_mem_nil ht).elim

/-! ## Reading a printed token -/

/-- What stands here does not belong to the token before it: it begins with a blank, or is nothing. -/
def Separates (rest : List Char) : Prop :=
  ∀ c ∈ rest.head?, isLayout c = true

/-- A class of characters without blanks ends where a token is separated from what follows. -/
theorem Separates.takeWhile_append {p : Char → Bool} {run rest : List Char} (h : Separates rest)
    (hblank : ∀ c, isLayout c = true → p c = false) (hrun : ∀ c ∈ run, p c = true) :
    (run ++ rest).takeWhile p = run ∧ (run ++ rest).dropWhile p = rest := by
  rw [List.takeWhile_append_of_pos hrun, List.dropWhile_append_of_pos hrun]
  cases rest with
  | nil => exact ⟨List.append_nil _, rfl⟩
  | cons c rest =>
    have hc : p c = false := hblank c (h c rfl)
    rw [List.takeWhile_cons_of_neg (by simp [hc]), List.dropWhile_cons_of_neg (by simp [hc]),
      List.append_nil]
    exact ⟨rfl, rfl⟩

/-- Blanks are neither digits nor characters of words. -/
theorem not_of_isLayout {c : Char} (h : isLayout c = true) :
    c.isDigit = false ∧ isWordChar c = false := by
  simp only [isLayout, Bool.or_eq_true, decide_eq_true_eq] at h
  rcases h with ((rfl | rfl) | rfl) | rfl
  all_goals decide

namespace Token

theorem read_of_isDigit {position : Nat} {c : Char} {cs : List Char} (h : c.isDigit = true) :
    read position c cs =
      .ok (digits (String.ofList (c :: cs.takeWhile Char.isDigit)), cs.dropWhile Char.isDigit) := by
  unfold read
  split
  case h_25 => rw [if_pos h]
  all_goals cases h

theorem read_of_isAlpha {position : Nat} {c : Char} {cs : List Char} (h : c.isAlpha = true) :
    read position c cs = readWord position c cs := by
  have hdigit : c.isDigit = false := isDigit_of_isAlpha h
  unfold read
  split
  case h_25 => rw [if_neg (by simp [hdigit]), if_pos h]
  all_goals cases h

theorem readWord_append {position : Nat} {c : Char} {cs rest : List Char}
    (hcs : ∀ d ∈ cs, isWordChar d = true) (h : Separates rest)
    (hpython : c :: cs ≠ ['P', 'Y', 'T', 'H', 'O', 'N']) :
    readWord position c (cs ++ rest) = .ok (ofWord (c :: cs), rest) := by
  obtain ⟨htake, hdrop⟩ := h.takeWhile_append (fun _ hd => (not_of_isLayout hd).2) hcs
  unfold readWord
  dsimp only
  rw [htake, hdrop, if_neg hpython]

theorem ofWord_name {name : String} (h : IsName name) : ofWord name.toList = .ident name := by
  have hsuffix : continuationSuffix? name.toList = none := by
    cases hsome : continuationSuffix? name.toList with
    | none => rfl
    | some digits =>
      obtain ⟨heq, hdigits⟩ := continuationSuffix?_eq_some_iff.mp hsome
      exact (h.not_continuation digits hdigits heq).elim
  unfold ofWord
  rw [String.ofList_toList, lookup_of_not_keyword h.not_keyword, hsuffix]

theorem ofWord_continuation {suffix : List Char} (h : ∀ d ∈ suffix, d.isDigit = true) :
    ofWord ('C' :: 'O' :: 'N' :: 'T' :: suffix) = .continuation (String.ofList suffix) := by
  have hkeyword : String.ofList ('C' :: 'O' :: 'N' :: 'T' :: suffix) ∉
      ["RULES", "TYPE", "ALL", "STATE", "if"] := by
    intro hmem
    have hlist := List.mem_map_of_mem (f := String.toList) hmem
    rw [String.toList_ofList] at hlist
    revert hlist
    simp
  unfold ofWord
  rw [lookup_of_not_keyword hkeyword, continuationSuffix?_eq_some_iff.mpr ⟨rfl, h⟩]

theorem readPython_append {start : Nat} {code rest : List Char} (h : '#' ∉ code) :
    readPython start ('(' :: '#' :: (code ++ '#' :: ')' :: rest)) =
      .ok (.python (String.ofList code), rest) := by
  have hcode : ∀ d ∈ code, (d != '#') = true := by
    rintro d hd
    rw [bne_iff_ne]
    rintro rfl
    exact h hd
  simp [readPython, List.takeWhile_append_of_pos hcode, List.dropWhile_append_of_pos hcode]

/-- Signs that another token begins with are tokens by themselves when no equals sign follows. -/
theorem read_unpaired {position : Nat} {rest : List Char} (h : Separates rest) :
    read position '<' rest = .ok (less, rest) ∧ read position '>' rest = .ok (greater, rest) ∧
      read position ':' rest = .ok (colon, rest) := by
  cases rest with
  | nil => exact ⟨rfl, rfl, rfl⟩
  | cons d rest =>
    have hd : d ≠ '=' := by
      rintro rfl
      cases h _ rfl
    simp [read, hd]

/-- A token is read from its text. -/
def IsReadFrom (t : Token) (c : Char) (cs : List Char) : Prop :=
  isLayout c = false ∧
    ∀ position rest, Separates rest → read position c (cs ++ rest) = .ok (t, rest)

theorem isReadFrom_word {t : Token} {c : Char} {cs : List Char} (hc : c.isAlpha = true)
    (hcs : cs.all isWordChar = true) (hpython : c :: cs ≠ ['P', 'Y', 'T', 'H', 'O', 'N'])
    (ht : ofWord (c :: cs) = t) : t.IsReadFrom c cs := by
  refine ⟨?_, fun position rest hrest => ?_⟩
  · rw [Bool.eq_false_iff]
    intro hlayout
    have hword := (not_of_isLayout hlayout).2
    simp [isWordChar, Char.isAlphanum, hc] at hword
  · rw [read_of_isAlpha hc, readWord_append (List.all_eq_true.mp hcs) hrest hpython, ht]

theorem isReadFrom_text {t : Token} (h : t.Legible) (hend : t ≠ .endOfInput) :
    ∃ c cs, t.text.toList = c :: cs ∧ t.IsReadFrom c cs := by
  cases t with
  | ident name =>
    obtain ⟨c, cs, hname, hc, hcs⟩ := h.shape
    refine ⟨c, cs, hname, isReadFrom_word hc (List.all_eq_true.mpr hcs) ?_ (hname ▸ ofWord_name h)⟩
    intro heq
    exact h.not_python (String.toList_inj.mp (hname.trans heq))
  | digits run =>
    cases hrun : run.toList with
    | nil => exact absurd (String.toList_inj.mp hrun) h.ne_empty
    | cons c cs =>
      have hdigits := h.digits
      rw [hrun, List.forall_mem_cons] at hdigits
      refine ⟨c, cs, hrun, ?_, fun position rest hrest => ?_⟩
      · rw [Bool.eq_false_iff]
        intro hlayout
        rw [(not_of_isLayout hlayout).1] at hdigits
        cases hdigits.1
      · obtain ⟨htake, hdrop⟩ :=
          hrest.takeWhile_append (fun _ hd => (not_of_isLayout hd).1) hdigits.2
        rw [read_of_isDigit hdigits.1, htake, hdrop, ← hrun, String.ofList_toList]
  | continuation suffix =>
    refine ⟨'C', 'O' :: 'N' :: 'T' :: suffix.toList, by simp [text],
      isReadFrom_word rfl ?_ (by simp) ?_⟩
    · simp only [List.all_eq_true, List.forall_mem_cons]
      refine ⟨rfl, rfl, rfl, fun d hd => ?_⟩
      simp [isWordChar, Char.isAlphanum, h d hd]
    · rw [ofWord_continuation h, String.ofList_toList]
  | python code =>
    refine ⟨'P', 'Y' :: 'T' :: 'H' :: 'O' :: 'N' :: '(' :: '#' :: (code.toList ++ ['#', ')']),
      by simp [text], rfl, fun position rest hrest => ?_⟩
    have hcode : readPython position ('(' :: '#' :: (code.toList ++ '#' :: ')' :: rest)) = _ :=
      readPython_append h
    rw [String.ofList_toList] at hcode
    simpa [read, readWord, isWordChar] using hcode
  | less => exact ⟨'<', [], rfl, rfl, fun _ _ hrest => (read_unpaired hrest).1⟩
  | greater => exact ⟨'>', [], rfl, rfl, fun _ _ hrest => (read_unpaired hrest).2.1⟩
  | colon => exact ⟨':', [], rfl, rfl, fun _ _ hrest => (read_unpaired hrest).2.2⟩
  | endOfInput => exact (hend rfl).elim
  | rulesWord =>
    exact ⟨'R', ['U', 'L', 'E', 'S'], rfl, isReadFrom_word rfl rfl (by decide) rfl⟩
  | typeWord => exact ⟨'T', ['Y', 'P', 'E'], rfl, isReadFrom_word rfl rfl (by decide) rfl⟩
  | allWord => exact ⟨'A', ['L', 'L'], rfl, isReadFrom_word rfl rfl (by decide) rfl⟩
  | stateWord =>
    exact ⟨'S', ['T', 'A', 'T', 'E'], rfl, isReadFrom_word rfl rfl (by decide) rfl⟩
  | ifWord => exact ⟨'i', ['f'], rfl, isReadFrom_word rfl rfl (by decide) rfl⟩
  | _ => exact ⟨_, _, rfl, rfl, fun _ _ _ => rfl⟩

end Token

/-! ## Texts of tokens and gaps -/

theorem scanFrom_layout {found : List Located} {position : Nat} {c : Char} {rest : List Char}
    (hc : isLayout c = true) :
    scanFrom found position (c :: rest) = scanFrom found (position + 1) rest := by
  rw [scanFrom, if_pos hc]

theorem scanFrom_token {found : List Located} {position : Nat} {c : Char}
    {rest after : List Char} {token : Token} (hc : isLayout c = false)
    (h : Token.read position c rest = .ok (token, after)) :
    scanFrom found position (c :: rest) =
      scanFrom (⟨token, position⟩ :: found) (position + token.text.utf8ByteSize) after := by
  rw [scanFrom, if_neg (by simp [hc])]
  split
  · rename_i heq
    rw [h] at heq
    cases heq
  · rename_i heq
    rw [h] at heq
    cases heq
    rfl

/-- Tokens as they are written, each with the gap before it. -/
def gapped (pieces : List (String × Token)) : String :=
  String.join (pieces.map fun piece => piece.1 ++ piece.2.text)

/-- The tokens of pieces that are written after a text. A token stands where all that is written
before it ends. -/
def placed (before : String) : List (String × Token) → List Located
  | [] => []
  | (gap, t) :: rest =>
    ⟨t, (before ++ gap).utf8ByteSize⟩ :: placed (before ++ gap ++ t.text) rest

/-- Pieces that can be told apart: legible tokens, each after a gap. -/
def AreGapped (pieces : List (String × Token)) : Prop :=
  ∀ piece ∈ pieces, IsGap piece.1 ∧ piece.2.Legible ∧ piece.2 ≠ .endOfInput

theorem gapped_cons (gap : String) (t : Token) (rest : List (String × Token)) :
    gapped ((gap, t) :: rest) = gap ++ t.text ++ gapped rest := by
  rw [gapped, List.map_cons, String.join_cons, gapped]

theorem map_token_placed (before : String) (pieces : List (String × Token)) :
    (placed before pieces).map Located.token = pieces.map Prod.snd := by
  induction pieces generalizing before with
  | nil => rfl
  | cons piece rest ih => rw [placed, List.map_cons, ih, List.map_cons]

/-- A gap is passed over. -/
theorem scanFrom_gap {found : List Located} {position : Nat} {gap : String} {rest : List Char}
    (h : IsGap gap) : scanFrom found position (gap.toList ++ rest) =
      scanFrom found (position + gap.utf8ByteSize) rest := by
  obtain ⟨cs, rfl⟩ : ∃ cs, gap = String.ofList cs := ⟨gap.toList, String.ofList_toList.symm⟩
  induction cs generalizing position with
  | nil => rfl
  | cons c cs ih =>
    have hc : isLayout c = true := isLayout_iff.mpr (h c (by simp))
    have hcs : IsGap (String.ofList cs) := fun d hd =>
      h d (by rw [String.toList_ofList] at hd ⊢; exact List.mem_cons_of_mem _ hd)
    have hrest := @ih (position + 1) hcs
    rw [String.toList_ofList] at hrest ⊢
    rw [List.cons_append, scanFrom_layout hc, hrest, String.ofList_cons,
      String.utf8ByteSize_append, utf8ByteSize_of_isLayout hc, Nat.add_assoc]

/-- A gap that is not empty separates, and so does the end of the text. -/
theorem separates_gap {gap : String} {rest : List Char} (h : IsGap gap)
    (hne : gap = "" → rest = []) : Separates (gap.toList ++ rest) := by
  intro c hc
  cases hgap : gap.toList with
  | nil =>
    rw [hgap, hne (String.toList_eq_nil_iff.mp hgap)] at hc
    cases hc
  | cons d cs =>
    rw [hgap] at hc
    obtain rfl := Option.some.inj hc
    exact isLayout_iff.mpr (h d (hgap ▸ List.mem_cons_self))

/-- Scanning adds the tokens of pieces to those found before. What is written before the pieces only
counts by its size. -/
theorem scanFrom_gapped {pieces : List (String × Token)} (h : AreGapped pieces)
    (hapart : ∀ piece ∈ pieces.tail, piece.1 ≠ "") {last : String} (hlast : IsGap last)
    {found : List Located} (hne : found ≠ [] ∨ pieces ≠ []) (before : String) :
    scanFrom found before.utf8ByteSize (gapped pieces ++ last).toList =
      .ok (found.reverse ++ (placed before pieces ++
        [⟨.endOfInput, (before ++ gapped pieces ++ last).utf8ByteSize⟩])) := by
  induction pieces generalizing found before with
  | nil =>
    have hfound : found ≠ [] := hne.resolve_right fun hnil => hnil rfl
    have hscan := @scanFrom_gap found before.utf8ByteSize last [] hlast
    rw [List.append_nil] at hscan
    show scanFrom found _ ("" ++ last).toList =
      .ok (found.reverse ++ [⟨_, (before ++ "" ++ last).utf8ByteSize⟩])
    rw [String.empty_append, String.append_empty, hscan, scanFrom, if_neg (by simpa using hfound),
      List.reverse_cons, String.utf8ByteSize_append]
  | cons piece rest ih =>
    obtain ⟨gap, t⟩ := piece
    obtain ⟨⟨hgap, hlegible, hend⟩, hrest⟩ := List.forall_mem_cons.mp h
    obtain ⟨c, cs, htext, hc, hread⟩ := Token.isReadFrom_text hlegible hend
    -- what follows the token begins with the next gap, or is the last one
    have hseparates : Separates (gapped rest ++ last).toList := by
      cases rest with
      | nil =>
        have hlast' := @separates_gap last [] hlast fun _ => rfl
        rwa [List.append_nil] at hlast'
      | cons next rest =>
        have hnext := @separates_gap next.1 (next.2.text ++ gapped rest ++ last).toList
          (hrest next List.mem_cons_self).1 fun hempty =>
            (hapart next List.mem_cons_self hempty).elim
        rw [gapped_cons, String.append_assoc, String.append_assoc, String.toList_append,
          ← String.append_assoc]
        exact hnext
    have hscan := @ih hrest (fun piece hpiece => hapart piece (List.mem_of_mem_tail hpiece))
      (⟨t, (before ++ gap).utf8ByteSize⟩ :: found) (.inl (List.cons_ne_nil _ _))
      (before ++ gap ++ t.text)
    rw [gapped_cons, String.append_assoc, String.append_assoc, String.toList_append,
      scanFrom_gap hgap, String.toList_append, htext, List.cons_append,
      scanFrom_token hc (hread _ _ hseparates), ← String.utf8ByteSize_append,
      ← String.utf8ByteSize_append, hscan, placed, List.reverse_cons]
    simp only [List.append_assoc, List.cons_append, List.nil_append, String.append_assoc]

/-- A text with a space after each token. -/
def spaced (tokens : List Token) : String :=
  String.join (tokens.map fun t => t.text ++ " ")

/-- The space after a token is the gap before the next one. -/
theorem spaced_cons (t : Token) (tokens : List Token) :
    spaced (t :: tokens) = gapped (("", t) :: tokens.map (" ", ·)) ++ " " := by
  have hshift : ∀ tokens : List Token,
      " " ++ spaced tokens = gapped (tokens.map (" ", ·)) ++ " " := by
    intro tokens
    induction tokens with
    | nil => rfl
    | cons u tokens ih =>
      rw [List.map_cons, gapped_cons, String.append_assoc, ← ih, spaced, List.map_cons,
        String.join_cons, spaced]
      simp only [String.append_assoc]
  rw [gapped_cons, String.append_assoc, ← hshift, spaced, List.map_cons, String.join_cons, spaced]
  simp only [String.append_assoc, String.empty_append]

/-- **Tokens printed with a space after each are the tokens of the text.** -/
theorem tokenize_spaced {tokens : List Token} (h : ∀ t ∈ tokens, t.Legible ∧ t ≠ .endOfInput)
    (hne : tokens ≠ []) : ∃ (located : List Located) (e : Nat), tokenize (spaced tokens) =
        .ok (located ++ [⟨.endOfInput, e⟩]) ∧ located.map Located.token = tokens := by
  obtain ⟨t, tokens, rfl⟩ := List.exists_cons_of_ne_nil hne
  obtain ⟨ht, htokens⟩ := List.forall_mem_cons.mp h
  have hspace : IsGap " " := by
    intro c hc
    exact .inl (List.mem_singleton.mp hc)
  have hpieces : AreGapped (("", t) :: tokens.map (" ", ·)) :=
    List.forall_mem_cons.mpr
      ⟨⟨nofun, ht⟩, List.forall_mem_map.mpr fun u hu => ⟨hspace, htokens u hu⟩⟩
  have hapart : ∀ piece ∈ tokens.map ((" ", ·) : Token → String × Token), piece.1 ≠ "" := by
    refine List.forall_mem_map.mpr fun u _ => ?_
    show " " ≠ ""
    decide
  have hscan := @scanFrom_gapped _ hpieces hapart " " hspace [] (.inr (List.cons_ne_nil _ _)) ""
  rw [← spaced_cons, List.reverse_nil, List.nil_append] at hscan
  refine ⟨_, _, hscan, ?_⟩
  rw [map_token_placed, List.map_cons, List.map_map]
  exact congrArg (t :: ·) (List.map_id _)

/-- **Scanning undoes printing.** Let legible tokens be printed in order with gaps between them that
are not empty; there may be gaps before the first and after the last one as well. Then the tokens of
the text are these, each where it was printed, and the end of the input where the text ends. -/
theorem tokenize_gapped {pieces : List (String × Token)} {last : String} (hne : pieces ≠ [])
    (h : AreGapped pieces) (hapart : ∀ piece ∈ pieces.tail, piece.1 ≠ "") (hlast : IsGap last) :
    tokenize (gapped pieces ++ last) =
      .ok (placed "" pieces ++ [⟨.endOfInput, (gapped pieces ++ last).utf8ByteSize⟩]) := by
  have hscan := @scanFrom_gapped pieces h hapart last hlast [] (.inr hne) ""
  rwa [String.empty_append] at hscan

/-- Tokens that would run into each other, kept apart by gaps of all kinds. -/
def closePieces : List (String × Token) :=
  [("", .ifWord), ("\t", .ident "if-2"), ("\r\n", .less), ("\n", .equal),
    (" ", .python "é ≠ 'x' "), ("  ", .continuation ""), (" \t", .digits "7")]

theorem areGapped_closePieces : AreGapped closePieces := by
  have hname : IsName "if-2" := by
    refine ⟨⟨'i', ['f', '-', '2'], rfl, rfl, List.all_eq_true.mp rfl⟩, by decide, by decide,
      fun digits _ h => ?_⟩
    have hinitial : "if-2".toList.head? ≠ some 'C' := by decide
    exact hinitial (congrArg List.head? h)
  have hcode : '#' ∉ "é ≠ 'x' ".toList := by decide
  have hdigits : IsDigits "7" := ⟨by decide, List.all_eq_true.mp rfl⟩
  have hgaps : ∀ piece ∈ closePieces, IsGap piece.1 := by
    simp [closePieces, IsGap]
  have hends : ∀ piece ∈ closePieces, piece.2 ≠ .endOfInput := by decide
  have hlegible : ∀ piece ∈ closePieces, piece.2.Legible := by
    simp only [closePieces, List.forall_mem_cons]
    exact ⟨trivial, hname, trivial, trivial, hcode, nofun, hdigits, nofun⟩
  exact fun piece hpiece => ⟨hgaps piece hpiece, hlegible piece hpiece, hends piece hpiece⟩

/-- These tokens are found again where they were printed. -/
theorem tokenize_gapped_close :
    gapped closePieces ++ "" = "if\tif-2\r\n<\n= PYTHON(#é ≠ 'x' #)  CONT \t7" ∧
    (∀ piece ∈ closePieces.tail, piece.1 ≠ "") ∧
    tokenize (gapped closePieces ++ "") =
      .ok [⟨.ifWord, 0⟩, ⟨.ident "if-2", 3⟩, ⟨.less, 9⟩, ⟨.equal, 11⟩, ⟨.python "é ≠ 'x' ", 13⟩,
        ⟨.continuation "", 36⟩, ⟨.digits "7", 42⟩, ⟨.endOfInput, 43⟩] := by
  have hne : closePieces ≠ [] := List.cons_ne_nil _ _
  have hapart : ∀ piece ∈ closePieces.tail, piece.1 ≠ "" := by decide
  have htokens := @tokenize_gapped closePieces "" hne areGapped_closePieces hapart nofun
  refine ⟨by decide +kernel, hapart, htokens.trans ?_⟩
  decide +kernel

end CausalRules
