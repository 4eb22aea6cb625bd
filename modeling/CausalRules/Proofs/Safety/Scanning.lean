import CausalRules.Proofs.Reading.Faults
import CausalRules.Proofs.Safety.Bytes
import Mathlib.Data.List.TakeWhile

/-!
# Scanning bytes does not crash

The scanner of the model takes characters from a list. Here it goes over the bytes of a text by
offset, as a program does: it looks at single bytes, cuts texts out between offsets, and goes on for
as many steps as it is given. Every such access is inside the text and at the beginning of a
character, because the scanner only passes over characters of one byte and over inline code as a
whole.

- `scanToken`, `scanLoop`, `tokenizeBytes`: scanning by offset, with every access checked.
- `peekAt_iff`, `consumeWhile_append`: what is seen of bytes is what is seen of characters.
- `scanToken_eq`: one token.
- `tokenizeBytes_eq`: no text crashes the scanner, and it finds the tokens of the model.
-/

namespace CausalRules.Safety

/-! ## The scanner -/

/-- The byte at an offset as a character, if there is one. -/
def peekAt (text : String) (offset : Nat) : Option Char :=
  (utf8 text)[offset]?.map byteChar

/-- The offset after the bytes of a kind. -/
def consumeWhile (text : String) (p : Char → Bool) (offset : Nat) : Nat :=
  offset + (((utf8 text).drop offset).takeWhile fun byte => p (byteChar byte)).length

/-- The offset of the first `#` of a text. -/
def findHash? (text : String) : Option Nat :=
  if '#' ∈ text.toList then some (String.ofList (text.toList.takeWhile (· != '#'))).utf8ByteSize
  else none

/-- A sign of one byte, or of two if the second one follows. -/
def oneOrTwo (text : String) (offset : Nat) (next : Char) (short long : Token) :
    Checked ReadError (Token × Nat) :=
  if peekAt text (offset + 1) = some next then return (long, offset + 2)
  else return (short, offset + 1)

/-- A sign of two bytes, of which the first means nothing alone. -/
def pair (text : String) (offset : Nat) (next : Char) (token : Token) (expected : Expected) :
    Checked ReadError (Token × Nat) := do
  if peekAt text (offset + 1) = some next then return (token, offset + 2)
  else
    let found := byteChar (← byteAt text offset)
    throw (.unexpectedToken expected found.toString offset)

/-- The inline code after the word that stands between two offsets. -/
def scanPython (text : String) (start offset : Nat) : Checked ReadError (Token × Nat) := do
  if peekAt text offset ≠ some '(' ∨ peekAt text (offset + 1) ≠ some '#' then
    let rest ← slice text offset text.utf8ByteSize
    throw (.unexpectedToken .pythonOpening (String.ofList (rest.toList.take 2)) offset)
  else
    let body ← slice text (offset + 2) text.utf8ByteSize
    match findHash? body with
    | none => throw (.unterminatedPython start)
    | some hash =>
      if peekAt text (offset + 2 + hash + 1) ≠ some ')' then throw (.unterminatedPython start)
      else
        let code ← slice text (offset + 2) (offset + 2 + hash)
        return (.python code, offset + 2 + hash + 2)

/-- The word or inline code that begins at an offset, and the offset after it. -/
def scanWord (text : String) (offset : Nat) : Checked ReadError (Token × Nat) := do
  let last := consumeWhile text isWordChar offset
  let word ← slice text offset last
  if word = "PYTHON" then scanPython text offset last
  else return (Token.ofWord word.toList, last)

/-- The number, word or inline code that begins at an offset with a byte, and the offset after
it. -/
def scanRun (text : String) (offset : Nat) (first : Char) : Checked ReadError (Token × Nat) := do
  if first.isDigit then
    let last := consumeWhile text Char.isDigit offset
    return (.digits (← slice text offset last), last)
  else if first.isAlpha then scanWord text offset
  else
    let rest ← slice text offset text.utf8ByteSize
    throw (.unexpectedCharacter (rest.toList.head?.getD '\ufffd') offset)

/-- The token that begins at an offset with a byte, and the offset after it. -/
def scanToken (text : String) (offset : Nat) (first : Char) : Checked ReadError (Token × Nat) :=
  match first with
  | '(' => return (.openParen, offset + 1)
  | ')' => return (.closeParen, offset + 1)
  | ',' => return (.comma, offset + 1)
  | '[' => return (.openBracket, offset + 1)
  | ']' => return (.closeBracket, offset + 1)
  | '{' => return (.openBrace, offset + 1)
  | '}' => return (.closeBrace, offset + 1)
  | ';' => return (.semicolon, offset + 1)
  | '=' => return (.equal, offset + 1)
  | '.' => return (.dot, offset + 1)
  | '\'' => return (.quote, offset + 1)
  | '-' => return (.minus, offset + 1)
  | '<' => oneOrTwo text offset '=' .less .lessEqual
  | '>' => oneOrTwo text offset '=' .greater .greaterEqual
  | ':' => oneOrTwo text offset '=' .colon .causes
  | '!' => pair text offset '=' .notEqual .notEqualSign
  | '&' => pair text offset '&' .and .andSign
  | '|' => pair text offset '|' .or .orSign
  | _ => scanRun text offset first

/-- The tokens from an offset on, in so many steps; the tokens found so far are held in reverse. -/
def scanLoop (text : String) : (steps : Nat) → List Located → (offset : Nat) →
    Checked ReadError (List Located)
  | 0, _, _ => crash
  | steps + 1, found, offset => do
    if offset < text.utf8ByteSize then
      let first := byteChar (← byteAt text offset)
      if isLayout first then scanLoop text steps found (offset + 1)
      else
        let (token, next) ← scanToken text offset first
        scanLoop text steps (⟨token, offset⟩ :: found) next
    else if found.isEmpty then throw .emptyInput
    else return (⟨.endOfInput, offset⟩ :: found).reverse

/-- The tokens of a text. Each step passes over one byte at least. -/
def tokenizeBytes (text : String) : Checked ReadError (List Located) :=
  scanLoop text (text.utf8ByteSize + 1) [] 0

/-! ## Bytes that are characters -/

section Bytes

variable (before : String) {c d : Char} {cs : List Char}

theorem firstByte_eq_iff (hd : d.toNat < 128) : byteChar (firstByte c) = d ↔ c = d := by
  by_cases hc : c.toNat < 128
  · rw [byteChar_firstByte hc]
  · have hbyte := le_firstByte (Nat.not_lt.mp hc)
    constructor
    · rintro rfl
      rw [toNat_byteChar] at hd
      omega
    · rintro rfl
      exact (hc hd).elim

theorem peekAt_append (i : Nat) (text : String) :
    peekAt (before ++ text) (before.utf8ByteSize + i) = peekAt text i := by
  rw [peekAt, peekAt, getElem?_utf8_append]

/-- A character of one byte is seen where it stands, and nowhere else. -/
theorem peekAt_iff (hd : d.toNat < 128) :
    peekAt (before ++ String.ofList cs) before.utf8ByteSize = some d ↔ ∃ rest, cs = d :: rest := by
  have hpeek := peekAt_append before 0 (String.ofList cs)
  rw [Nat.add_zero] at hpeek
  rw [hpeek, peekAt]
  cases cs with
  | nil => simp [utf8]
  | cons c cs =>
    rw [utf8_ofList_cons, utf8EncodeChar_eq_cons]
    have hfirst := @firstByte_eq_iff c d hd
    simp [hfirst]

/-- A kind of characters of one byte. -/
def IsAscii (p : Char → Bool) : Prop :=
  ∀ c, p c = true → c.toNat < 128

/-- Such a character is told by its first byte. -/
theorem IsAscii.firstByte {p : Char → Bool} (hp : IsAscii p) :
    p (byteChar (firstByte c)) = p c := by
  rw [Bool.eq_iff_iff]
  constructor
  · intro h
    rwa [(firstByte_eq_iff (hp _ h)).mp rfl]
  · intro h
    rwa [byteChar_firstByte (hp c h)]

theorem isAscii_isWordChar : IsAscii isWordChar := by
  intro c hc
  simp only [isWordChar, Char.isAlphanum, isAlpha_iff, Char.isDigit, Bool.or_eq_true,
    Bool.and_eq_true, decide_eq_true_eq, ge_iff_le, UInt32.le_iff_toNat_le] at hc
  show c.val.toNat < 128
  rcases hc with (((⟨-, h⟩ | ⟨-, h⟩) | ⟨-, h⟩) | rfl) | rfl
  · exact Nat.lt_of_le_of_lt h (by decide)
  · exact Nat.lt_of_le_of_lt h (by decide)
  · exact Nat.lt_of_le_of_lt h (by decide)
  · decide
  · decide

theorem isAscii_isAlpha : IsAscii Char.isAlpha := fun c hc =>
  isAscii_isWordChar c (by simp [isWordChar, Char.isAlphanum, hc])

theorem isAscii_isDigit : IsAscii Char.isDigit := fun c hc =>
  isAscii_isWordChar c (by simp [isWordChar, Char.isAlphanum, hc])

theorem utf8ByteSize_singleton (hc : c.toNat < 128) : (String.singleton c).utf8ByteSize = 1 := by
  have hle : c.val.toNat ≤ 0x7f := Nat.le_of_lt_succ hc
  rw [← length_utf8, utf8_singleton, String.utf8EncodeChar, if_pos hle]
  rfl

/-- Of bytes as many are of a kind as of characters. -/
theorem length_takeWhile_utf8 {p : Char → Bool} (hp : IsAscii p) (cs : List Char) :
    ((utf8 (String.ofList cs)).takeWhile fun byte => p (byteChar byte)).length =
      (String.ofList (cs.takeWhile p)).utf8ByteSize := by
  induction cs with
  | nil => rfl
  | cons c cs ih =>
    rw [utf8_ofList_cons]
    cases hc : p c with
    | true =>
      have hascii := hp c hc
      have hle : c.val.toNat ≤ 0x7f := Nat.le_of_lt_succ hascii
      have hbytes : String.utf8EncodeChar c = [firstByte c] := by
        rw [firstByte, String.utf8EncodeChar, if_pos hle]
        rfl
      rw [hbytes, List.singleton_append, List.takeWhile_cons, byteChar_firstByte hascii, hc,
        List.takeWhile_cons, hc, if_pos rfl, if_pos rfl, List.length_cons, ih, String.ofList_cons,
        String.utf8ByteSize_append, utf8ByteSize_singleton hascii, Nat.add_comm]
    | false =>
      rw [utf8EncodeChar_eq_cons, List.cons_append, List.takeWhile_cons, hp.firstByte, hc,
        List.takeWhile_cons, hc]
      rfl

theorem consumeWhile_append {p : Char → Bool} (hp : IsAscii p) :
    consumeWhile (before ++ String.ofList cs) p before.utf8ByteSize =
      before.utf8ByteSize + (String.ofList (cs.takeWhile p)).utf8ByteSize := by
  rw [consumeWhile, utf8_append, List.drop_left' (length_utf8 before), length_takeWhile_utf8 hp]

/-- The bytes of a kind are cut out where they stand. -/
theorem slice_consumeWhile {p : Char → Bool} (hp : IsAscii p) :
    slice (before ++ String.ofList cs) before.utf8ByteSize
      (consumeWhile (before ++ String.ofList cs) p before.utf8ByteSize) =
      (pure (String.ofList (cs.takeWhile p)) : Checked ReadError String) := by
  have htext : before ++ String.ofList cs =
      before ++ String.ofList (cs.takeWhile p) ++ String.ofList (cs.dropWhile p) := by
    rw [String.append_assoc, ← String.ofList_append, List.takeWhile_append_dropWhile]
  rw [consumeWhile_append before hp]
  rw [htext]
  exact slice_append ..

/-- The rest of a text is cut out from where a character begins. -/
theorem slice_rest (text : String) :
    slice (before ++ text) before.utf8ByteSize (before ++ text).utf8ByteSize =
      (pure text : Checked ReadError String) := by
  have hslice := @slice_append ReadError before text ""
  rwa [String.append_empty, ← String.utf8ByteSize_append] at hslice

end Bytes

/-! ## One token -/

section Tokens

variable (before : String) (c : Char) {d : Char} (cs : List Char)

/-- The byte after the first one is seen as the character after the first one. -/
theorem peekAt_second {d : Char} (hc : c.toNat < 128) (hd : d.toNat < 128) :
    peekAt (before ++ String.ofList (c :: cs)) (before.utf8ByteSize + 1) = some d ↔
      ∃ rest, cs = d :: rest := by
  have hpeek := @peekAt_iff (before ++ String.singleton c) d cs hd
  rwa [String.append_assoc, ← String.ofList_cons, String.utf8ByteSize_append,
    utf8ByteSize_singleton hc] at hpeek

theorem oneOrTwo_long (hc : c.toNat < 128) (hd : d.toNat < 128) (short long : Token) :
    oneOrTwo (before ++ String.ofList (c :: d :: cs)) before.utf8ByteSize d short long =
      pure (long, before.utf8ByteSize + 2) :=
  if_pos ((peekAt_second before c (d :: cs) hc hd).mpr ⟨cs, rfl⟩)

theorem oneOrTwo_short (hc : c.toNat < 128) (hd : d.toNat < 128) (h : ∀ rest, cs ≠ d :: rest)
    (short long : Token) :
    oneOrTwo (before ++ String.ofList (c :: cs)) before.utf8ByteSize d short long =
      pure (short, before.utf8ByteSize + 1) :=
  if_neg fun hpeek =>
    let ⟨rest, hrest⟩ := (peekAt_second before c cs hc hd).mp hpeek
    h rest hrest

theorem pair_both (hc : c.toNat < 128) (hd : d.toNat < 128) (token : Token)
    (expected : Expected) :
    pair (before ++ String.ofList (c :: d :: cs)) before.utf8ByteSize d token expected =
      pure (token, before.utf8ByteSize + 2) :=
  if_pos ((peekAt_second before c (d :: cs) hc hd).mpr ⟨cs, rfl⟩)

theorem pair_lone (hc : c.toNat < 128) (hd : d.toNat < 128) (h : ∀ rest, cs ≠ d :: rest)
    (token : Token) (expected : Expected) :
    pair (before ++ String.ofList (c :: cs)) before.utf8ByteSize d token expected =
      throw (.unexpectedToken expected c.toString before.utf8ByteSize) := by
  have hpeek : peekAt (before ++ String.ofList (c :: cs)) (before.utf8ByteSize + 1) ≠ some d := by
    intro hpeek
    obtain ⟨rest, hrest⟩ := (peekAt_second before c cs hc hd).mp hpeek
    exact h rest hrest
  rw [pair, if_neg hpeek, byteAt_append, pure_bind, byteChar_firstByte hc]

theorem readPython_unterminated {start : Nat} {body : List Char}
    (h : ∀ after, body.dropWhile (· != '#') ≠ '#' :: ')' :: after) :
    Token.readPython start ('(' :: '#' :: body) = .error (.unterminatedPython start) := by
  simp only [Token.readPython]

/-- Inline code is cut out between its signs. -/
theorem scanPython_opened {start : Nat} (h : before.utf8ByteSize = start + 6) (body : List Char) :
    scanPython (before ++ "(#" ++ String.ofList body) start before.utf8ByteSize =
      checked ((fun x => (x.1, start + x.1.text.utf8ByteSize)) <$>
        Token.readPython start ('(' :: '#' :: body)) := by
  have htext : before ++ "(#" ++ String.ofList body =
      before ++ String.ofList ('(' :: '#' :: body) := by
    rw [String.append_assoc]
    congr 1
    exact (@String.ofList_append ['(', '#'] body).symm
  have hfirst : peekAt (before ++ "(#" ++ String.ofList body) before.utf8ByteSize = some '(' := by
    rw [htext]
    exact (peekAt_iff before (by decide)).mpr ⟨_, rfl⟩
  have hsecond : peekAt (before ++ "(#" ++ String.ofList body) (before.utf8ByteSize + 1) =
      some '#' := by
    rw [htext]
    exact (peekAt_second before '(' _ (by decide) (by decide)).mpr ⟨_, rfl⟩
  have hsize : before.utf8ByteSize + 2 = (before ++ "(#").utf8ByteSize := by
    rw [String.utf8ByteSize_append]
    rfl
  rw [scanPython, if_neg fun h => h.elim (· hfirst) (· hsecond), hsize, slice_rest, pure_bind,
    findHash?, String.toList_ofList]
  by_cases hhash : '#' ∈ body
  · obtain ⟨code, rest, rfl, hcode⟩ := List.eq_append_cons_of_mem hhash
    have hslice := @slice_append ReadError (before ++ "(#") (String.ofList code)
      (String.ofList ('#' :: rest))
    have hend := @peekAt_second (before ++ "(#" ++ String.ofList code) '#' rest ')' (by decide)
      (by decide)
    rw [String.utf8ByteSize_append (s := before ++ "(#")] at hend
    rw [if_pos hhash, Token.takeWhile_code hcode, String.ofList_append, ← String.append_assoc]
    by_cases hclosed : ∃ after, rest = ')' :: after
    · have hpeek := hend.mpr hclosed
      obtain ⟨after, rfl⟩ := hclosed
      have hread : Token.readPython start ('(' :: '#' :: (code ++ '#' :: ')' :: after)) =
          .ok (.python (String.ofList code), after) := by
        simp only [Token.readPython, Token.takeWhile_code hcode, Token.dropWhile_code hcode]
      have hlast : (before ++ "(#").utf8ByteSize + (String.ofList code).utf8ByteSize + 2 =
          start + (Token.python (String.ofList code)).text.utf8ByteSize := by
        have htext : (Token.python (String.ofList code)).text.utf8ByteSize =
            8 + (String.ofList code).utf8ByteSize + 2 := by
          rw [Token.text, String.utf8ByteSize_append, String.utf8ByteSize_append]
          rfl
        rw [← hsize, h, htext]
        omega
      simp only [hpeek, hslice, hlast, hread, ne_eq, not_true_eq_false, if_false, pure_bind]
      rfl
    · have hread := @readPython_unterminated start (code ++ '#' :: rest) fun after hdrop => by
        rw [Token.dropWhile_code hcode] at hdrop
        cases hdrop
        exact hclosed ⟨after, rfl⟩
      simp only [mt hend.mp hclosed, hread, ne_eq, not_false_eq_true, if_true]
      rfl
  · have hread := @readPython_unterminated start body fun after hdrop =>
      hhash ((List.dropWhile_sublist _).subset (hdrop ▸ List.mem_cons_self ..))
    rw [if_neg hhash, hread]
    rfl

theorem scanPython_eq {start : Nat} (h : before.utf8ByteSize = start + 6) :
    scanPython (before ++ String.ofList cs) start before.utf8ByteSize =
      checked ((fun x => (x.1, start + x.1.text.utf8ByteSize)) <$> Token.readPython start cs) := by
  by_cases hopen : ∃ body, cs = '(' :: '#' :: body
  · obtain ⟨body, rfl⟩ := hopen
    have htext : before ++ String.ofList ('(' :: '#' :: body) =
        before ++ "(#" ++ String.ofList body := by
      rw [String.append_assoc]
      congr 1
      exact @String.ofList_append ['(', '#'] body
    rw [htext]
    exact scanPython_opened before h body
  · have hread : Token.readPython start cs = .error
        (.unexpectedToken .pythonOpening (String.ofList (cs.take 2)) (start + 6)) := by
      unfold Token.readPython
      split
      · exact (hopen ⟨_, rfl⟩).elim
      · rfl
    have hpeek : peekAt (before ++ String.ofList cs) before.utf8ByteSize ≠ some '(' ∨
        peekAt (before ++ String.ofList cs) (before.utf8ByteSize + 1) ≠ some '#' := by
      by_cases hfirst : ∃ rest, cs = '(' :: rest
      · obtain ⟨rest, rfl⟩ := hfirst
        refine .inr (mt (peekAt_second before '(' rest (by decide) (by decide)).mp ?_)
        rintro ⟨body, rfl⟩
        exact hopen ⟨body, rfl⟩
      · exact .inl (mt (peekAt_iff before (by decide)).mp hfirst)
    rw [scanPython, if_pos hpeek, slice_rest, hread, h, pure_bind, String.toList_ofList]
    rfl

/-- A word is looked up, or opens inline code. -/
theorem scanWord_eq (hc : c.isAlpha = true) :
    scanWord (before ++ String.ofList (c :: cs)) before.utf8ByteSize =
      checked ((fun x => (x.1, before.utf8ByteSize + x.1.text.utf8ByteSize)) <$>
        Token.readWord before.utf8ByteSize c cs) := by
  have htake : (c :: cs).takeWhile isWordChar = c :: cs.takeWhile isWordChar :=
    List.takeWhile_cons_of_pos (by simp [isWordChar, Char.isAlphanum, hc])
  rw [scanWord, slice_consumeWhile before isAscii_isWordChar,
    consumeWhile_append before isAscii_isWordChar, htake, pure_bind, Token.readWord]
  by_cases hword : c :: cs.takeWhile isWordChar = ['P', 'Y', 'T', 'H', 'O', 'N']
  · have htext : before ++ String.ofList (c :: cs) =
        before ++ "PYTHON" ++ String.ofList (cs.dropWhile isWordChar) := by
      have hcs : c :: cs = ['P', 'Y', 'T', 'H', 'O', 'N'] ++ cs.dropWhile isWordChar := by
        rw [← hword, List.cons_append, List.takeWhile_append_dropWhile]
      rw [String.append_assoc, hcs, String.ofList_append]
    have hsize : before.utf8ByteSize + (String.ofList ['P', 'Y', 'T', 'H', 'O', 'N']).utf8ByteSize =
        (before ++ "PYTHON").utf8ByteSize := by
      rw [String.utf8ByteSize_append]
    rw [if_pos hword, hword, if_pos rfl, htext, hsize]
    exact scanPython_eq (before ++ "PYTHON") _ hsize.symm
  · have hne : String.ofList (c :: cs.takeWhile isWordChar) ≠ "PYTHON" := fun h =>
      hword (String.ofList_inj.mp h)
    have htext : (Token.ofWord (c :: cs.takeWhile isWordChar)).text =
        String.ofList (c :: cs.takeWhile isWordChar) := by
      rw [← String.toList_inj, Token.text_ofWord, String.toList_ofList]
    rw [if_neg hword, if_neg hne, String.toList_ofList, ← htext]
    rfl

theorem scanRun_eq :
    scanRun (before ++ String.ofList (c :: cs)) before.utf8ByteSize (byteChar (firstByte c)) =
      checked ((fun x => (x.1, before.utf8ByteSize + x.1.text.utf8ByteSize)) <$>
        if c.isDigit then
          .ok (Token.digits (String.ofList (c :: cs.takeWhile Char.isDigit)),
            cs.dropWhile Char.isDigit)
        else if c.isAlpha then Token.readWord before.utf8ByteSize c cs
        else .error (.unexpectedCharacter c before.utf8ByteSize)) := by
  rw [scanRun, isAscii_isDigit.firstByte, isAscii_isAlpha.firstByte]
  cases hdigit : c.isDigit with
  | true =>
    have htake : (c :: cs).takeWhile Char.isDigit = c :: cs.takeWhile Char.isDigit :=
      List.takeWhile_cons_of_pos hdigit
    rw [if_pos rfl, if_pos rfl]
    dsimp only
    rw [slice_consumeWhile before isAscii_isDigit, consumeWhile_append before isAscii_isDigit,
      htake]
    rfl
  | false =>
    rw [if_neg Bool.false_ne_true, if_neg Bool.false_ne_true]
    cases halpha : c.isAlpha with
    | true =>
      rw [if_pos rfl, if_pos rfl]
      exact scanWord_eq before c cs halpha
    | false =>
      rw [if_neg Bool.false_ne_true, if_neg Bool.false_ne_true, slice_rest, pure_bind,
        String.toList_ofList]
      rfl

/-- The signs that a token begins with. -/
def signs : List Char :=
  ['(', ')', ',', '[', ']', '{', '}', ';', '=', '.', '\'', '-', '<', '>', ':', '!', '&', '|']

theorem isAscii_signs : IsAscii signs.contains := by
  have hsigns : signs.all fun d => decide (d.toNat < 128) := by decide
  intro d hd
  exact of_decide_eq_true (List.all_eq_true.mp hsigns d (List.contains_iff_mem.mp hd))

theorem scanToken_of_not_sign {text : String} {offset : Nat} {first : Char}
    (h : signs.contains first = false) :
    scanToken text offset first = scanRun text offset first := by
  unfold scanToken
  split
  all_goals first
    | rfl
    | cases h

/-- What begins with a character is read as in the model, which takes the text of the token. -/
theorem scanToken_eq :
    scanToken (before ++ String.ofList (c :: cs)) before.utf8ByteSize (byteChar (firstByte c)) =
      checked ((fun x => (x.1, before.utf8ByteSize + x.1.text.utf8ByteSize)) <$>
        Token.read before.utf8ByteSize c cs) := by
  unfold Token.read
  split
  case h_25 =>
    have hsign : signs.contains c = false := by simp_all [signs]
    rw [scanToken_of_not_sign (isAscii_signs.firstByte.trans hsign)]
    exact scanRun_eq before c cs
  all_goals rw [byteChar_firstByte (by decide)]
  case h_13 | h_15 | h_17 => exact oneOrTwo_long before _ _ (by decide) (by decide) ..
  case h_14 | h_16 | h_18 =>
    exact oneOrTwo_short before _ _ (by decide) (by decide) (by assumption) ..
  case h_19 | h_21 | h_23 => exact pair_both before _ _ (by decide) (by decide) ..
  case h_20 | h_22 | h_24 =>
    exact pair_lone before _ _ (by decide) (by decide) (by assumption) ..
  all_goals rfl

end Tokens

/-! ## All tokens -/

theorem isAscii_isLayout : IsAscii isLayout := by
  intro c hc
  rcases isLayout_iff.mp hc with rfl | rfl | rfl | rfl
  all_goals decide

section Loop

variable {steps : Nat} {found : List Located} {before : String} {c : Char} {cs : List Char}

/-- A step looks at the character that begins where it stands. -/
theorem scanLoop_cons :
    scanLoop (before ++ String.ofList (c :: cs)) (steps + 1) found before.utf8ByteSize =
      if isLayout c then
        scanLoop (before ++ String.ofList (c :: cs)) steps found (before.utf8ByteSize + 1)
      else
        checked ((fun x => (x.1, before.utf8ByteSize + x.1.text.utf8ByteSize)) <$>
          Token.read before.utf8ByteSize c cs) >>= fun (token, next) =>
        scanLoop (before ++ String.ofList (c :: cs)) steps
          (⟨token, before.utf8ByteSize⟩ :: found) next := by
  have hpos : before.utf8ByteSize < (before ++ String.ofList (c :: cs)).utf8ByteSize := by
    have hc := Char.utf8Size_pos c
    rw [String.utf8ByteSize_append, String.ofList_cons, String.utf8ByteSize_append,
      String.utf8ByteSize_singleton]
    omega
  rw [scanLoop, if_pos hpos, byteAt_append, pure_bind]
  dsimp only
  rw [isAscii_isLayout.firstByte, scanToken_eq]

/-- Nothing is left where a text ends. -/
theorem scanLoop_nil :
    scanLoop (before ++ String.ofList []) (steps + 1) found before.utf8ByteSize =
      checked (scanFrom found before.utf8ByteSize []) := by
  have hend : ¬before.utf8ByteSize < (before ++ String.ofList []).utf8ByteSize := by
    rw [String.utf8ByteSize_append]
    exact Nat.lt_irrefl _
  rw [scanLoop, if_neg hend, scanFrom]
  split
  · rfl
  · rfl

/-- Scanning goes on at the end of each token, where a character begins. -/
theorem scanLoop_eq {text : String} (htext : text = before ++ String.ofList cs)
    (hsteps : (String.ofList cs).utf8ByteSize < steps) :
    scanLoop text steps found before.utf8ByteSize =
      checked (scanFrom found before.utf8ByteSize cs) := by
  induction steps generalizing found before cs with
  | zero => exact (Nat.not_lt_zero _ hsteps).elim
  | succ steps ih =>
    subst htext
    cases cs with
    | nil => exact scanLoop_nil
    | cons c cs =>
      rw [scanLoop_cons, scanFrom]
      cases hlayout : isLayout c with
      | true =>
        have hsize : (String.singleton c).utf8ByteSize = 1 :=
          utf8ByteSize_singleton (isAscii_isLayout c hlayout)
        have htext : before ++ String.ofList (c :: cs) =
            before ++ String.singleton c ++ String.ofList cs := by
          rw [String.ofList_cons, String.append_assoc]
        have hstep := @ih found (before ++ String.singleton c) cs htext (by
          rw [String.ofList_cons, String.utf8ByteSize_append, hsize] at hsteps
          omega)
        rwa [String.utf8ByteSize_append, hsize] at hstep
      | false =>
        rw [if_neg Bool.false_ne_true, if_neg Bool.false_ne_true]
        split
        · rename_i hread
          rw [hread]
          rfl
        · rename_i token rest hread
          have hrest : String.ofList (c :: cs) = token.text ++ String.ofList rest := by
            rw [Token.text_of_read hread, String.ofList_append, String.ofList_toList]
          have hpos : token.text.utf8ByteSize ≠ 0 :=
            mt String.utf8ByteSize_eq_zero_iff.mp (Token.text_ne_empty_of_read hread)
          have hstep := @ih (⟨token, before.utf8ByteSize⟩ :: found) (before ++ token.text) rest
            (by rw [hrest, String.append_assoc]) (by
              rw [hrest, String.utf8ByteSize_append] at hsteps
              omega)
          rw [String.utf8ByteSize_append] at hstep
          show _ = checked (scanFrom _ _ _)
          rw [hread, ← hstep]
          rfl

end Loop

/-- No text crashes the scanner, which finds the tokens of the model. -/
theorem tokenizeBytes_eq (text : String) : tokenizeBytes text = checked (tokenize text) := by
  have htext : text = "" ++ String.ofList text.toList := by
    rw [String.ofList_toList, String.empty_append]
  refine @scanLoop_eq _ [] "" _ text htext ?_
  rw [String.ofList_toList]
  exact Nat.lt_succ_self _

end CausalRules.Safety
