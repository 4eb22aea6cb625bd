import CausalRules.ReadError
import CausalRules.Token

/-!
# The tokens of a text

A text is read from left to right. Spaces, tabs and line ends separate tokens; a word takes all the
letters, digits, hyphens and underscores that follow its first letter; inline code runs to the first
`#`, which must be followed by `)`.

- `Token.read`: the token at the head of a text, with the characters after it.
- `tokenize`: all tokens with their byte offsets, and the end of the input as the last one. A token
  takes as many bytes as its text, so offsets advance by the size of `Token.text`.
-/

namespace CausalRules

/-- The characters that may stand between tokens. -/
def isLayout (c : Char) : Bool :=
  c = ' ' || c = '\t' || c = '\n' || c = '\r'

/-- The characters of a word after its first letter; letters are those of ASCII. -/
def isWordChar (c : Char) : Bool :=
  c.isAlphanum || c = '-' || c = '_'

namespace Token

/-- The words that are no identifiers. -/
def keywords : List (String × Token) :=
  [("RULES", .rulesWord), ("TYPE", .typeWord), ("ALL", .allWord), ("STATE", .stateWord),
    ("if", .ifWord)]

/-- The digits after `CONT`, for a word made of `CONT` and digits only. -/
def continuationSuffix? : List Char → Option (List Char)
  | 'C' :: 'O' :: 'N' :: 'T' :: suffix => if suffix.all Char.isDigit then some suffix else none
  | _ => none

/-- The token that a word stands for; `PYTHON` opens inline code and is treated before. -/
def ofWord (word : List Char) : Token :=
  match keywords.lookup (String.ofList word) with
  | some token => token
  | none =>
    match continuationSuffix? word with
    | some suffix => continuation (String.ofList suffix)
    | none => ident (String.ofList word)

/-- Reads the inline code after the word `PYTHON` that stands at `start`. -/
def readPython (start : Nat) (after : List Char) : Except ReadError (Token × List Char) :=
  match after with
  | '(' :: '#' :: body =>
    match body.dropWhile (· != '#') with
    | '#' :: ')' :: rest => .ok (python (String.ofList (body.takeWhile (· != '#'))), rest)
    | _ => .error (.unterminatedPython start)
  | _ =>
    .error (.unexpectedToken .pythonOpening (String.ofList (after.take 2)) (start + 6))

/-- Reads the word that begins with the letter `c` at `start`. -/
def readWord (start : Nat) (c : Char) (rest : List Char) : Except ReadError (Token × List Char) :=
  let word := c :: rest.takeWhile isWordChar
  let after := rest.dropWhile isWordChar
  if word = ['P', 'Y', 'T', 'H', 'O', 'N'] then readPython start after else .ok (ofWord word, after)

/-- Refuses a sign that means something only when doubled or followed by another. -/
def loneSign (expected : Expected) (c : Char) (position : Nat) :
    Except ReadError (Token × List Char) :=
  .error (.unexpectedToken expected c.toString position)

/-- The token that begins with `c` at `position`, and the characters after it. -/
def read (position : Nat) (c : Char) (rest : List Char) : Except ReadError (Token × List Char) :=
  match c, rest with
  | '(', _ => .ok (openParen, rest)
  | ')', _ => .ok (closeParen, rest)
  | ',', _ => .ok (comma, rest)
  | '[', _ => .ok (openBracket, rest)
  | ']', _ => .ok (closeBracket, rest)
  | '{', _ => .ok (openBrace, rest)
  | '}', _ => .ok (closeBrace, rest)
  | ';', _ => .ok (semicolon, rest)
  | '=', _ => .ok (equal, rest)
  | '.', _ => .ok (dot, rest)
  | '\'', _ => .ok (quote, rest)
  | '-', _ => .ok (minus, rest)
  | '<', '=' :: after => .ok (lessEqual, after)
  | '<', _ => .ok (less, rest)
  | '>', '=' :: after => .ok (greaterEqual, after)
  | '>', _ => .ok (greater, rest)
  | ':', '=' :: after => .ok (causes, after)
  | ':', _ => .ok (colon, rest)
  | '!', '=' :: after => .ok (notEqual, after)
  | '!', _ => loneSign .notEqualSign c position
  | '&', '&' :: after => .ok (and, after)
  | '&', _ => loneSign .andSign c position
  | '|', '|' :: after => .ok (or, after)
  | '|', _ => loneSign .orSign c position
  | _, _ =>
    if c.isDigit then
      .ok (digits (String.ofList (c :: rest.takeWhile Char.isDigit)), rest.dropWhile Char.isDigit)
    else if c.isAlpha then readWord position c rest
    else .error (.unexpectedCharacter c position)

/-! ## Reading leaves a shorter rest -/

private theorem length_dropWhile_le (p : Char → Bool) (cs : List Char) :
    (cs.dropWhile p).length ≤ cs.length :=
  (List.dropWhile_sublist p).length_le

theorem length_of_readPython {start : Nat} {after rest : List Char} {token : Token}
    (h : readPython start after = .ok (token, rest)) : rest.length ≤ after.length := by
  unfold readPython at h
  split at h
  · rename_i body
    split at h
    · rename_i heq
      have := length_dropWhile_le (· != '#') body
      rw [heq] at this
      cases h
      simp only [List.length_cons] at this ⊢
      omega
    · cases h
  · cases h

theorem length_of_readWord {start : Nat} {c : Char} {cs rest : List Char} {token : Token}
    (h : readWord start c cs = .ok (token, rest)) : rest.length ≤ cs.length := by
  have drop := length_dropWhile_le isWordChar cs
  unfold readWord at h
  dsimp only at h
  split at h
  · exact Nat.le_trans (length_of_readPython h) drop
  · cases h
    exact drop

/-- A token never takes fewer characters than its first one. -/
theorem length_of_read {position : Nat} {c : Char} {cs rest : List Char} {token : Token}
    (h : read position c cs = .ok (token, rest)) : rest.length ≤ cs.length := by
  unfold read loneSign at h
  split at h
  case h_25 =>
    split at h
    · cases h
      exact length_dropWhile_le _ _
    · split at h
      · exact length_of_readWord h
      · cases h
  all_goals
    cases h
    try simp

end Token

/-- The tokens of what is left, which begins at `position`; the tokens found so far are held in
reverse. -/
def scanFrom (found : List Located) (position : Nat) (text : List Char) :
    Except ReadError (List Located) :=
  match text with
  | [] => if found.isEmpty then .error .emptyInput
    else .ok (⟨.endOfInput, position⟩ :: found).reverse
  | c :: rest =>
    if isLayout c then scanFrom found (position + 1) rest
    else
      match h : Token.read position c rest with
      | .error e => .error e
      | .ok (token, after) =>
        have := Token.length_of_read h
        scanFrom (⟨token, position⟩ :: found) (position + token.text.utf8ByteSize) after
termination_by text.length

/-- The tokens of a text, the last of which is the end of the input. -/
def tokenize (text : String) : Except ReadError (List Located) :=
  scanFrom [] 0 text.toList

end CausalRules
