import CausalRules.Document.Cursor
import CausalRules.Text.Digits

/-!
# Texts in quotes

- `quotedOnce`: a text in one pair of quotes, on one line.
- `quoted`: a text in quotes, on one line or on many. Between double quotes a backslash begins an
  escape; between single quotes each character stands for itself.
-/

namespace CausalRules.Document

open Text (digitValue digitsValue)

/-- The character that hexadecimal digits name. -/
def characterOf? (digits : List Char) : Option Char :=
  let code := digitsValue 16 digits
  if digits.all (digitValue · < 16) ∧ code.isValidChar then some (Char.ofNat code) else none

/-- The character that stands for an escape of one letter. -/
def shortEscape? : Char → Option Char
  | 'b' => some '\x08'
  | 'e' => some '\x1b'
  | 't' => some '\t'
  | 'n' => some '\n'
  | 'f' => some '\x0c'
  | 'r' => some '\r'
  | '"' => some '"'
  | '\\' => some '\\'
  | _ => none

/-- Reads up to the closing quote of a text with escapes, on one line. What was read so far is held
in reverse; the result is the text and what follows it. -/
def escapedText (found : List Char) : List Char → Option (List Char × List Char)
  | [] => none
  | '"' :: rest => some (found.reverse, rest)
  | '\\' :: 'x' :: a :: b :: rest =>
    match characterOf? [a, b] with
    | some character => escapedText (character :: found) rest
    | none => none
  | '\\' :: 'u' :: a :: b :: c :: d :: rest =>
    match characterOf? [a, b, c, d] with
    | some character => escapedText (character :: found) rest
    | none => none
  | '\\' :: 'U' :: a :: b :: c :: d :: e :: f :: g :: h :: rest =>
    match characterOf? [a, b, c, d, e, f, g, h] with
    | some character => escapedText (character :: found) rest
    | none => none
  | '\\' :: letter :: rest =>
    match shortEscape? letter with
    | some character => escapedText (character :: found) rest
    | none => none
  | c :: rest => if isPlain c ∧ c ≠ '\\' then escapedText (c :: found) rest else none

/-- What three closing quotes leave: up to two more quotes belong to the text. -/
def closeLong (quote : Char) (found rest : List Char) : List Char × List Char :=
  let extra := min 2 (rest.takeWhile (· = quote)).length
  ((List.replicate extra quote ++ found).reverse, rest.drop extra)

/-- Whether nothing but blanks stands before the end of the line. -/
def endsLine (left : List Char) : Bool :=
  (afterLineEnd? (left.dropWhile isSpace)).isSome

/-- Reads up to the three closing quotes of a text with escapes. A backslash at the end of a line
joins it with the next text: `joining` says that blanks and line ends are being passed over. -/
def longEscapedText (joining : Bool) (found : List Char) :
    List Char → Option (List Char × List Char)
  | [] => none
  | '"' :: '"' :: '"' :: rest => some (closeLong '"' found rest)
  | '\\' :: 'x' :: a :: b :: rest =>
    match characterOf? [a, b] with
    | some character => longEscapedText false (character :: found) rest
    | none => none
  | '\\' :: 'u' :: a :: b :: c :: d :: rest =>
    match characterOf? [a, b, c, d] with
    | some character => longEscapedText false (character :: found) rest
    | none => none
  | '\\' :: 'U' :: a :: b :: c :: d :: e :: f :: g :: h :: rest =>
    match characterOf? [a, b, c, d, e, f, g, h] with
    | some character => longEscapedText false (character :: found) rest
    | none => none
  | '\\' :: letter :: rest =>
    match shortEscape? letter with
    | some character => longEscapedText false (character :: found) rest
    | none => if endsLine (letter :: rest) then longEscapedText true found (letter :: rest) else none
  | '\r' :: '\n' :: rest =>
    longEscapedText joining (if joining then found else '\n' :: '\r' :: found) rest
  | c :: rest =>
    if joining ∧ (c = '\n' ∨ isSpace c) then longEscapedText true found rest
    else if c = '\n' ∨ (isPlain c ∧ c ≠ '\\') then longEscapedText false (c :: found) rest
    else none

/-- Reads up to the three closing quotes of a text without escapes. -/
def longLiteralText (found : List Char) : List Char → Option (List Char × List Char)
  | [] => none
  | '\'' :: '\'' :: '\'' :: rest => some (closeLong '\'' found rest)
  | '\r' :: '\n' :: rest => longLiteralText ('\n' :: '\r' :: found) rest
  | c :: rest => if c = '\n' ∨ isPlain c then longLiteralText (c :: found) rest else none

/-- Reads a text in one pair of quotes. -/
def quotedOnce : Cursor String := fun left =>
  match left with
  | '"' :: rest => do
    let (text, rest) ← escapedText [] rest
    return (String.ofList text, rest)
  | '\'' :: rest =>
    match rest.dropWhile (fun c => isPlain c && c ≠ '\'') with
    | '\'' :: after =>
      some (String.ofList (rest.takeWhile (fun c => isPlain c && c ≠ '\'')), after)
    | _ => none
  | _ => none

/-- Reads a text in quotes. The end of a line right after three quotes is not part of the text. -/
def quoted : Cursor String := fun left =>
  match left with
  | '"' :: '"' :: '"' :: rest => do
    let (text, rest) ← longEscapedText false [] ((afterLineEnd? rest).getD rest)
    return (String.ofList text, rest)
  | '\'' :: '\'' :: '\'' :: rest => do
    let (text, rest) ← longLiteralText [] ((afterLineEnd? rest).getD rest)
    return (String.ofList text, rest)
  | _ => quotedOnce left

end CausalRules.Document
