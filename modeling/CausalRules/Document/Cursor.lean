/-!
# Reading the characters of a document

- `Cursor`: a step that takes characters from the front of a text, or fails.
- `accept`, `acceptAny`, `expect`, `takeAll`: one character, or all that are in a class.
- `spaces`, `lineEnd`, `gap`: what may stand between the parts of a document.
-/

namespace CausalRules.Document

/-- A step that takes characters from the front of a text, or fails. -/
abbrev Cursor := StateT (List Char) Option

/-- Whether a character may stand in a comment, and in a text unless it ends it. -/
def isPlain (c : Char) : Bool :=
  c = '\t' || (0x20 ≤ c.toNat && c.toNat ≠ 0x7F)

/-- Whether a character may stand between the parts of a line. -/
def isSpace (c : Char) : Bool := c = ' ' || c = '\t'

/-- Whether a character may stand in a key without quotes. -/
def isKeyCharacter (c : Char) : Bool := c.isAlphanum || c = '_' || c = '-'

/-- Takes the characters at the front that are in a class. -/
def takeAll (isMember : Char → Bool) : Cursor (List Char) :=
  fun left => some (left.takeWhile isMember, left.dropWhile isMember)

/-- Passes over a character if it stands first, and tells whether it did. -/
def accept (c : Char) : Cursor Bool := fun left =>
  match left with
  | first :: rest => some (if first = c then (true, rest) else (false, left))
  | [] => some (false, [])

/-- Passes over a character if one of the given stands first, and tells whether it did. -/
def acceptAny (choices : List Char) : Cursor Bool := fun left =>
  match left with
  | first :: rest => some (if choices.contains first then (true, rest) else (false, left))
  | [] => some (false, [])

/-- Passes over a character that must stand first. -/
def expect (c : Char) : Cursor Unit := do
  guard (← accept c)

/-- Passes over blanks. -/
def spaces : Cursor Unit := do
  let _ ← takeAll isSpace

/-- The text after the end of a line, which must stand first. -/
def afterLineEnd? : List Char → Option (List Char)
  | '\n' :: rest => some rest
  | '\r' :: '\n' :: rest => some rest
  | _ => none

/-- Passes over blanks, a comment and the end of a line or of the text. -/
def lineEnd : Cursor Unit := do
  spaces
  if ← accept '#' then
    let _ ← takeAll isPlain
  let left ← get
  if left.isEmpty then return
  set (← afterLineEnd? left)

/-- The text after blanks, line ends and comments; `inside` says whether a comment has begun. -/
def afterGap? (inside : Bool) : List Char → Option (List Char)
  | [] => some []
  | '\r' :: '\n' :: rest => afterGap? false rest
  | c :: rest =>
    if c = '\n' then afterGap? false rest
    else if inside then if isPlain c then afterGap? true rest else none
    else if c = '#' then afterGap? true rest
    else if isSpace c then afterGap? false rest
    else some (c :: rest)

/-- Passes over blanks, line ends and comments. -/
def gap : Cursor Unit := do
  set (← afterGap? false (← get))

end CausalRules.Document
