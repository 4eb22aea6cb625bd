import CausalRules.Document
import CausalRules.Document.Moment
import CausalRules.Text.Split

/-!
# Values without quotes

Truth values, numbers, dates and times are written without quotes. An integer is kept even if its
digits name no number, as those of `0x` or `1_f`: only a setting that asks for the number refuses it.

- `based?`: an integer in a base other than ten.
- `decimal?`: what begins with a decimal digit after its sign.
- `bareValue?`: any value without quotes or brackets.
-/

namespace CausalRules.Document

open Text (digitValue digitsValue)

/-! ## Parts of numbers -/

/-- Whether underscores stand between digits. The sign of a number may also be alone in front of the
first one. -/
def underscoresFit (isDigit : Char → Bool) (written : List Char) : Bool :=
  match Text.splitAll '_' written with
  | [] | [_] => true
  | first :: rest =>
    (first.length = 1 || first.getLast?.any isDigit) && rest.all (·.head?.any isDigit) &&
      rest.dropLast.all (·.getLast?.any isDigit)

/-- A sign, if there is one, and what follows it. -/
def splitSign : List Char → Bool × List Char
  | '-' :: rest => (true, rest)
  | '+' :: rest => (false, rest)
  | written => (false, written)

/-- The number that digits in a base name, if they are digits. -/
def naturalValue? (base : Nat) (digits : List Char) : Option Nat :=
  if !digits.isEmpty && digits.all (digitValue · < base) then some (digitsValue base digits)
  else none

/-- The number that digits with a sign name, if they are digits. Underscores do not count. -/
def integerValue? (written : List Char) : Option Int :=
  let (negative, digits) := splitSign (written.filter (· ≠ '_'))
  (naturalValue? 10 digits).map fun n => if negative then -(n : Int) else n

/-- An integer in a base other than ten, from what follows the mark of the base. It may lack
digits. -/
def based? (base : Nat) (written : List Char) : Option Node :=
  if written.all (fun c => c = '_' || digitValue c < base) && underscoresFit (fun _ => true) written
  then some (.integer ((naturalValue? base (written.filter (· ≠ '_'))).map Int.ofNat))
  else none

/-! ## Numbers with a fraction or an exponent -/

/-- Reads digits and underscores, at least one of them a digit. -/
def someDigits : Cursor (List Char) := do
  let taken ← takeAll fun c => c.isDigit || c = '_'
  guard (taken.any Char.isDigit)
  return taken

/-- Whether digits have a needless zero in front. -/
def hasNeedlessZero (digits : List Char) : Bool :=
  1 < (digits.filter Char.isDigit).length && digits.head? = some '0'

/-- Reads a number without its sign, with its fraction and its exponent. -/
def scaledNumber : Cursor Unit := do
  guard !(hasNeedlessZero (← someDigits))
  if ← accept '.' then
    let _ ← someDigits
  if ← acceptAny ['e', 'E'] then
    let _ ← acceptAny ['+', '-']
    let _ ← someDigits

/-! ## Values -/

/-- A decimal number, a date or a time. What follows the first digits decides which it is: a dash or a
colon, a point or an exponent, or neither. The digits of an integer are looked at only around
underscores, and letters up to `f` pass for digits there. -/
def decimal? (written : List Char) : Option Node :=
  let unsigned := (splitSign written).2
  let rest := unsigned.dropWhile Char.isDigit
  if rest.head? = some '-' ∨ rest.head? = some ':' then
    if isMoment written then some (.moment (String.ofList written)) else none
  else if rest.any fun c => c = '.' || c = 'e' || c = 'E' then
    if scaledNumber.run unsigned = some ((), []) ∧ underscoresFit Char.isDigit written then
      some (.float (String.ofList written))
    else none
  else if !unsigned.isEmpty && (rest.isEmpty || rest.head? = some '_') &&
      (unsigned.length = 1 || unsigned.head? ≠ some '0') &&
      underscoresFit (digitValue · < 16) written then
    some (.integer (integerValue? written))
  else none

/-- A value without quotes or brackets. -/
def bareValue? (written : List Char) : Option Node :=
  match written with
  | '0' :: 'x' :: digits => based? 16 digits
  | '0' :: 'o' :: digits => based? 8 digits
  | '0' :: 'b' :: digits => based? 2 digits
  | _ =>
    if written = "true".toList then some (.boolean true)
    else if written = "false".toList then some (.boolean false)
    else if ["inf".toList, "nan".toList].contains (splitSign written).2 then
      some (.float (String.ofList written))
    else decimal? written

/-- Whether a character may stand in a value without quotes. -/
def isBareCharacter (c : Char) : Bool :=
  c ∉ ['=', ',', '[', ']', '{', '}', '#', '"', '\'', ' ', '\t', '\r', '\n']

/-- Reads a value without quotes or brackets. A blank with more of the value behind it can only stand
between a date and a time. -/
def bareValue : Cursor Node := do
  let written ← takeAll isBareCharacter
  match ← get with
  | ' ' :: c :: _ =>
    if isBareCharacter c then
      expect ' '
      let written := written ++ ' ' :: (← takeAll isBareCharacter)
      guard (isMoment written)
      return .moment (String.ofList written)
    else bareValue? written
  | _ => bareValue? written

end CausalRules.Document
