import CausalRules.Document.Cursor
import CausalRules.Text.Digits

/-!
# Dates and times

A document may hold a date, a time, or both, with or without an offset from universal time. No setting
holds one, so only their form matters.

- `date`, `timeOfDay`, `offset`: the parts.
- `isMoment`: whether a text is a date or a time.
-/

namespace CausalRules.Document

/-- Whether a year has a day more in February. -/
def isLeapYear (year : Nat) : Bool :=
  year % 4 = 0 && (year % 100 ≠ 0 || year % 400 = 0)

/-- The number of days of a month. -/
def daysOfMonth (year month : Nat) : Nat :=
  if month = 2 then (if isLeapYear year then 29 else 28)
  else if month ∈ [4, 6, 9, 11] then 30
  else 31

/-- Reads a number of so many digits, which lies between two bounds. -/
def boundedNumber (width least most : Nat) : Cursor Nat := do
  let digits ← takeAll Char.isDigit
  let n := Text.digitsValue 10 digits
  guard (digits.length = width ∧ least ≤ n ∧ n ≤ most)
  return n

/-- Reads a date: the year, the month and the day. -/
def date : Cursor Unit := do
  let year ← boundedNumber 4 0 9999
  expect '-'
  let month ← boundedNumber 2 1 12
  expect '-'
  let _ ← boundedNumber 2 1 (daysOfMonth year month)

/-- Reads a time of the day. The seconds may be left out; if they are there, a fraction may follow. A
minute may end with a leap second. -/
def timeOfDay : Cursor Unit := do
  let _ ← boundedNumber 2 0 23
  expect ':'
  let _ ← boundedNumber 2 0 59
  if ← accept ':' then
    let _ ← boundedNumber 2 0 60
    if ← accept '.' then
      guard !(← takeAll Char.isDigit).isEmpty

/-- Reads the offset of a time from universal time, if there is one. -/
def offset : Cursor Unit := do
  if !(← acceptAny ['Z', 'z']) then
    if ← acceptAny ['+', '-'] then
      let _ ← boundedNumber 2 0 23
      expect ':'
      let _ ← boundedNumber 2 0 59

/-- Reads a date, with a time if one follows, or a time alone, which has no offset. -/
def moment : Cursor Unit := do
  if ((← get).dropWhile Char.isDigit).head? = some ':' then timeOfDay
  else
    date
    if ← acceptAny ['T', 't', ' '] then
      timeOfDay
      offset

/-- Whether a text is a date or a time. -/
def isMoment (written : List Char) : Bool :=
  moment.run written = some ((), [])

end CausalRules.Document
