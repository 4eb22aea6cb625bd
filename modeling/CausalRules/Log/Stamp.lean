/-!
# Times in a log

- `Date.ofDay`: the date of a day, counted from the first of January 1970.
- `stamp`: a time in a log line, in universal time.
-/

namespace CausalRules.Log

/-- A day of the calendar. -/
structure Date where
  year : Nat
  month : Nat
  day : Nat
  deriving DecidableEq, Repr

/-- The date of a day, counted from the first of January 1970. Years are taken to begin in March, so
that a leap day is the last of its year; 146097 days are four hundred years. -/
def Date.ofDay (day : Nat) : Date :=
  let shifted := day + 719468
  let era := shifted / 146097
  let dayOfEra := shifted % 146097
  let yearOfEra := (dayOfEra - dayOfEra / 1460 + dayOfEra / 36524 - dayOfEra / 146096) / 365
  let dayOfYear := dayOfEra - (365 * yearOfEra + yearOfEra / 4 - yearOfEra / 100)
  let marchMonth := (5 * dayOfYear + 2) / 153
  let month := if marchMonth < 10 then marchMonth + 3 else marchMonth - 9
  let year := yearOfEra + era * 400 + if month ≤ 2 then 1 else 0
  ⟨year, month, dayOfYear - (153 * marchMonth + 2) / 5 + 1⟩

/-- A number with zeros in front up to a width. -/
def padded (width n : Nat) : String :=
  let digits := toString n
  "".pushn '0' (width - digits.length) ++ digits

/-- The time that is a number of microseconds after the beginning of 1970. -/
def stamp (microseconds : Nat) : String :=
  let seconds := microseconds / 1000000
  let date := Date.ofDay (seconds / 86400)
  let second := seconds % 86400
  padded 4 date.year ++ "-" ++ padded 2 date.month ++ "-" ++ padded 2 date.day ++ "T" ++
    padded 2 (second / 3600) ++ ":" ++ padded 2 (second / 60 % 60) ++ ":" ++
    padded 2 (second % 60) ++ "." ++ padded 6 (microseconds % 1000000) ++ "Z"

end CausalRules.Log
