import Lox.Text.Column

/-! Moments as text. A moment is a number of microseconds since the start of 1970 in universal time,
and its text has the year first, so that later moments come later in the order of texts. Dates are
counted in years that start in March, because the leap day then ends the year. -/

namespace Lox.Text

/-- A day of the calendar. -/
structure Date where
  year : Nat
  /-- The month, counted from one. -/
  month : Nat
  /-- The day of the month, counted from one. -/
  day : Nat
  deriving DecidableEq, Repr

/-- The number of days in four hundred years. -/
def eraDays : Nat := 146097

/-- The days from the first of March of the year zero to the start of 1970. -/
def epochDays : Nat := 719468

/-- The date of a day, counted from the start of 1970. -/
def Date.ofDays (days : Nat) : Date :=
  let shifted := days + epochDays
  let inEra := shifted % eraDays
  let yearOfEra := (inEra - inEra / 1460 + inEra / 36524 - inEra / 146096) / 365
  let dayOfYear := inEra - (365 * yearOfEra + yearOfEra / 4 - yearOfEra / 100)
  let fromMarch := (5 * dayOfYear + 2) / 153
  let month := if fromMarch < 10 then fromMarch + 3 else fromMarch - 9
  { year := yearOfEra + 400 * (shifted / eraDays) + (if month ≤ 2 then 1 else 0)
    month
    day := dayOfYear - (153 * fromMarch + 2) / 5 + 1 }

/-- A number in a column, with zeros in front. -/
def padded (width n : Nat) : String := alignRight width '0' (toString n)

/-- The text of a date. -/
def Date.text (d : Date) : String := padded 4 d.year ++ "-" ++ padded 2 d.month ++ "-" ++ padded 2 d.day

/-- The text of a moment. -/
def stamp (micros : Nat) : String :=
  let seconds := micros / 1000000
  (Date.ofDays (seconds / 86400)).text ++ "T" ++ padded 2 (seconds / 3600 % 24) ++ ":"
    ++ padded 2 (seconds / 60 % 60) ++ ":" ++ padded 2 (seconds % 60) ++ "."
    ++ padded 6 (micros % 1000000) ++ "Z"

end Lox.Text
