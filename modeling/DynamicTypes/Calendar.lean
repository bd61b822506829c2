/-!
# Instants in the Gregorian calendar

An instant is a whole number of milliseconds since the start of 1970. Its civil
date is found by cutting time into eras of four hundred years, after which the
calendar repeats; inside an era years are counted from March, so the leap day is
the last day of a year and the month lengths before it never change.
-/

namespace DynamicTypes

/-- A date and a time of day. -/
structure Civil where
  year : Int
  month : Nat
  day : Nat
  hour : Nat
  minute : Nat
  second : Nat
  millisecond : Nat
  deriving Repr, DecidableEq

namespace Civil

/-- The date of a day, counted from the first of January 1970: year, month and day. -/
def dateOfDay (days : Int) : Int × Nat × Nat :=
  -- days since the first of March of the year 0
  let shifted := days + 719468
  let era := shifted / 146097
  let dayOfEra := (shifted % 146097).toNat
  let yearOfEra := (dayOfEra - dayOfEra / 1460 + dayOfEra / 36524 - dayOfEra / 146096) / 365
  let dayOfYear := dayOfEra - (365 * yearOfEra + yearOfEra / 4 - yearOfEra / 100)
  let fromMarch := (5 * dayOfYear + 2) / 153
  let day := dayOfYear - (153 * fromMarch + 2) / 5 + 1
  let month := if fromMarch < 10 then fromMarch + 3 else fromMarch - 9
  let year := (yearOfEra : Int) + era * 400
  (if month ≤ 2 then year + 1 else year, month, day)

/-- The civil form of an instant. -/
def ofMilliseconds (ms : Int) : Civil :=
  let (year, month, day) := dateOfDay (ms / 86400000)
  let ofDay := (ms % 86400000).toNat
  { year, month, day
    hour := ofDay / 3600000
    minute := ofDay / 60000 % 60
    second := ofDay / 1000 % 60
    millisecond := ofDay % 1000 }

/-- `n` in decimal, filled up with zeros on the left. -/
def padded (width n : Nat) : String :=
  let digits := Nat.toDigits 10 n
  String.ofList (List.replicate (width - digits.length) '0' ++ digits)

/-- Years of at most four digits stand as they are; all others have a sign and six
digits. -/
def yearText (year : Int) : String :=
  if 0 ≤ year ∧ year ≤ 9999 then padded 4 year.toNat
  else if year < 0 then "-" ++ padded 6 (-year).toNat
  else "+" ++ padded 6 year.toNat

/-- The text `2000-01-01T00:00:00.000Z`. -/
def text (c : Civil) : String :=
  yearText c.year ++ "-" ++ padded 2 c.month ++ "-" ++ padded 2 c.day
    ++ "T" ++ padded 2 c.hour ++ ":" ++ padded 2 c.minute ++ ":" ++ padded 2 c.second
    ++ "." ++ padded 3 c.millisecond ++ "Z"

end Civil

end DynamicTypes
