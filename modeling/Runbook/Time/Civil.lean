/-!
# Calendar

Instants in milliseconds since the start of 1970, and their texts in the Gregorian calendar, in universal time.
-/

namespace Runbook

/-- A date with a time of day. -/
structure Civil where
  year : Nat
  month : Nat
  day : Nat
  hour : Nat
  minute : Nat
  second : Nat
  milli : Nat
  deriving DecidableEq, Repr

namespace Civil

/-- The date of a day, counted from the start of 1970. Years are taken from March on, so that a leap day ends its year, and in
eras of 400 years, which all have the same number of days. -/
def dateOfDay (days : Nat) : Nat × Nat × Nat :=
  let d := days + 719468
  let era := d / 146097
  let dayOfEra := d % 146097
  let yearOfEra := (dayOfEra - dayOfEra / 1460 + dayOfEra / 36524 - dayOfEra / 146096) / 365
  let dayOfYear := dayOfEra - (365 * yearOfEra + yearOfEra / 4 - yearOfEra / 100)
  let shifted := (5 * dayOfYear + 2) / 153
  let month := if shifted < 10 then shifted + 3 else shifted - 9
  (era * 400 + yearOfEra + (if month ≤ 2 then 1 else 0), month, dayOfYear - (153 * shifted + 2) / 5 + 1)

def ofMillis (ms : Nat) : Civil :=
  let seconds := ms / 1000
  let (year, month, day) := dateOfDay (seconds / 86400)
  let rest := seconds % 86400
  ⟨year, month, day, rest / 3600, rest / 60 % 60, rest % 60, ms % 1000⟩

/-- A number with zeros before it up to a width. -/
def padded (width n : Nat) : String :=
  let digits := Nat.toDigits 10 n
  String.ofList (List.replicate (width - digits.length) '0' ++ digits)

/-- The text with date and time, and milliseconds if there are any: `2024-05-01T12:00:00.250Z`. -/
def timestamp (c : Civil) : String :=
  let fraction := if c.milli = 0 then "" else "." ++ padded 3 c.milli
  s!"{padded 4 c.year}-{padded 2 c.month}-{padded 2 c.day}T{padded 2 c.hour}:{padded 2 c.minute}:{padded 2 c.second}{fraction}Z"

/-- The text for the names of files: `20240501-120000`. -/
def stamp (c : Civil) : String :=
  s!"{padded 4 c.year}{padded 2 c.month}{padded 2 c.day}-{padded 2 c.hour}{padded 2 c.minute}{padded 2 c.second}"

example : (ofMillis 951827696789).timestamp = "2000-02-29T12:34:56.789Z" := by decide +kernel

example : (ofMillis 1735689600000).stamp = "20250101-000000" := by decide +kernel

end Civil

end Runbook
