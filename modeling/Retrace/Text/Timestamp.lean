/-! Moments as text: the date and the time of day in UTC. -/
namespace Retrace.Text

/-- A day of the calendar. -/
structure Day where
  year : Nat
  month : Nat
  day : Nat
deriving DecidableEq

/-- The day that lies a number of days after the first of January 1970. Years are counted from March,
so that a leap day is the last of its year, in eras of 400 years, all of 146097 days. -/
def Day.ofNumber (days : Nat) : Day :=
  let sinceEra := days + 719468
  let era := sinceEra / 146097
  let n := sinceEra % 146097
  let year := (n - n / 1460 + n / 36524 - n / 146096) / 365
  let dayOfYear := n - (365 * year + year / 4 - year / 100)
  let month := (5 * dayOfYear + 2) / 153
  let day := dayOfYear - (153 * month + 2) / 5 + 1
  let shown := if month < 10 then month + 3 else month - 9
  ⟨era * 400 + year + (if shown ≤ 2 then 1 else 0), shown, day⟩

def padded (width n : Nat) : String :=
  let digits := Nat.toDigits 10 n
  String.ofList (List.replicate (width - digits.length) '0' ++ digits)

/-- A part of a second in thousandths, millionths or billionths, whichever comes first to show it
whole. -/
def fraction (nanoseconds : Nat) : String :=
  if nanoseconds = 0 then ""
  else if nanoseconds % 1000000 = 0 then "." ++ padded 3 (nanoseconds / 1000000)
  else if nanoseconds % 1000 = 0 then "." ++ padded 6 (nanoseconds / 1000)
  else "." ++ padded 9 nanoseconds

def timestamp (nanoseconds : Nat) : String :=
  let seconds := nanoseconds / 1000000000
  let day := Day.ofNumber (seconds / 86400)
  padded 4 day.year ++ "-" ++ padded 2 day.month ++ "-" ++ padded 2 day.day ++ "T" ++
    padded 2 (seconds / 3600 % 24) ++ ":" ++ padded 2 (seconds / 60 % 60) ++ ":" ++
    padded 2 (seconds % 60) ++ fraction (nanoseconds % 1000000000) ++ "+00:00"

end Retrace.Text
