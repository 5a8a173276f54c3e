/-!
# Times and durations

The written forms of a time of day and of a duration.
-/
namespace Millwork.Moment
def civil (day : Nat) : Nat × Nat × Nat :=
  -- Days are counted from 0000-03-01, in eras of 400 years, so that leap days come last.
  let shifted := day + 719468
  let era := shifted / 146097
  let dayOfEra := shifted % 146097
  let yearOfEra := (dayOfEra - dayOfEra / 1460 + dayOfEra / 36524 - dayOfEra / 146096) / 365
  let dayOfYear := dayOfEra - (365 * yearOfEra + yearOfEra / 4 - yearOfEra / 100)
  let monthFromMarch := (5 * dayOfYear + 2) / 153
  let month := if monthFromMarch < 10 then monthFromMarch + 3 else monthFromMarch - 9
  let year := yearOfEra + era * 400 + (if month ≤ 2 then 1 else 0)
  (year, month, dayOfYear - (153 * monthFromMarch + 2) / 5 + 1)

def twoDigits (n : Nat) : String :=
  if n < 10 then "0" ++ toString n else toString n

def timeText (seconds : Nat) : String :=
  let (year, month, day) := civil (seconds / 86400)
  let rest := seconds % 86400
  toString year ++ "-" ++ twoDigits month ++ "-" ++ twoDigits day ++ " " ++
    twoDigits (rest / 3600) ++ ":" ++ twoDigits (rest / 60 % 60) ++ ":" ++ twoDigits (rest % 60)

def inUnit (nanoseconds zeros : Nat) : String :=
  let unit := Nat.pow 10 zeros
  let fraction := Nat.toDigits 10 (nanoseconds % unit)
  let places := List.replicate (zeros - fraction.length) '0' ++ fraction
  let shown := (places.reverse.dropWhile (· == '0')).reverse
  toString (nanoseconds / unit) ++ (if shown.isEmpty then "" else "." ++ String.ofList shown)

def durationText (nanoseconds : Nat) : String :=
  if 1000000000 ≤ nanoseconds then inUnit nanoseconds 9 ++ "s"
  else if 1000000 ≤ nanoseconds then inUnit nanoseconds 6 ++ "ms"
  else if 1000 ≤ nanoseconds then inUnit nanoseconds 3 ++ "µs"
  else toString nanoseconds ++ "ns"

end Millwork.Moment
