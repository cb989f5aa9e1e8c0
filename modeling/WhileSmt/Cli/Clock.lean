import WhileSmt.Cli.Host

/-!
Readings of the clock in universal time, from the milliseconds since the first day of 1970.
-/

namespace WhileSmt.Cli

/-- A day of the calendar; months and days are counted from one. -/
structure Date where
  year : Nat
  month : Nat
  day : Nat
deriving DecidableEq

/-- The date of a day, counted from the first day of 1970. Years are taken to begin in March, so
that a leap day is the last of its year; 400 years have 146097 days. -/
def Date.ofDays (days : Nat) : Date :=
  let shifted := days + 719468
  let inEra := shifted % 146097
  let yearOfEra := (inEra - inEra / 1460 + inEra / 36524 - inEra / 146096) / 365
  let inYear := inEra - (365 * yearOfEra + yearOfEra / 4 - yearOfEra / 100)
  let fromMarch := (5 * inYear + 2) / 153
  let month := if fromMarch < 10 then fromMarch + 3 else fromMarch - 9
  let year := yearOfEra + shifted / 146097 * 400
  { year := if month ≤ 2 then year + 1 else year
    month := month
    day := inYear - (153 * fromMarch + 2) / 5 + 1 }

/-- The digits of a number with zeros in front up to a width. -/
def padded (width n : Nat) : String :=
  let digits := Text.natural n
  String.ofList (List.replicate (width - digits.length) '0') ++ digits

/-- The reading of the clock so many milliseconds after the beginning of 1970. -/
def Stamp.ofMilliseconds (ms : Nat) : Stamp :=
  let seconds := ms / 1000
  let date := Date.ofDays (seconds / 86400)
  let hour := padded 2 (seconds / 3600 % 24)
  let minute := padded 2 (seconds / 60 % 60)
  let second := padded 2 (seconds % 60)
  let year := padded 4 date.year
  let month := padded 2 date.month
  let day := padded 2 date.day
  { tag := year ++ month ++ day ++ "_" ++ hour ++ minute ++ second ++ "_" ++ padded 3 (ms % 1000)
    text := year ++ "-" ++ month ++ "-" ++ day ++ " " ++ hour ++ ":" ++ minute ++ ":" ++ second ++
      " UTC" }

end WhileSmt.Cli
