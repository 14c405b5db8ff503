import SignalCalculus.Text.Numeral

set_option autoImplicit false

namespace SignalCalculus.CommandLine

open Text

structure Date where
  year : Nat
  month : Nat
  day : Nat
  deriving DecidableEq, Repr

/-- The date of a day counted from the beginning of 1970. Years are counted from March, so that the
    leap day comes last, and in cycles of four hundred years, which all have the same length. -/
def Date.ofDays (days : Nat) : Date :=
  let days := days + 719468
  let cycle := days / 146097
  let inCycle := days % 146097
  let year := (inCycle - inCycle / 1460 + inCycle / 36524 - inCycle / 146096) / 365
  let inYear := inCycle - (365 * year + year / 4 - year / 100)
  let fromMarch := (5 * inYear + 2) / 153
  let month := if fromMarch < 10 then fromMarch + 3 else fromMarch - 9
  { year := year + 400 * cycle + if month ≤ 2 then 1 else 0
    month
    day := inYear - (153 * fromMarch + 2) / 5 + 1 }

def filled (width n : Nat) : String :=
  let digits := natural n
  String.ofList (List.replicate (width - digits.length) '0' ++ digits)

def timeText (seconds : Nat) : String :=
  let date := Date.ofDays (seconds / 86400)
  let inDay := seconds % 86400
  filled 4 date.year ++ "-" ++ filled 2 date.month ++ "-" ++ filled 2 date.day ++ "T" ++
    filled 2 (inDay / 3600) ++ ":" ++ filled 2 (inDay / 60 % 60) ++ ":" ++ filled 2 (inDay % 60) ++ "Z"

end SignalCalculus.CommandLine
