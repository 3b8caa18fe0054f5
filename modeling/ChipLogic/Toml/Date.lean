import ChipLogic.Toml.Number

/-!
# TOML dates

A date, a time, or both with or without an offset from UTC. The parts are in their ranges, the day
exists in its month, and a second may be a leap second.
-/

namespace ChipLogic.Toml

/-- A number of exactly so many digits in a range. -/
def part (count low high : Nat) : Reader Nat := do
  let n ← given (Numeral.read? 10 (← times (satisfy isDigit) count))
  require (low ≤ n && n ≤ high)
  return n

def isLeap (year : Nat) : Bool :=
  year % 4 = 0 && (year % 100 ≠ 0 || year % 400 = 0)

def daysIn (year month : Nat) : Nat :=
  if month = 2 then if isLeap year then 29 else 28
  else if month = 4 ∨ month = 6 ∨ month = 9 ∨ month = 11 then 30
  else 31

def day : Reader Unit := do
  let year ← part 4 0 9999
  let _ ← char '-'
  let month ← part 2 1 12
  let _ ← char '-'
  let _ ← part 2 1 (daysIn year month)

def timeOfDay : Reader Unit := do
  let _ ← part 2 0 23
  let _ ← char ':'
  let _ ← part 2 0 59
  let _ ← char ':'
  let _ ← part 2 0 60
  let _ ← perhaps do
    let _ ← char '.'
    let _ ← satisfy isDigit
    run isDigit

def offset : Reader Unit :=
  word ['Z'] <|> word ['z'] <|> do
    let _ ← char '+' <|> char '-'
    let _ ← part 2 0 23
    let _ ← char ':'
    let _ ← part 2 0 59

/-- A date with or without a time. -/
def dayAndTime : Reader Unit := do
  day
  let _ ← perhaps do
    let _ ← char 'T' <|> char 't' <|> char ' '
    timeOfDay
    perhaps offset

/-- A date or a time as it is written. -/
def date : Reader String := spelling (dayAndTime <|> timeOfDay)

end ChipLogic.Toml
