/-!
# LtiUnit.Identity.Calendar

Calendar dates of instants, in universal time and without leap seconds. An instant is a number of
seconds since the start of 1970. Dates are found by walking over whole years and then over whole
months, each of which is at most as long as what is left.
-/

namespace LtiUnit
namespace Calendar

def isLeap (year : Nat) : Bool := year % 4 == 0 && (year % 100 != 0 || year % 400 == 0)

def yearLength (year : Nat) : Nat := if isLeap year then 366 else 365

def monthLengths (year : Nat) : List Nat :=
  [31, if isLeap year then 29 else 28, 31, 30, 31, 30, 31, 31, 30, 31, 30, 31]

theorem yearLength_pos (year : Nat) : 0 < yearLength year := by
  unfold yearLength; split <;> decide

/-- The year that the day `days` after the first of `year` falls in, and the days since its own
first. -/
def findYear (year days : Nat) : Nat × Nat :=
  if days < yearLength year then (year, days)
  else findYear (year + 1) (days - yearLength year)
termination_by days
decreasing_by have := yearLength_pos year; omega

/-- The month that day `days` falls in when months of the given lengths follow each other from
`month` on, and the days since its first. Days past the last month stay in it. -/
def findMonth (month days : Nat) : List Nat → Nat × Nat
  | [] | [_] => (month, days)
  | length :: more =>
    if days < length then (month, days) else findMonth (month + 1) (days - length) more

/-- A date and a time of day. Months and days count from one. -/
structure Stamp where
  year : Nat
  month : Nat
  day : Nat
  hour : Nat
  minute : Nat
  second : Nat
  deriving DecidableEq, Repr

/-- The date and time `seconds` after the start of 1970. -/
def Stamp.ofSeconds (seconds : Nat) : Stamp :=
  let (year, dayOfYear) := findYear 1970 (seconds / 86400)
  let (month, day) := findMonth 1 dayOfYear (monthLengths year)
  let second := seconds % 86400
  ⟨year, month, day + 1, second / 3600, second % 3600 / 60, second % 60⟩

/-- A number in decimal, with zeros in front of it up to `width` digits. -/
def padded (width n : Nat) : String :=
  let digits := Nat.toDigits 10 n
  String.ofList (List.replicate (width - digits.length) '0' ++ digits)

def Stamp.text (s : Stamp) : String :=
  padded 4 s.year ++ "-" ++ padded 2 s.month ++ "-" ++ padded 2 s.day ++ "T" ++
    padded 2 s.hour ++ ":" ++ padded 2 s.minute ++ ":" ++ padded 2 s.second ++ "Z"

/-- The text of an instant. Instants before the start of 1970 count as that start. -/
def text (seconds : Int) : String := (Stamp.ofSeconds seconds.toNat).text

end Calendar
end LtiUnit
