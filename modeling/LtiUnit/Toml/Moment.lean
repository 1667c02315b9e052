import LtiUnit.Identity.Calendar
import LtiUnit.Toml.Line

/-!
# LtiUnit.Toml.Moment

Dates and times in TOML documents. Nothing is done with them, so they are only recognised: each
reader gives what follows a date or a time.
-/

namespace LtiUnit
namespace Toml

/-- A number of exactly `n` digits. -/
def fixedDigits? (n : Nat) (cs : List Char) : Option (Nat × List Char) :=
  let ds := cs.take n
  if ds.length = n ∧ ds.all Char.isDigit then some (Nat.ofDigitChars 10 ds 0, cs.drop n) else none

/-- A number of two digits up to a limit. -/
def twoDigits? (limit : Nat) (cs : List Char) : Option (Nat × List Char) :=
  match fixedDigits? 2 cs with
  | some (n, rest) => if n ≤ limit then some (n, rest) else none
  | none => none

/-- The characters after a given one. -/
def after? (c : Char) : List Char → Option (List Char)
  | d :: rest => if d = c then some rest else none
  | [] => none

def date? (cs : List Char) : Option (List Char) := do
  let (year, rest) ← fixedDigits? 4 cs
  let rest ← after? '-' rest
  let (month, rest) ← twoDigits? 12 rest
  let rest ← after? '-' rest
  let (day, rest) ← twoDigits? 31 rest
  if 1 ≤ month ∧ 1 ≤ day ∧ day ≤ (Calendar.monthLengths year).getD (month - 1) 0 then return rest
  else none

/-- What follows the fraction of a second, if there is one. -/
def afterFraction : List Char → List Char
  | '.' :: d :: rest => if d.isDigit then rest.dropWhile Char.isDigit else '.' :: d :: rest
  | rest => rest

def time? (cs : List Char) : Option (List Char) := do
  let (_, rest) ← twoDigits? 23 cs
  let rest ← after? ':' rest
  let (_, rest) ← twoDigits? 59 rest
  let rest ← after? ':' rest
  let (_, rest) ← twoDigits? 60 rest
  return afterFraction rest

/-- What follows the offset of a time zone, if there is one. -/
def afterOffset : List Char → List Char
  | 'Z' :: rest | 'z' :: rest => rest
  | c :: cs =>
    if c = '+' ∨ c = '-' then
      let rest? := do
        let (_, rest) ← twoDigits? 23 cs
        let rest ← after? ':' rest
        let (_, rest) ← twoDigits? 59 rest
        return rest
      rest?.getD (c :: cs)
    else c :: cs
  | [] => []

/-- What follows a date and time, a date, or a time. -/
def moment? (cs : List Char) : Option (List Char) :=
  match date? cs with
  | some (c :: rest) =>
    if c = 'T' ∨ c = 't' ∨ c = ' ' then
      match time? rest with
      | some rest => some (afterOffset rest)
      | none => some (c :: rest)
    else some (c :: rest)
  | some [] => some []
  | none => time? cs

end Toml
end LtiUnit
