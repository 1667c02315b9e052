import LtiUnit.Number.Digits
import LtiUnit.Number.Numeral
import LtiUnit.Toml.Line

/-!
# LtiUnit.Toml.Numeral

The numbers of TOML documents. Single underscores may stand between digits. Whole numbers have to
fit 64 bits with a sign and may be written in base 16, 8 or 2; numbers with a fraction or a power of
ten are read as the nearest double, which may not be plus infinity.
-/

namespace LtiUnit
namespace Toml

/-- Digits after a first one, single underscores between them left out. -/
def moreDigits? (isDigit : Char → Bool) : Reader (List Char)
  | '_' :: d :: rest =>
    if isDigit d then (moreDigits? isDigit rest).map fun (ds, after) => (d :: ds, after) else none
  | '_' :: [] => none
  | d :: rest =>
    if isDigit d then (moreDigits? isDigit rest).map fun (ds, after) => (d :: ds, after)
    else some ([], d :: rest)
  | [] => some ([], [])

def digits? (isDigit : Char → Bool) : Reader (List Char)
  | d :: rest =>
    if isDigit d then (moreDigits? isDigit rest).map fun (ds, after) => (d :: ds, after) else none
  | [] => none

/-- The whole part of a decimal number: a zero, or digits that do not start with one. -/
def whole? : Reader (List Char)
  | '0' :: rest => some (['0'], rest)
  | rest => digits? Char.isDigit rest

/-- The power of ten of a number, if it has one; zero otherwise. -/
def power? : Reader (Option Int)
  | 'e' :: rest | 'E' :: rest =>
    let (negative, rest) := Number.splitSign rest
    (digits? Char.isDigit rest).map fun (ds, after) =>
      let n : Int := Nat.ofDigitChars 10 ds 0
      (some (if negative then -n else n), after)
  | rest => some (none, rest)

/-- The fraction of a number, if it has one. -/
def fraction? : Reader (Option (List Char))
  | '.' :: rest => (digits? Char.isDigit rest).map fun (ds, after) => (some ds, after)
  | rest => some (none, rest)

/-- The double of a whole number, if that fits 64 bits with a sign. -/
def integer? (negative : Bool) (n : Nat) : Option Float :=
  if n ≤ (if negative then Nat.pow 2 63 else Nat.pow 2 63 - 1) then
    some (Number.Decimal.toFloat ⟨negative && n != 0, n, 0⟩)
  else none

/-- A number in the given base, after the letter that names the base. -/
def based? (base : Nat) (cs : List Char) : Option (Float × List Char) := do
  let (ds, after) ← digits? (fun c => (Number.digitValue? base c).isSome) cs
  let n ← Number.ofDigits? base ds
  return (← integer? false n, after)

/-- A decimal number after its sign. -/
def decimal? (negative : Bool) (cs : List Char) : Option (Float × List Char) := do
  let (whole, rest) ← whole? cs
  let (fraction, rest) ← fraction? rest
  let (power, rest) ← power? rest
  if fraction.isNone && power.isNone then
    return (← integer? negative (Nat.ofDigitChars 10 whole 0), rest)
  else
    let x := Number.Numeral.toFloat ⟨whole, fraction.getD [], power.getD 0⟩ negative
    if x.isInf && !negative then none else return (x, rest)

/-- A number after its sign. -/
def unsigned? (negative : Bool) : Reader Float
  | 'i' :: 'n' :: 'f' :: rest => some (Number.ofRank negative Number.infinityRank, rest)
  | 'n' :: 'a' :: 'n' :: rest =>
    some (Number.ofRank negative (Number.infinityRank + Number.binade / 2), rest)
  | rest => decimal? negative rest

def number? : Reader Float
  | '0' :: 'x' :: rest => based? 16 rest
  | '0' :: 'o' :: rest => based? 8 rest
  | '0' :: 'b' :: rest => based? 2 rest
  | rest =>
    let (negative, rest) := Number.splitSign rest
    unsigned? negative rest

end Toml
end LtiUnit
