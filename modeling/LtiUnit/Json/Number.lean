import LtiUnit.Number.Binary64

/-!
# LtiUnit.Json.Number

The numbers of JSON documents: their grammar and their value.

The value is that of a significand of at most 64 bits, which is rounded to a double first, and of
a power of ten, by which that double is multiplied or divided. Digits that no longer fit the
significand only count for the power of ten, or not at all when they follow the point. So a number
of many digits or with a large power of ten may be read as a neighbour of the nearest double. A
number whose double would be infinite has no value.
-/

namespace LtiUnit
namespace Json

open Number (Decimal)

/-- The parts of a number. A number without point has no fraction. -/
structure Numeral where
  negative : Bool
  whole : List Char
  fraction : Option (List Char)
  /-- Sign and digits of the power of ten. -/
  power : Option (Bool × List Char)
  deriving DecidableEq, Repr

namespace Numeral

def isDigits (cs : List Char) : Bool := !cs.isEmpty && cs.all Char.isDigit

/-- At least one digit, no zero before others. -/
def isWhole (cs : List Char) : Bool := isDigits cs && (cs.head? != some '0' || cs.length == 1)

/-- A power of ten after its `e`. -/
def power? (cs : List Char) : Option (Bool × List Char) :=
  let (negative, digits) : Bool × List Char :=
    match cs with
    | '-' :: rest => (true, rest)
    | '+' :: rest => (false, rest)
    | rest => (false, rest)
  if isDigits digits then some (negative, digits) else none

/-- What follows the digits before the point. -/
def ofTail? (negative : Bool) (whole : List Char) (fraction : Option (List Char)) :
    List Char → Option Numeral
  | [] => some ⟨negative, whole, fraction, none⟩
  | c :: cs =>
    if c = 'e' ∨ c = 'E' then (power? cs).map (⟨negative, whole, fraction, some ·⟩) else none

/-- The number with the given characters. -/
def ofChars? (cs : List Char) : Option Numeral :=
  let (negative, cs) : Bool × List Char :=
    match cs with
    | '-' :: rest => (true, rest)
    | rest => (false, rest)
  let whole := cs.takeWhile Char.isDigit
  if isWhole whole then
    match cs.dropWhile Char.isDigit with
    | '.' :: rest =>
      let fraction := rest.takeWhile Char.isDigit
      if fraction.isEmpty then none
      else ofTail? negative whole (some fraction) (rest.dropWhile Char.isDigit)
    | rest => ofTail? negative whole none rest
  else none

def significandLimit : Nat := Nat.pow 2 64 - 1

def powerLimit : Nat := Nat.pow 2 31 - 1

/-- Append digits to a significand as long as it stays within the limit; the rest is left over. -/
def absorb (significand : Nat) : List Char → Nat × List Char
  | [] => (significand, [])
  | c :: cs =>
    let next := significand * 10 + (c.toNat - '0'.toNat)
    if next ≤ significandLimit then absorb next cs else (significand, c :: cs)

/-- `10 ^ n` as a double. -/
def tenTo (n : Nat) : Float := Decimal.toFloat ⟨false, 1, n⟩

/-- A double times a power of ten, if that is not too large. Powers of more than 308 are applied in
steps. -/
def scale (x : Float) (power : Int) : Option Float :=
  if power < -308 then
    if x == 0 then some x else scale (x / tenTo 308) (power + 308)
  else if power < 0 then some (x / tenTo (-power).toNat)
  else if power ≤ 308 then
    let y := x * tenTo power.toNat
    if y.isInf then none else some y
  else if x == 0 then some x
  else none
termination_by power.natAbs

/-- The significand of the digits, and the power of ten that goes with it. -/
def significand (n : Numeral) : Nat × Int :=
  let (s, uncounted) := absorb 0 n.whole
  match n.fraction with
  | none => (s, uncounted.length)
  | some fraction =>
    let (s, ignored) := absorb s fraction
    (s, (uncounted.length : Int) - (fraction.length - ignored.length : Nat))

/-- The magnitude of a number, if it is not too large. -/
def magnitude? (n : Numeral) : Option Float :=
  let (s, shift) := n.significand
  let x : Float := Decimal.toFloat ⟨false, s, 0⟩
  match n.power with
  | none => scale x shift
  | some (negative, digits) =>
    let power := Nat.ofDigitChars 10 digits 0
    if powerLimit < power then if s = 0 ∨ negative then some 0 else none
    else
      let power : Int := if negative then -power else power
      scale x (max (-(powerLimit + 1 : Nat)) (min powerLimit (shift + power)))

/-- The double that a number stands for, if it is not too large. -/
def toFloat? (n : Numeral) : Option Float :=
  n.magnitude?.map fun x => if n.negative then -x else x

/-- The natural number that a number without sign, point and power of ten stands for. -/
def toNat? (n : Numeral) : Option Nat :=
  if n.negative || n.fraction.isSome || n.power.isSome then none
  else some (Nat.ofDigitChars 10 n.whole 0)

end Numeral

/-- The double that the characters of a number stand for. -/
def float? (lexeme : List Char) : Option Float := (Numeral.ofChars? lexeme).bind Numeral.toFloat?

end Json
end LtiUnit
