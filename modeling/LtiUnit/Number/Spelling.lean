import LtiUnit.Number.Shortest

/-!
# LtiUnit.Number.Spelling

The three spellings in which the program writes doubles. All of them write the shortest decimal
number that reads back as the same double; a `Spelling` holds what they differ in.

* `literal` — C constants: always a decimal point or an exponent, positional from `10 ^ (-4)` up
  to `10 ^ 16`.
* `plain` — messages and reports: never an exponent, no point when there is nothing after it.
* `json` — JSON documents: positional from `10 ^ (-5)` up to `10 ^ 16`, signed exponents, and
  `null` for what is no number.
-/

namespace LtiUnit
namespace Number

/-- How doubles are spelled. A finite value of `d` digits before its point (negative or zero when
it is below one tenth or one) is positional when `fewest ≤ d ≤ most`, for those bounds that are
given. -/
structure Spelling where
  fewest : Option Int
  most : Option Int
  pointAlways : Bool
  exponentPlus : String
  tie : Tie
  nan : String
  infinity : String
  negativeInfinity : String

namespace Spelling

/-- Constants of C source text. -/
def literal : Spelling where
  fewest := some (-3)
  most := some 16
  pointAlways := true
  exponentPlus := ""
  tie := .up
  nan := "NaN"
  infinity := "inf"
  negativeInfinity := "-inf"

/-- Numbers in sentences. -/
def plain : Spelling where
  fewest := none
  most := none
  pointAlways := false
  exponentPlus := ""
  tie := .up
  nan := "NaN"
  infinity := "inf"
  negativeInfinity := "-inf"

/-- Numbers of JSON documents. -/
def json : Spelling where
  fewest := some (-4)
  most := some 16
  pointAlways := true
  exponentPlus := "+"
  tie := .even
  nan := "null"
  infinity := "null"
  negativeInfinity := "null"

/-- Whether a value with `d` digits before its point is written without an exponent. -/
def positional (style : Spelling) (d : Int) : Bool :=
  style.fewest.all (fun least => decide (least ≤ d)) &&
    style.most.all (fun greatest => decide (d ≤ greatest))

/-- Digits with the point after the first `d` of them, zeros filled in on either side. -/
def writePositional (style : Spelling) (digits : List Char) (d : Int) : List Char :=
  if d ≤ 0 then '0' :: '.' :: (List.replicate (-d).toNat '0' ++ digits)
  else if digits.length ≤ d.toNat then
    digits ++ List.replicate (d.toNat - digits.length) '0' ++
      (if style.pointAlways then ['.', '0'] else [])
  else digits.take d.toNat ++ '.' :: digits.drop d.toNat

/-- Digits with the point after the first one, and the power of ten that makes up for it. -/
def writeScientific (style : Spelling) (digits : List Char) (exponent : Int) : List Char :=
  let mantissa :=
    match digits with
    | [] => []
    | [c] => [c]
    | c :: rest => c :: '.' :: rest
  let power :=
    if exponent < 0 then '-' :: Nat.toDigits 10 (-exponent).toNat
    else style.exponentPlus.toList ++ Nat.toDigits 10 exponent.toNat
  mantissa ++ 'e' :: power

/-- The text of a magnitude. -/
def writeMagnitude (style : Spelling) (rank : Nat) : List Char :=
  if rank = 0 then if style.pointAlways then ['0', '.', '0'] else ['0']
  else
    let s := shortest style.tie rank
    let digits := Nat.toDigits 10 s.coefficient
    let d := s.exponent + digits.length
    if style.positional d then style.writePositional digits d
    else style.writeScientific digits (d - 1)

def chars (style : Spelling) (x : Float) : List Char :=
  match view x with
  | .finite negative rank =>
    if negative then '-' :: style.writeMagnitude rank else style.writeMagnitude rank
  | .infinite negative => if negative then style.negativeInfinity.toList else style.infinity.toList
  | .nan => style.nan.toList

def text (style : Spelling) (x : Float) : String := String.ofList (style.chars x)

end Spelling

end Number
end LtiUnit
