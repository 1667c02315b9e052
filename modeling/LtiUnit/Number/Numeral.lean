import LtiUnit.Number.Binary64

/-!
# LtiUnit.Number.Numeral

Reading doubles from text as a person types them: an optional sign, digits with an optional point
somewhere among or around them, an optional power of ten; or a word for infinity or for no number,
in letters of either case. The value is the nearest double, ties to even; one too large is
infinite.
-/

namespace LtiUnit
namespace Number

/-- The digits of a decimal number around its point, and its power of ten. -/
structure Numeral where
  whole : List Char
  fraction : List Char
  exponent : Int
  deriving DecidableEq, Repr

namespace Numeral

def decimal (n : Numeral) (negative : Bool) : Decimal where
  negative := negative
  digits := Nat.ofDigitChars 10 (n.whole ++ n.fraction) 0
  exponent := n.exponent - n.fraction.length

def toFloat (n : Numeral) (negative : Bool) : Float := (n.decimal negative).toFloat

end Numeral

/-- A leading sign: whether it is a minus, and what follows. -/
def splitSign : List Char → Bool × List Char
  | '-' :: rest => (true, rest)
  | '+' :: rest => (false, rest)
  | rest => (false, rest)

/-- A power of ten: a sign and digits, and nothing after them. -/
def exponent? (cs : List Char) : Option Int :=
  let (negative, digits) := splitSign cs
  if digits.isEmpty || !digits.all Char.isDigit then none
  else
    let n : Int := Nat.ofDigitChars 10 digits 0
    some (if negative then -n else n)

/-- An unsigned numeral: digits on at least one side of an optional point, then an optional power
of ten. -/
def Numeral.ofChars? (cs : List Char) : Option Numeral :=
  let whole := cs.takeWhile Char.isDigit
  let afterWhole := cs.dropWhile Char.isDigit
  let (fraction, rest) :=
    match afterWhole with
    | '.' :: more => (more.takeWhile Char.isDigit, more.dropWhile Char.isDigit)
    | more => ([], more)
  if whole.isEmpty && fraction.isEmpty then none
  else
    match rest with
    | [] => some ⟨whole, fraction, 0⟩
    | c :: power =>
      if c = 'e' ∨ c = 'E' then (exponent? power).map (⟨whole, fraction, ·⟩) else none

/-- The double that a text spells, if it spells one. -/
def ofSpelled? (text : String) : Option Float :=
  let (negative, cs) := splitSign text.toList
  match Numeral.ofChars? cs with
  | some n => some (n.toFloat negative)
  | none =>
    let word := cs.map Char.toLower
    if word = "inf".toList ∨ word = "infinity".toList then some (ofRank negative infinityRank)
    else if word = "nan".toList then some (ofRank negative (infinityRank + binade / 2))
    else none

end Number
end LtiUnit
