/-!
# LtiUnit.Number.Binary64

Double-precision numbers as exact natural numbers.

Every finite magnitude is a whole number of *units*, where a unit is the smallest positive
double, `2 ^ (-1074)`. A magnitude is named by its *rank*: the low 63 bits of its encoding, which
are in the order of the magnitudes. Reading and writing decimal text go through ranks and units
only, so all of it is integer arithmetic:

* `Rank.units` — the number of units of a magnitude.
* `nearestRank` — the magnitude nearest to a quotient of units, ties to the even rank.
* `ofRank`, `view` — between ranks with a sign and `Float`.
-/

namespace LtiUnit
namespace Number

/-- Ranks per binade: a magnitude has 52 stored fraction bits. -/
def binade : Nat := Nat.pow 2 52

/-- The rank after the largest finite magnitude, which encodes infinity. -/
def infinityRank : Nat := 2047 * binade

/-- Units of the magnitude of rank `r`. For `infinityRank` it is the value that the next binade
would start with, so that the rounding boundary below infinity is half-way as everywhere else. -/
def unitsOf (r : Nat) : Nat :=
  if r < binade then r else (binade + r % binade) * Nat.pow 2 (r / binade - 1)

/-- Quotient rounded to the nearest integer, a tie to the even one. -/
def divEven (n d : Nat) : Nat :=
  let q := n / d
  let r := n % d
  if 2 * r < d then q else if d < 2 * r then q + 1 else q + q % 2

/-- The rank nearest to `n / d` units, ties to the even rank; too large a quotient is infinity. -/
def nearestRank (n d : Nat) : Nat :=
  let shift := (n / d).log2 - 52
  min (shift * binade + divEven n (d * Nat.pow 2 shift)) infinityRank

/-- Units in the number one. -/
def unit : Nat := Nat.pow 2 1074

/-- The double with the given sign and rank. -/
def ofRank (negative : Bool) (r : Nat) : Float :=
  Float.ofBits (UInt64.ofNat (if negative then Nat.pow 2 63 + r else r))

/-- What a double is, with the magnitude by its rank. -/
inductive View where
  | finite (negative : Bool) (rank : Nat)
  | infinite (negative : Bool)
  | nan
  deriving DecidableEq, Repr

def viewBits (bits : Nat) : View :=
  let negative := decide (Nat.pow 2 63 ≤ bits)
  let r := bits % Nat.pow 2 63
  if r < infinityRank then .finite negative r
  else if r = infinityRank then .infinite negative
  else .nan

def view (x : Float) : View := viewBits x.toBits.toNat

/-- A decimal value `± digits · 10 ^ exponent`. -/
structure Decimal where
  negative : Bool
  digits : Nat
  exponent : Int
  deriving DecidableEq, Repr

/-- The rank nearest to a decimal magnitude. A magnitude below `10 ^ (-400)` or from `10 ^ 400` on
is decided by its number of digits alone, which keeps the powers of ten small. -/
def Decimal.rank (d : Decimal) : Nat :=
  if d.digits = 0 then 0
  else
    let top := d.exponent + (Nat.toDigits 10 d.digits).length
    if 400 < top then infinityRank
    else if top < -400 then 0
    else if 0 ≤ d.exponent then nearestRank (d.digits * Nat.pow 10 d.exponent.toNat * unit) 1
    else nearestRank (d.digits * unit) (Nat.pow 10 (-d.exponent).toNat)

/-- The double nearest to a decimal value, ties to even. The sign of a zero is kept. -/
def Decimal.toFloat (d : Decimal) : Float := ofRank d.negative d.rank

end Number
end LtiUnit
