/-!
# LtiUnit.Number.Digits

Digits in bases up to sixteen, letters of either case.
-/

namespace LtiUnit
namespace Number

def digitValue? (base : Nat) (c : Char) : Option Nat :=
  let value :=
    if c.isDigit then c.toNat - '0'.toNat
    else if 'a' ≤ c ∧ c ≤ 'f' then c.toNat - 'a'.toNat + 10
    else if 'A' ≤ c ∧ c ≤ 'F' then c.toNat - 'A'.toNat + 10
    else base
  if value < base then some value else none

/-- The number that digits stand for, appended to those of `n`. -/
def appendDigits? (base n : Nat) : List Char → Option Nat
  | [] => some n
  | c :: cs => (digitValue? base c).bind fun d => appendDigits? base (base * n + d) cs

/-- The number that digits stand for; no digits stand for zero. -/
def ofDigits? (base : Nat) (cs : List Char) : Option Nat := appendDigits? base 0 cs

end Number
end LtiUnit
