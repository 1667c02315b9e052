import LtiUnit.Number.Digits
import LtiUnit.Text

/-!
# LtiUnit.Identity.Guid

Globally unique identifiers: 128 bits, written as 32 hexadecimal digits in five groups.
-/

namespace LtiUnit

structure Guid where
  bits : BitVec 128
  deriving DecidableEq, Repr

namespace Guid

/-- The lengths of the five groups. -/
def groups : List Nat := [8, 4, 4, 4, 12]

/-- Hexadecimal digits, most significant first, of all 128 bits. -/
def digits (g : Guid) : List Char :=
  (List.range 32).map fun i => Nat.digitChar (g.bits.toNat / Nat.pow 16 (31 - i) % 16)

/-- A list cut into pieces of the given lengths. -/
def cut {α : Type} : List Nat → List α → List (List α)
  | [], _ => []
  | n :: more, xs => xs.take n :: cut more (xs.drop n)

def text (g : Guid) : String :=
  Text.separated "-" ((cut groups g.digits).map String.ofList)

/-- The identifier with a text in five groups. -/
def ofText? (s : String) : Option Guid :=
  let parts := Text.cutAt '-' s.toList
  if parts.map List.length = groups then
    (Number.ofDigits? 16 parts.flatten).map fun n => ⟨BitVec.ofNat 128 n⟩
  else none

/-- The identifier made from random bits: the version is 4, and the two bits after it that name
the variant are `10`. -/
def ofRandom (bits : BitVec 128) : Guid :=
  let version : BitVec 128 := 4#128 <<< 76
  let variant : BitVec 128 := 2#128 <<< 62
  ⟨bits &&& ~~~(15#128 <<< 76) &&& ~~~(3#128 <<< 62) ||| version ||| variant⟩

end Guid
end LtiUnit
