/-!
# LtiUnit.Model.Coefficient

What a model asks about its numbers besides computing with them. The realizations are written for
any number type with the field operations and these four questions, so that the same definitions
run on doubles and can be reasoned about over an exact field.
-/

namespace LtiUnit
namespace Model

class Coefficient (α : Type) where
  /-- Neither infinite nor undefined. -/
  isFinite : α → Bool
  /-- Equal to zero, of whatever sign. -/
  isZero : α → Bool
  /-- Of a magnitude above `10 ^ (-12)`, below which a gain counts as absent. -/
  isActive : α → Bool
  isPositive : α → Bool

instance : Coefficient Float where
  isFinite := Float.isFinite
  isZero x := x == 0
  isActive x := decide (1e-12 < x.abs)
  isPositive x := decide (0 < x)

def allFinite {α : Type} [Coefficient α] (xs : List α) : Bool := xs.all Coefficient.isFinite

end Model
end LtiUnit
