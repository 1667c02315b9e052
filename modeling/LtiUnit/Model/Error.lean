import LtiUnit.Number.Spelling

/-!
# LtiUnit.Model.Error

Why a model description has no realization. Each constructor is a cause; `ModelError.message`
words it.
-/

namespace LtiUnit
namespace Model

inductive MatrixName where
  | A | B | C | D
  deriving DecidableEq, Repr

def MatrixName.text : MatrixName → String
  | .A => "A"
  | .B => "B"
  | .C => "C"
  | .D => "D"

/-- The dimensions that have to agree with the rest of a model. -/
inductive Dimension where
  | aColumns | bRows | cColumns | dRows | dColumns | x0Length | u0Length
  deriving DecidableEq, Repr

def Dimension.text : Dimension → String
  | .aColumns => "A columns"
  | .bRows => "B rows"
  | .cColumns => "C columns"
  | .dRows => "D rows"
  | .dColumns => "D columns"
  | .x0Length => "x0 length"
  | .u0Length => "u0 length"

/-- The numbers of a description that have to be finite. -/
inductive Quantity where
  | matrix (name : MatrixName)
  | x0 | u0 | numerator | denominator | zeros | poles | gain | kp | ki | kd | timeConstant
  deriving DecidableEq, Repr

def Quantity.text : Quantity → String
  | .matrix name => name.text
  | .x0 => "x0"
  | .u0 => "u0"
  | .numerator => "numerator"
  | .denominator => "denominator"
  | .zeros => "zeros"
  | .poles => "poles"
  | .gain => "gain"
  | .kp => "kp"
  | .ki => "ki"
  | .kd => "kd"
  | .timeConstant => "T"

inductive ModelError (α : Type) where
  /-- A dimension disagrees with the rest of the model. -/
  | shape (what : Dimension) (expected actual : Nat)
  /-- `C` is given but neither of the matrices that could size the rest. -/
  | unsizedC
  /-- Rows of different lengths. -/
  | ragged (name : MatrixName) (row length expected : Nat)
  | noMatrices
  | emptyDenominator
  /-- The numerator is of higher degree than the denominator. -/
  | improper (numeratorDegree denominatorDegree : Nat)
  | noActiveGain
  /-- A derivative term without a positive filter time constant. -/
  | timeConstant (value : α)
  | nonFinite (what : Quantity)
  deriving DecidableEq, Repr

def ModelError.message : ModelError Float → String
  | .shape what expected actual =>
    "shape mismatch: " ++ what.text ++ " expected " ++ toString expected ++ ", found " ++
      toString actual
  | .unsizedC => "shape mismatch: C expected A or D to size the system, found C without A or D"
  | .ragged name row length expected =>
    "invalid matrix " ++ name.text ++ ": row " ++ toString row ++ " has " ++ toString length ++
      " columns, expected " ++ toString expected
  | .noMatrices => "state-space model needs at least one of A, B, C, D"
  | .emptyDenominator => "transfer function denominator is empty or zero"
  | .improper m n =>
    "improper transfer function: numerator degree " ++ toString m ++
      " exceeds denominator degree " ++ toString n
  | .noActiveGain => "at least one of kp, ki, kd must be non-zero"
  | .timeConstant value =>
    "derivative filter time constant must be greater than zero, found " ++
      Number.Spelling.plain.text value
  | .nonFinite what => what.text ++ " contains a non-finite value"

end Model
end LtiUnit
