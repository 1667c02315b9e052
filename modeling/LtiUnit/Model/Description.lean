import LtiUnit.Model.Completion
import LtiUnit.Model.Controller

/-!
# LtiUnit.Model.Description

A model as it is described by its user, in one of four forms, and its realization.
-/

namespace LtiUnit
namespace Model

/-- State-space matrices as lists of rows, any of which may be left out. -/
structure MatrixForm (α : Type) where
  A : Option (List (List α))
  B : Option (List (List α))
  C : Option (List (List α))
  D : Option (List (List α))
  x0 : Option (List α)
  u0 : Option (List α)
  deriving DecidableEq, Repr

/-- A transfer function by its coefficients, highest degree first. -/
structure QuotientForm (α : Type) where
  num : List α
  den : List α
  x0 : Option (List α)
  u0 : Option α
  deriving DecidableEq, Repr

/-- Real zeros, real poles and a gain. -/
structure FactoredForm (α : Type) where
  zeros : List α
  poles : List α
  gain : α
  x0 : Option (List α)
  u0 : Option α
  deriving DecidableEq, Repr

/-- The gains and the filter time constant of a PID controller. -/
structure ControllerForm (α : Type) where
  kp : α
  ki : α
  kd : α
  t : α
  x0 : Option (List α)
  u0 : Option α
  deriving DecidableEq, Repr

inductive Description (α : Type) where
  | stateSpace (form : MatrixForm α)
  | transferFunction (form : QuotientForm α)
  | zeroPoleGain (form : FactoredForm α)
  | controller (form : ControllerForm α)
  deriving DecidableEq, Repr

namespace Description

variable {α : Type}

def kind : Description α → String
  | .stateSpace _ => "ss"
  | .transferFunction _ => "tf"
  | .zeroPoleGain _ => "zpk"
  | .controller _ => "pid"

/-- Reduce a description to matrices and start values. -/
def realize [Coefficient α] [Zero α] [One α] [Neg α] [Add α] [Sub α] [Mul α] [Div α] :
    Description α → Except (ModelError α) (StateSpace α)
  | .stateSpace f => realizeMatrices f.A f.B f.C f.D f.x0 f.u0
  | .transferFunction f => realizeQuotient f.num f.den f.x0 f.u0
  | .zeroPoleGain f => realizeFactors f.zeros f.poles f.gain f.x0 f.u0
  | .controller f => realizeController f.kp f.ki f.kd f.t f.x0 f.u0

end Description

end Model
end LtiUnit
