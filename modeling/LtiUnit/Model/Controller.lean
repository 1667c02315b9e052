import LtiUnit.Model.Companion

/-!
# LtiUnit.Model.Controller

PID controllers `kp + ki/s + kd s/(T s + 1)`. Only the active terms are put over a common
denominator, so that no state is introduced for an absent one.
-/

namespace LtiUnit
namespace Model

/-- Which of the proportional, integral and derivative terms are active. -/
inductive Terms where
  | p | i | d | pi | pd | id | pid
  deriving DecidableEq, Repr

namespace Terms

def name : Terms → String
  | .p => "P"
  | .i => "I"
  | .d => "D"
  | .pi => "PI"
  | .pd => "PD"
  | .id => "ID"
  | .pid => "PID"

def hasDerivative : Terms → Bool
  | .d | .pd | .id | .pid => true
  | .p | .i | .pi => false

def stateCount : Terms → Nat
  | .p => 0
  | .i | .d | .pi | .pd => 1
  | .id | .pid => 2

/-- The active terms of three gains; there has to be one. -/
def ofGains {α : Type} [Coefficient α] (kp ki kd : α) : Except (ModelError α) Terms :=
  match Coefficient.isActive kp, Coefficient.isActive ki, Coefficient.isActive kd with
  | true, false, false => .ok .p
  | false, true, false => .ok .i
  | false, false, true => .ok .d
  | true, true, false => .ok .pi
  | true, false, true => .ok .pd
  | false, true, true => .ok .id
  | true, true, true => .ok .pid
  | false, false, false => .error .noActiveGain

end Terms

variable {α : Type}

/-- Numerator and denominator of the sum of the active terms. -/
def Terms.quotient [Zero α] [One α] [Add α] [Mul α] (kp ki kd t : α) : Terms → List α × List α
  | .p => ([kp], [1])
  | .i => ([ki], [1, 0])
  | .d => ([kd, 0], [t, 1])
  | .pi => ([kp, ki], [1, 0])
  | .pd => ([kp * t + kd, kp], [t, 1])
  | .id => ([kd, ki * t, ki], [t, 1, 0])
  | .pid => ([kp * t + kd, kp + ki * t, ki], [t, 1, 0])

/-- Realize the active terms of a controller with filter time constant `t`. -/
def realizeController [Coefficient α] [Zero α] [One α] [Neg α] [Add α] [Sub α] [Mul α] [Div α]
    (kp ki kd t : α) (x0 : Option (List α)) (u0 : Option α) :
    Except (ModelError α) (StateSpace α) :=
  if !Coefficient.isFinite kp then .error (.nonFinite .kp)
  else if !Coefficient.isFinite ki then .error (.nonFinite .ki)
  else if !Coefficient.isFinite kd then .error (.nonFinite .kd)
  else if !Coefficient.isFinite t then .error (.nonFinite .timeConstant)
  else do
    let terms ← Terms.ofGains kp ki kd
    if terms.hasDerivative && !Coefficient.isPositive t then throw (.timeConstant t)
    let (num, den) := terms.quotient kp ki kd t
    realizeQuotient num den x0 u0

end Model
end LtiUnit
