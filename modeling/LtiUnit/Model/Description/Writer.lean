import LtiUnit.Json.Printer
import LtiUnit.Model.Description
import LtiUnit.Number.Spelling

/-!
# LtiUnit.Model.Description.Writer

Model descriptions as JSON objects: the kind first, then all fields in their order, with `null` for
those that are not given.
-/

namespace LtiUnit
namespace Model
namespace Description

open Json (Value)

/-- A double; one that is not finite is written as `null`. -/
def ofFloat (x : Float) : Value :=
  if x.isFinite then .number (Number.Spelling.json.chars x) else .null

def ofFloats (xs : List Float) : Value := .array (xs.map ofFloat)

def ofRows (rows : List (List Float)) : Value := .array (rows.map ofFloats)

def ofOption {β : Type} (write : β → Value) : Option β → Value
  | none => .null
  | some x => write x

def fields : Description Float → List (String × Value)
  | .stateSpace f =>
    [("A", ofOption ofRows f.A), ("B", ofOption ofRows f.B), ("C", ofOption ofRows f.C),
      ("D", ofOption ofRows f.D), ("x0", ofOption ofFloats f.x0), ("u0", ofOption ofFloats f.u0)]
  | .transferFunction f =>
    [("num", ofFloats f.num), ("den", ofFloats f.den), ("x0", ofOption ofFloats f.x0),
      ("u0", ofOption ofFloat f.u0)]
  | .zeroPoleGain f =>
    [("zeros", ofFloats f.zeros), ("poles", ofFloats f.poles), ("gain", ofFloat f.gain),
      ("x0", ofOption ofFloats f.x0), ("u0", ofOption ofFloat f.u0)]
  | .controller f =>
    [("kp", ofFloat f.kp), ("ki", ofFloat f.ki), ("kd", ofFloat f.kd), ("T", ofFloat f.t),
      ("x0", ofOption ofFloats f.x0), ("u0", ofOption ofFloat f.u0)]

def toJson (d : Description Float) : Value :=
  .ofMembers (("kind", .ofString d.kind) :: fields d)

end Description
end Model
end LtiUnit
