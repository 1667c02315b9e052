import LtiUnit.Datum
import LtiUnit.Json.Number
import LtiUnit.Json.Parser

/-!
# LtiUnit.Json.Datum

What JSON documents say. All numbers and strings have to have a meaning, and arrays and objects may
not be nested too deeply.
-/

namespace LtiUnit
namespace Json

/-- How many arrays and objects may be open at a time. -/
def deepest : Nat := 127

mutual

/-- What a value says, when `depth` more levels may be open. -/
def Value.datum? (depth : Nat) : Value → Option Datum
  | .null => some .nothing
  | .bool b => some (.bool b)
  | .number lexeme => (float? lexeme).map .number
  | .string parts => (text? parts).map .text
  | .array items =>
    if depth = 0 then none else (Value.data? (depth - 1) items).map .list
  | .object members =>
    if depth = 0 then none else (Value.members? (depth - 1) members).map .table

def Value.data? (depth : Nat) : List Value → Option (List Datum)
  | [] => some []
  | v :: rest => do
    let d ← v.datum? depth
    let ds ← Value.data? depth rest
    return d :: ds

def Value.members? (depth : Nat) : List (List Part × Value) → Option Members
  | [] => some []
  | (key, v) :: rest => do
    let key ← text? key
    let d ← v.datum? depth
    let ms ← Value.members? depth rest
    return (key, d) :: ms

end

/-- What a JSON text says. -/
def datum? (s : String) : Option Datum := (parse? s).bind (Value.datum? deepest)

end Json
end LtiUnit
