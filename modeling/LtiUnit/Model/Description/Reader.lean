import LtiUnit.Datum
import LtiUnit.Model.Description

/-!
# LtiUnit.Model.Description.Reader

Model descriptions as tables. The member `kind` names the form; the other members are the fields of
the form, in any order, and members of other names are passed over. A description may also be a
list: the kind and then the fields in their order, of which the last ones may be left out if they
have a default.
-/

namespace LtiUnit
namespace Model
namespace Description

/-- The names of the fields of each form, in order. -/
def fieldNames : String → Option (List String)
  | "ss" => some ["A", "B", "C", "D", "x0", "u0"]
  | "tf" => some ["num", "den", "x0", "u0"]
  | "zpk" => some ["zeros", "poles", "gain", "x0", "u0"]
  | "pid" => some ["kp", "ki", "kd", "T", "x0", "u0"]
  | _ => none

/-- A matrix, under its capital or its small letter. -/
def matrix? (ms : Members) (names : List String) : Option (Option (List (List Float))) :=
  ms.withDefault? names (Datum.toOption? Datum.toRows?) none

def vector? (ms : Members) (name : String) : Option (Option (List Float)) :=
  ms.withDefault? [name] (Datum.toOption? Datum.toFloats?) none

/-- The start value of a single input. -/
def scalar? (ms : Members) (name : String) : Option (Option Float) :=
  ms.withDefault? [name] (Datum.toOption? Datum.toFloat?) none

def ofMembers? (kind : String) (ms : Members) : Option (Description Float) :=
  match kind with
  | "ss" => do
    return .stateSpace
      ⟨← matrix? ms ["A", "a"], ← matrix? ms ["B", "b"], ← matrix? ms ["C", "c"],
        ← matrix? ms ["D", "d"], ← vector? ms "x0", ← vector? ms "u0"⟩
  | "tf" => do
    return .transferFunction
      ⟨← ms.required? ["num"] Datum.toFloats?, ← ms.required? ["den"] Datum.toFloats?,
        ← vector? ms "x0", ← scalar? ms "u0"⟩
  | "zpk" => do
    return .zeroPoleGain
      ⟨← ms.withDefault? ["zeros"] Datum.toFloats? [],
        ← ms.withDefault? ["poles"] Datum.toFloats? [],
        ← ms.withDefault? ["gain"] Datum.toFloat? 1, ← vector? ms "x0", ← scalar? ms "u0"⟩
  | "pid" => do
    return .controller
      ⟨← ms.withDefault? ["kp"] Datum.toFloat? 0, ← ms.withDefault? ["ki"] Datum.toFloat? 0,
        ← ms.withDefault? ["kd"] Datum.toFloat? 0,
        ← ms.withDefault? ["T", "t"] Datum.toFloat? 0, ← vector? ms "x0", ← scalar? ms "u0"⟩
  | _ => none

def ofDatum? : Datum → Option (Description Float)
  | .table ms => do
    let kind ← Members.required? ms ["kind"] Datum.toText?
    ofMembers? kind (ms.filter (·.1 != "kind"))
  | .list (.text kind :: fields) => do
    let names ← fieldNames kind
    if names.length < fields.length then none else ofMembers? kind (names.zip fields)
  | _ => none

end Description
end Model
end LtiUnit
