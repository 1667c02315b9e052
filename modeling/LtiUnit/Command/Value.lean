import LtiUnit.Json.Datum
import LtiUnit.Model.Description

/-!
# LtiUnit.Command.Value

Matrices, lists and numbers as they are typed on the command line: in JSON notation, a number
standing for a list of one where a list is asked for.
-/

namespace LtiUnit
namespace Command

open Model (Description)

/-- Why a typed value cannot be used. `name` is the value asked for. -/
inductive ValueError where
  | notMatrix (name : String)
  | notList (name : String)
  | notOne (name : String) (count : Nat)
  deriving DecidableEq, Repr

def jsonFault : String := "<json>"

def ValueError.message : ValueError → String
  | .notMatrix name =>
    name ++ ": expected a JSON matrix like [[1, 2], [3, 4]]: " ++ jsonFault
  | .notList name =>
    name ++ ": expected a JSON list like [0.5, 1] or a number: " ++ jsonFault
  | .notOne name count =>
    name ++ ": single-input models take one value, found " ++ toString count

def matrix (name text : String) : Except ValueError (List (List Float)) :=
  match (Json.datum? text).bind Datum.toRows? with
  | some rows => .ok rows
  | none => .error (.notMatrix name)

def list (name text : String) : Except ValueError (List Float) :=
  match Json.datum? text with
  | some (.number x) => .ok [x]
  | some d =>
    match d.toFloats? with
    | some xs => .ok xs
    | none => .error (.notList name)
  | none => .error (.notList name)

/-- A single number, or a list of one. -/
def scalar (name text : String) : Except ValueError Float := do
  match ← list name text with
  | [x] => return x
  | xs => throw (.notOne name xs.length)

def optional {β : Type} (read : String → Except ValueError β) :
    Option String → Except ValueError (Option β)
  | none => .ok none
  | some text => (read text).map some

/-- A description with the start values that are given in place of its own. -/
def withStartValues (d : Description Float) (x0 u0 : Option String) :
    Except ValueError (Description Float) := do
  let x0 ← optional (list "x0") x0
  match d with
  | .stateSpace f =>
    let u0 ← optional (list "u0") u0
    return .stateSpace { f with x0 := x0 <|> f.x0, u0 := u0 <|> f.u0 }
  | .transferFunction f =>
    let u0 ← optional (scalar "u0") u0
    return .transferFunction { f with x0 := x0 <|> f.x0, u0 := u0 <|> f.u0 }
  | .zeroPoleGain f =>
    let u0 ← optional (scalar "u0") u0
    return .zeroPoleGain { f with x0 := x0 <|> f.x0, u0 := u0 <|> f.u0 }
  | .controller f =>
    let u0 ← optional (scalar "u0") u0
    return .controller { f with x0 := x0 <|> f.x0, u0 := u0 <|> f.u0 }

end Command
end LtiUnit
