/-!
# LtiUnit.Datum

What a model file or a configuration file says, whichever notation it is written in.
-/

namespace LtiUnit

inductive Datum where
  | nothing
  | bool (b : Bool)
  | number (x : Float)
  | text (s : String)
  /-- A date or a time, which no setting takes. -/
  | moment
  | list (items : List Datum)
  | table (members : List (String × Datum))
  deriving Repr

namespace Datum

def toFloat? : Datum → Option Float
  | .number x => some x
  | _ => none

def toText? : Datum → Option String
  | .text s => some s
  | _ => none

def toBool? : Datum → Option Bool
  | .bool b => some b
  | _ => none

/-- A list of things that each read. -/
def toList? {β : Type} (item : Datum → Option β) : Datum → Option (List β)
  | .list items => items.mapM item
  | _ => none

/-- Nothing, or something that reads. -/
def toOption? {β : Type} (item : Datum → Option β) : Datum → Option (Option β)
  | .nothing => some none
  | d => (item d).map some

def toFloats? : Datum → Option (List Float) := toList? toFloat?

def toRows? : Datum → Option (List (List Float)) := toList? toFloats?

end Datum

abbrev Members := List (String × Datum)

namespace Members

/-- The values under any of some names of one field. -/
def valuesOf (ms : Members) (names : List String) : List Datum :=
  (ms.filter fun m => names.contains m.1).map Prod.snd

/-- A field that has to be there exactly once. -/
def required? {β : Type} (ms : Members) (names : List String) (read : Datum → Option β) :
    Option β :=
  match ms.valuesOf names with
  | [d] => read d
  | _ => none

/-- A field that may be left out, and then has a value of its own. -/
def withDefault? {β : Type} (ms : Members) (names : List String) (read : Datum → Option β)
    (default : β) : Option β :=
  match ms.valuesOf names with
  | [] => some default
  | [d] => read d
  | _ => none

end Members

end LtiUnit
