import LtiUnit.Json.Token

/-!
# LtiUnit.Json.Parser

Reading JSON documents. The reader is a machine that takes one token at a time; what it is in the
middle of is a stack of open arrays and objects, so documents may be nested to any depth.
-/

namespace LtiUnit
namespace Json

/-- An open array or object, with what it holds so far in reverse order. An object also knows the
key that the next value belongs to. -/
inductive Frame where
  | array (done : List Value)
  | object (done : List (List Part × Value)) (key : List Part)

/-- What the machine waits for. -/
inductive Waiting where
  | value (stack : List Frame)
  /-- The first item of an array or its end. -/
  | firstItem (stack : List Frame)
  /-- The first key of an object or its end. -/
  | firstKey (stack : List Frame)
  /-- A key, after a comma. -/
  | key (done : List (List Part × Value)) (stack : List Frame)
  | colon (done : List (List Part × Value)) (key : List Part) (stack : List Frame)
  | after (v : Value) (stack : List Frame)

/-- Take a token where a value has to start. -/
def startValue (stack : List Frame) : Token → Option Waiting
  | .scalar v => some (.after v stack)
  | .openArray => some (.firstItem stack)
  | .openObject => some (.firstKey stack)
  | _ => none

/-- Take one token; `none` when it does not belong there. -/
def step : Waiting → Token → Option Waiting
  | .value stack, t => startValue stack t
  | .firstItem stack, .closeArray => some (.after (.array []) stack)
  | .firstItem stack, t => startValue (.array [] :: stack) t
  | .firstKey stack, .closeObject => some (.after (.object []) stack)
  | .firstKey stack, .scalar (.string key) => some (.colon [] key stack)
  | .key done stack, .scalar (.string key) => some (.colon done key stack)
  | .colon done key stack, .colon => some (.value (.object done key :: stack))
  | .after v (.array done :: stack), .comma => some (.value (.array (v :: done) :: stack))
  | .after v (.array done :: stack), .closeArray =>
    some (.after (.array (v :: done).reverse) stack)
  | .after v (.object done key :: stack), .comma => some (.key ((key, v) :: done) stack)
  | .after v (.object done key :: stack), .closeObject =>
    some (.after (.object ((key, v) :: done).reverse) stack)
  | _, _ => none

/-- Take tokens until they end; the value is the one that is complete then. -/
def run : Waiting → List Token → Option Value
  | .after v [], [] => some v
  | _, [] => none
  | state, t :: rest => (step state t).bind (run · rest)

def parse? (s : String) : Option Value := (Token.scan s.toList).bind (run (.value []))

end Json
end LtiUnit
