import LtiUnit.Json.Value
import LtiUnit.Text

/-!
# LtiUnit.Json.Printer

The texts of JSON documents: compact, or spread over lines with two blanks of indentation for each
level.
-/

namespace LtiUnit
namespace Json

def hexText (code : Nat) : String :=
  String.ofList ((List.range 4).map fun i => Nat.digitChar (code / Nat.pow 16 (3 - i) % 16))

/-- A character inside quotes. Quotes, backslashes and control characters are escaped. -/
def charText (c : Char) : String :=
  match c with
  | '"' => "\\\""
  | '\\' => "\\\\"
  | '\x08' => "\\b"
  | '\x0c' => "\\f"
  | '\n' => "\\n"
  | '\r' => "\\r"
  | '\t' => "\\t"
  | c => if c.toNat < 0x20 then "\\u" ++ hexText c.toNat else c.toString

def Part.text : Part → String
  | .char c => charText c
  | .unit code => "\\u" ++ hexText code

def quoted (parts : List Part) : String := "\"" ++ String.join (parts.map Part.text) ++ "\""

mutual

/-- The compact text of a value. -/
def Value.compact : Value → String
  | .null => "null"
  | .bool b => if b then "true" else "false"
  | .number lexeme => String.ofList lexeme
  | .string parts => quoted parts
  | .array items => "[" ++ Text.separated "," (Value.compactItems items) ++ "]"
  | .object members => "\x7b" ++ Text.separated "," (Value.compactMembers members) ++ "\x7d"

def Value.compactItems : List Value → List String
  | [] => []
  | v :: rest => v.compact :: Value.compactItems rest

def Value.compactMembers : List (List Part × Value) → List String
  | [] => []
  | (key, v) :: rest => (quoted key ++ ":" ++ v.compact) :: Value.compactMembers rest

end

/-- Texts on lines of their own between two brackets; empty brackets stay together. -/
def bracketed (opening closing indent : String) (texts : List String) : String :=
  if texts.isEmpty then opening ++ closing
  else
    opening ++ "\n" ++ Text.separated ",\n" (texts.map fun t => indent ++ "  " ++ t) ++ "\n" ++
      indent ++ closing

mutual

/-- The spread text of a value; lines after the first one start at the given indentation. -/
def Value.pretty (indent : String) : Value → String
  | .array items => bracketed "[" "]" indent (Value.prettyItems (indent ++ "  ") items)
  | .object members =>
    bracketed "\x7b" "\x7d" indent (Value.prettyMembers (indent ++ "  ") members)
  | .null => "null"
  | .bool b => if b then "true" else "false"
  | .number lexeme => String.ofList lexeme
  | .string parts => quoted parts

def Value.prettyItems (indent : String) : List Value → List String
  | [] => []
  | v :: rest => v.pretty indent :: Value.prettyItems indent rest

def Value.prettyMembers (indent : String) : List (List Part × Value) → List String
  | [] => []
  | (key, v) :: rest =>
    (quoted key ++ ": " ++ v.pretty indent) :: Value.prettyMembers indent rest

end

end Json
end LtiUnit
