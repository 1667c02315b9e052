/-!
# LtiUnit.Json.Value

JSON documents as written: strings keep their `\u` escapes and numbers their digits, so that a
document can be accepted as well-formed without its strings and numbers having a meaning.
-/

namespace LtiUnit
namespace Json

/-- A part of a string: a character, or a `\u` escape with its 16-bit code. -/
inductive Part where
  | char (c : Char)
  | unit (code : Nat)
  deriving DecidableEq, Repr

inductive Value where
  | null
  | bool (b : Bool)
  /-- A number by its characters. -/
  | number (lexeme : List Char)
  | string (parts : List Part)
  | array (items : List Value)
  | object (members : List (List Part × Value))
  deriving Repr

/-- The parts of a text without `\u` escapes. -/
def partsOf (s : String) : List Part := s.toList.map .char

def Value.ofString (s : String) : Value := .string (partsOf s)

def Value.ofNat (n : Nat) : Value := .number (Nat.toDigits 10 n)

def Value.ofMembers (members : List (String × Value)) : Value :=
  .object (members.map fun (key, v) => (partsOf key, v))

/-- The first code of a pair of codes for one character. -/
def isHighSurrogate (code : Nat) : Bool := decide (0xD800 ≤ code ∧ code < 0xDC00)

/-- The second code of such a pair. -/
def isLowSurrogate (code : Nat) : Bool := decide (0xDC00 ≤ code ∧ code < 0xE000)

/-- The characters of a string, if its surrogate codes come in pairs. -/
def characters? : List Part → Option (List Char)
  | [] => some []
  | .char c :: rest => (characters? rest).map (c :: ·)
  | .unit high :: rest =>
    if isHighSurrogate high then
      match rest with
      | .unit low :: rest =>
        if isLowSurrogate low then
          (characters? rest).map
            (Char.ofNat (0x10000 + (high - 0xD800) * 0x400 + (low - 0xDC00)) :: ·)
        else none
      | _ => none
    else if isLowSurrogate high then none
    else (characters? rest).map (Char.ofNat high :: ·)

/-- The text of a string, if its surrogate codes come in pairs. -/
def text? (parts : List Part) : Option String := (characters? parts).map String.ofList

end Json
end LtiUnit
