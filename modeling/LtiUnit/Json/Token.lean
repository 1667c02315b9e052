import LtiUnit.Json.Number
import LtiUnit.Json.Value
import LtiUnit.Number.Digits

/-!
# LtiUnit.Json.Token

The tokens of JSON documents. `Token.scan` cuts a text into them; between tokens there may be
blanks.
-/

namespace LtiUnit
namespace Json

inductive Token where
  | openArray | closeArray | openObject | closeObject | comma | colon
  /-- A string, a number, or one of the words `true`, `false` and `null`. -/
  | scalar (v : Value)
  deriving Repr

def isBlank (c : Char) : Bool := c == ' ' || c == '\t' || c == '\n' || c == '\r'

def escaped? : Char → Option Char
  | '"' => some '"'
  | '\\' => some '\\'
  | '/' => some '/'
  | 'b' => some '\x08'
  | 'f' => some '\x0c'
  | 'n' => some '\n'
  | 'r' => some '\r'
  | 't' => some '\t'
  | _ => none

/-- The parts of a string up to its closing quote, and what follows the quote. -/
def scanString : List Char → Option (List Part × List Char)
  | [] => none
  | '"' :: rest => some ([], rest)
  | '\\' :: 'u' :: a :: b :: c :: d :: rest => do
    let code ← Number.ofDigits? 16 [a, b, c, d]
    let (parts, after) ← scanString rest
    return (.unit code :: parts, after)
  | '\\' :: c :: rest => do
    let c ← escaped? c
    let (parts, after) ← scanString rest
    return (.char c :: parts, after)
  | c :: rest =>
    if c.toNat < 0x20 ∨ c = '\\' then none
    else do
      let (parts, after) ← scanString rest
      return (.char c :: parts, after)

theorem length_of_scanString {cs : List Char} {parts : List Part} {after : List Char}
    (h : scanString cs = some (parts, after)) : after.length < cs.length := by
  fun_induction scanString cs generalizing parts after <;> simp_all [Option.bind_eq_some_iff]
  all_goals grind

def isNumberChar (c : Char) : Bool :=
  c.isDigit || c == '-' || c == '+' || c == '.' || c == 'e' || c == 'E'

def word? (cs : List Char) : Option Value :=
  if cs = "true".toList then some (.bool true)
  else if cs = "false".toList then some (.bool false)
  else if cs = "null".toList then some .null
  else none

def mark? : Char → Option Token
  | '[' => some .openArray
  | ']' => some .closeArray
  | '{' => some .openObject
  | '}' => some .closeObject
  | ',' => some .comma
  | ':' => some .colon
  | _ => none

/-- The tokens of a text, if it is made of tokens and blanks. -/
def Token.scan (cs : List Char) : Option (List Token) :=
  match cs with
  | [] => some []
  | c :: rest =>
    if isBlank c then Token.scan rest
    else if c = '"' then
      match h : scanString rest with
      | none => none
      | some (parts, after) =>
        have := length_of_scanString h
        (Token.scan after).map (.scalar (.string parts) :: ·)
    else
      match mark? c with
      | some token => (Token.scan rest).map (token :: ·)
      | none =>
        if c.isDigit || c == '-' then
          let lexeme := c :: rest.takeWhile isNumberChar
          have := (List.dropWhile_sublist isNumberChar (l := rest)).length_le
          if (Numeral.ofChars? lexeme).isSome then
            (Token.scan (rest.dropWhile isNumberChar)).map (.scalar (.number lexeme) :: ·)
          else none
        else
          have := (List.dropWhile_sublist Char.isAlpha (l := rest)).length_le
          match word? (c :: rest.takeWhile Char.isAlpha) with
          | none => none
          | some v => (Token.scan (rest.dropWhile Char.isAlpha)).map (.scalar v :: ·)
termination_by cs.length
decreasing_by all_goals simp only [List.length_cons]; omega

end Json
end LtiUnit
