/-!
# LtiUnit.Toml.Line

Blanks, line breaks and comments of TOML documents. A reader takes the characters that are left and
gives what it read together with the characters after it.
-/

namespace LtiUnit
namespace Toml

/-- Read something from the front of the characters that are left. -/
abbrev Reader (β : Type) := List Char → Option (β × List Char)

/-- A blank within a line. -/
def isBlank (c : Char) : Bool := c == ' ' || c == '\t'

def skipBlanks (cs : List Char) : List Char := cs.dropWhile isBlank

/-- The characters after a line break. -/
def lineBreak? : List Char → Option (List Char)
  | '\n' :: rest => some rest
  | '\r' :: '\n' :: rest => some rest
  | _ => none

/-- Whether a character may stand in a text or a comment: control characters may not, tabs may. -/
def isPrintable (c : Char) : Bool :=
  c == '\t' || (decide (0x20 ≤ c.toNat) && decide (c.toNat ≠ 0x7F))

/-- The characters after the end of a line: blanks, a comment, and a line break or the end of the
document. -/
def lineEnd? (cs : List Char) : Option (List Char) :=
  let cs := skipBlanks cs
  let cs :=
    match cs with
    | '#' :: rest => rest.dropWhile isPrintable
    | rest => rest
  match cs with
  | [] => some []
  | rest => lineBreak? rest

/-- The characters after blanks, line breaks and comments; inside a comment if `inComment`. A
comment has to end with a line break. -/
def skipLines? (inComment : Bool) : List Char → Option (List Char)
  | [] => if inComment then none else some []
  | '\n' :: rest => skipLines? false rest
  | '\r' :: '\n' :: rest => skipLines? false rest
  | c :: rest =>
    if inComment then if isPrintable c then skipLines? true rest else none
    else if isBlank c then skipLines? false rest
    else if c = '#' then skipLines? true rest
    else if c = '\r' then none
    else some (c :: rest)

end Toml
end LtiUnit
