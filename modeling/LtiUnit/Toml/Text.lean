import LtiUnit.Number.Digits
import LtiUnit.Toml.Line

/-!
# LtiUnit.Toml.Text

The four kinds of strings of TOML documents. Strings in double quotes have escapes, strings in
single quotes have none; in three quotes of either kind a string may go over several lines, and
may hold one or two of its quotes in a row.
-/

namespace LtiUnit
namespace Toml

/-- The character with a code, if there is one. -/
def charOfCode? (n : Nat) : Option Char := if h : n.isValidChar then some (.ofNatAux n h) else none

/-- The character with a code of hexadecimal digits. -/
def charOfDigits? (digits : List Char) : Option Char :=
  (Number.ofDigits? 16 digits).bind charOfCode?

def escaped? : Char → Option Char
  | 'b' => some '\x08'
  | 'f' => some '\x0c'
  | 'n' => some '\n'
  | 'r' => some '\r'
  | 't' => some '\t'
  | '\\' => some '\\'
  | '"' => some '"'
  | _ => none

def escape? : Reader Char
  | 'u' :: a :: b :: c :: d :: rest => (charOfDigits? [a, b, c, d]).map (·, rest)
  | 'U' :: a :: b :: c :: d :: e :: f :: g :: h :: rest =>
    (charOfDigits? [a, b, c, d, e, f, g, h]).map (·, rest)
  | c :: rest => (escaped? c).map (·, rest)
  | [] => none

theorem length_of_escape? {cs rest : List Char} {c : Char} (h : escape? cs = some (c, rest)) :
    rest.length < cs.length := by
  unfold escape? at h
  split at h <;>
    simp only [Option.map_eq_some_iff, Prod.mk.injEq, List.length_cons, reduceCtorEq] at h ⊢
  all_goals grind

/-- A string in double quotes, after the first one. -/
def basic? (cs : List Char) : Option (List Char × List Char) :=
  match cs with
  | [] => none
  | '"' :: rest => some ([], rest)
  | '\\' :: rest =>
    match h : escape? rest with
    | none => none
    | some (c, after) =>
      have := length_of_escape? h
      (basic? after).map fun (text, after) => (c :: text, after)
  | c :: rest =>
    if isPrintable c then (basic? rest).map fun (text, after) => (c :: text, after) else none
termination_by cs.length
decreasing_by all_goals simp only [List.length_cons]; omega

/-- A string in single quotes, after the first one. -/
def plain? : Reader (List Char)
  | [] => none
  | '\'' :: rest => some ([], rest)
  | c :: rest =>
    if isPrintable c then (plain? rest).map fun (text, after) => (c :: text, after) else none

/-- The characters after blanks and line breaks. -/
def skipBlankLines : List Char → List Char
  | '\n' :: rest => skipBlankLines rest
  | '\r' :: '\n' :: rest => skipBlankLines rest
  | c :: rest => if isBlank c then skipBlankLines rest else c :: rest
  | [] => []

theorem length_skipBlankLines (cs : List Char) : (skipBlankLines cs).length ≤ cs.length := by
  fun_induction skipBlankLines cs <;> simp_all <;> omega

/-- What follows a backslash at the end of a line: the blanks and line breaks there are no part of
the string. -/
def continued? (cs : List Char) : Option (List Char) :=
  (lineBreak? (skipBlanks cs)).map fun _ => skipBlankLines cs

/-- A string in three double quotes, after the first ones. -/
def longBasic? (cs : List Char) : Option (List Char × List Char) :=
  match cs with
  | [] => none
  | '"' :: '"' :: '"' :: '"' :: '"' :: rest => some (['"', '"'], rest)
  | '"' :: '"' :: '"' :: '"' :: rest => some (['"'], rest)
  | '"' :: '"' :: '"' :: rest => some ([], rest)
  | '\\' :: rest =>
    match continued? rest with
    | some _ =>
      have := length_skipBlankLines rest
      longBasic? (skipBlankLines rest)
    | none =>
      match h : escape? rest with
      | none => none
      | some (c, after) =>
        have := length_of_escape? h
        (longBasic? after).map fun (text, after) => (c :: text, after)
  | '\r' :: '\n' :: rest => (longBasic? rest).map fun (text, after) => ('\n' :: text, after)
  | c :: rest =>
    if isPrintable c || c == '\n' then
      (longBasic? rest).map fun (text, after) => (c :: text, after)
    else none
termination_by cs.length
decreasing_by all_goals simp only [List.length_cons]; omega

/-- A string in three single quotes, after the first ones. -/
def longPlain? : Reader (List Char)
  | [] => none
  | '\'' :: '\'' :: '\'' :: '\'' :: '\'' :: rest => some (['\'', '\''], rest)
  | '\'' :: '\'' :: '\'' :: '\'' :: rest => some (['\''], rest)
  | '\'' :: '\'' :: '\'' :: rest => some ([], rest)
  | '\r' :: '\n' :: rest => (longPlain? rest).map fun (text, after) => ('\n' :: text, after)
  | c :: rest =>
    if isPrintable c || c == '\n' then
      (longPlain? rest).map fun (text, after) => (c :: text, after)
    else none

/-- The characters after a line break at the very front, if there is one. -/
def dropFirstBreak (cs : List Char) : List Char := (lineBreak? cs).getD cs

def shortText? : Reader (List Char)
  | '"' :: rest => basic? rest
  | '\'' :: rest => plain? rest
  | _ => none

def text? : Reader (List Char)
  | '"' :: '"' :: '"' :: rest => longBasic? (dropFirstBreak rest)
  | '\'' :: '\'' :: '\'' :: rest => longPlain? (dropFirstBreak rest)
  | rest => shortText? rest

end Toml
end LtiUnit
