import LtiUnit.Toml.Moment
import LtiUnit.Toml.Numeral
import LtiUnit.Toml.Table
import LtiUnit.Toml.Text

/-!
# LtiUnit.Toml.Statement

The statements of TOML documents: values under keys, and headers. Arrays and inline tables may be
nested below `deepest` levels, and dotted keys may have fewer than `deepest` parts.
-/

namespace LtiUnit
namespace Toml

/-- The bound on nesting and on the parts of a key. -/
def deepest : Nat := 80

/-- A character of a key without quotes. -/
def isKeyChar (c : Char) : Bool := c.isAlphanum || c == '_' || c == '-'

def keyPart? (cs : List Char) : Option (List Char × List Char) :=
  match cs with
  | '"' :: _ | '\'' :: _ => shortText? cs
  | _ =>
    let part := cs.takeWhile isKeyChar
    if part.isEmpty then none else some (part, cs.dropWhile isKeyChar)

/-- The parts of a key with blanks around them, at most `n`. -/
def keyParts? : Nat → Reader (List String)
  | 0, _ => none
  | n + 1, cs => do
    let (part, rest) ← keyPart? (skipBlanks cs)
    match skipBlanks rest with
    | '.' :: rest =>
      let (parts, rest) ← keyParts? n rest
      return (String.ofList part :: parts, rest)
    | rest => return ([String.ofList part], rest)

/-- A key: the path to its table, and its name there. -/
def key? (cs : List Char) : Option ((List String × String) × List Char) := do
  let (parts, rest) ← keyParts? (deepest - 1) cs
  return ((parts.dropLast, ← parts.getLast?), rest)

/-- A key, an equals sign and a value. -/
def pair? (value? : Reader Datum) (cs : List Char) :
    Option ((List String × String × Datum) × List Char) := do
  let ((path, name), rest) ← key? cs
  let rest ← after? '=' rest
  let (d, rest) ← value? (skipBlanks rest)
  return ((path, name, d), rest)

/-- The items of an array up to its closing bracket, at most `n`. They are divided by commas and may
stand on lines of their own. -/
def items? (value? : Reader Datum) : Nat → Reader (List Datum)
  | 0, _ => none
  | n + 1, cs => do
    match ← skipLines? false cs with
    | ']' :: rest => return ([], rest)
    | cs =>
      let (d, rest) ← value? cs
      match ← skipLines? false rest with
      | ',' :: rest =>
        let (ds, rest) ← items? value? n rest
        return (d :: ds, rest)
      | ']' :: rest => return ([d], rest)
      | _ => none

/-- The pairs of an inline table up to its closing brace, at most `n`. -/
def pairs? (value? : Reader Datum) : Nat → Reader (List (List String × String × Datum))
  | 0, _ => none
  | n + 1, cs => do
    let (p, rest) ← pair? value? cs
    match skipBlanks rest with
    | ',' :: rest =>
      let (ps, rest) ← pairs? value? n rest
      return (p :: ps, rest)
    | '}' :: rest => return ([p], rest)
    | _ => none

/-- An inline table after its opening brace. -/
def inlineTable? (value? : Reader Datum) (cs : List Char) : Option (Datum × List Char) :=
  match skipBlanks cs with
  | '}' :: rest => some (.table [], rest)
  | _ => do
    let (ps, rest) ← pairs? value? (cs.length + 1) cs
    let entries ← Entries.addAll [] ps
    return (.table (Node.members entries), rest)

/-- A value without brackets around it. -/
def simple? (cs : List Char) : Option (Datum × List Char) :=
  match cs with
  | '"' :: _ | '\'' :: _ => (text? cs).map fun (s, rest) => (.text (String.ofList s), rest)
  | 't' :: 'r' :: 'u' :: 'e' :: rest => some (.bool true, rest)
  | 'f' :: 'a' :: 'l' :: 's' :: 'e' :: rest => some (.bool false, rest)
  | _ =>
    match moment? cs with
    | some rest => some (.moment, rest)
    | none => (number? cs).map fun (x, rest) => (.number x, rest)

/-- A value in which at most `depth` arrays and inline tables are open at a time. -/
def value? : Nat → Reader Datum
  | 0, '[' :: _ | 0, '{' :: _ => none
  | depth + 1, '[' :: rest =>
    (items? (value? depth) (rest.length + 1) rest).map fun (ds, rest) => (.list ds, rest)
  | depth + 1, '{' :: rest => inlineTable? (value? depth) rest
  | _, cs => simple? cs

/-- A line of a document that says something. -/
inductive Statement where
  | pair (path : List String) (key : String) (d : Datum)
  /-- A header in single or double brackets. -/
  | header (double : Bool) (path : List String) (key : String)

/-- A header after its first bracket. -/
def header? : Reader Statement
  | '[' :: rest => do
    let ((path, name), rest) ← key? rest
    let rest ← after? ']' rest
    let rest ← after? ']' rest
    return (.header true path name, rest)
  | rest => do
    let ((path, name), rest) ← key? rest
    let rest ← after? ']' rest
    return (.header false path name, rest)

def statement? : Reader Statement
  | '[' :: rest => header? rest
  | rest => (pair? (value? (deepest - 1)) rest).map fun ((path, key, d), rest) => (.pair path key d, rest)

/-- The statements of a document of at most `n` lines. -/
def statements? : Nat → List Char → Option (List Statement)
  | 0, _ => none
  | n + 1, cs =>
    match skipBlanks cs with
    | [] => some []
    | cs =>
      match lineEnd? cs with
      | some rest => statements? n rest
      | none => do
        let (s, rest) ← statement? cs
        let rest ← lineEnd? rest
        return s :: (← statements? n rest)

end Toml
end LtiUnit
