import LtiUnit.Identity.Name
import LtiUnit.Shell.Syntax

/-!
# LtiUnit.Shell.Token

The tokens of a script. A machine takes the characters one at a time; its mode says what the next
one can be.
-/

namespace LtiUnit
namespace Shell

inductive Token where
  | word (pieces : Word)
  | operator (text : String)
  /-- The operator of a redirection, with the number in front of it. -/
  | redirection (output : Option Nat) (text : String)
  | lineBreak
  deriving DecidableEq, Repr

/-- What the machine is inside of. -/
inductive Mode where
  | plain
  | comment
  | single
  | double
  /-- Behind a backslash, inside of double quotes or not. -/
  | escape (quoted : Bool)
  /-- Behind a dollar sign. -/
  | dollar (quoted : Bool)
  /-- In the name of a variable; the characters come last first. -/
  | name (quoted : Bool) (chars : List Char)
  | braced (quoted : Bool) (chars : List Char)
  /-- In a script whose output is asked for, and which begins on the given line: how many of its
  brackets are open, and its characters, last first. -/
  | output (quoted : Bool) (line depth : Nat) (chars : List Char)
  /-- In such a script between ticks. -/
  | ticks (quoted : Bool) (line : Nat) (chars : List Char)
  /-- Behind the first character of an operator. -/
  | operator (output : Option Nat) (first : Char)
  deriving DecidableEq, Repr

/-- The character that begins and ends a script within a word. -/
def tick : Char := '\u0060'

/-- What is done to the value of a variable, as it is written behind the name. -/
def changeOf : List Char → Change
  | ':' :: '-' :: cs | ':' :: '=' :: cs => .orElse true (String.ofList cs)
  | '-' :: cs | '=' :: cs => .orElse false (String.ofList cs)
  | ':' :: '+' :: cs => .ifThere true (String.ofList cs)
  | '+' :: cs => .ifThere false (String.ofList cs)
  | '#' :: '#' :: cs => .without false true (String.ofList cs)
  | '#' :: cs => .without false false (String.ofList cs)
  | '%' :: '%' :: cs => .without true true (String.ofList cs)
  | '%' :: cs => .without true false (String.ofList cs)
  | _ => .asIs

/-- The variable that stands between braces. -/
def bracedPiece (quoted : Bool) (cs : List Char) : Piece :=
  match cs with
  | [] => .text "" quoted
  | '#' :: c :: rest => .variable (String.ofList (c :: rest)) .length quoted
  | c :: rest =>
    let isMore := if isNameStart c then isNameRest else fun d => c.isDigit && d.isDigit
    .variable (String.ofList (c :: rest.takeWhile isMore)) (changeOf (rest.dropWhile isMore)) quoted

/-- The machine: tokens with their lines and the pieces of the word that is being read, the last
ones first. -/
structure Scanner where
  line : Nat
  tokens : List (Nat × Token)
  word : Option Word
  mode : Mode

namespace Scanner

def push (s : Scanner) (t : Token) : Scanner := { s with tokens := (s.line, t) :: s.tokens }

def endWord (s : Scanner) : Scanner :=
  match s.word with
  | none => s
  | some pieces => { s.push (.word pieces.reverse) with word := none }

def addPiece (s : Scanner) (p : Piece) : Scanner := { s with word := some (p :: s.word.getD []) }

/-- Make sure that a word is being read, be it empty. -/
def beginQuoted (s : Scanner) : Scanner := s.addPiece (.text "" true)

def addChar (s : Scanner) (quoted : Bool) (c : Char) : Scanner :=
  match s.word with
  | some (.text t q :: rest) =>
    if q = quoted then { s with word := some (.text (t.push c) q :: rest) }
    else s.addPiece (.text (String.singleton c) quoted)
  | _ => s.addPiece (.text (String.singleton c) quoted)

/-- A character that may begin a new line. -/
def countLine (s : Scanner) (c : Char) : Scanner :=
  if c == '\n' then { s with line := s.line + 1 } else s

def within (quoted : Bool) : Mode := if quoted then .double else .plain

/-- The number of an output right in front of a redirection. -/
def outputNumber? (s : Scanner) : Option Nat :=
  match s.word with
  | some [.text t false] => if t.toList.all Char.isDigit then t.toNat? else none
  | _ => none

def isRedirecting (c : Char) : Bool := c == '<' || c == '>'

/-- A character outside of quotes. -/
def plain (s : Scanner) (c : Char) : Scanner :=
  let s := { s with mode := .plain }
  if c == ' ' || c == '\t' || c == '\r' then s.endWord
  else if c == '\n' then { s.endWord.push .lineBreak with line := s.line + 1 }
  else if c == '#' && s.word.isNone then { s with mode := .comment }
  else if c == '\'' then { s.beginQuoted with mode := .single }
  else if c == '"' then { s.beginQuoted with mode := .double }
  else if c == '\\' then { s with mode := .escape false }
  else if c == '$' then { s with mode := .dollar false }
  else if c == tick then { s with mode := .ticks false s.line [] }
  else if isRedirecting c then
    match s.outputNumber? with
    | some n => { s with word := none, mode := .operator (some n) c }
    | none => { s.endWord with mode := .operator none c }
  else if c == ';' || c == '&' || c == '|' || c == '(' || c == ')' then
    { s.endWord with mode := .operator none c }
  else s.addChar false c

/-- A character inside of double quotes. -/
def double (s : Scanner) (c : Char) : Scanner :=
  let s := { s with mode := .double }
  if c == '"' then { s with mode := .plain }
  else if c == '\\' then { s with mode := .escape true }
  else if c == '$' then { s with mode := .dollar true }
  else if c == tick then { s with mode := .ticks true s.line [] }
  else (s.countLine c).addChar true c

/-- A character behind something that has ended. -/
def again (s : Scanner) (quoted : Bool) (c : Char) : Scanner :=
  if quoted then s.double c else s.plain c

def longOperators : List String := ["&&", "||", ";;", ">>", ">&", "<&"]

def pushOperator (s : Scanner) (output : Option Nat) (first : Char) (text : String) : Scanner :=
  if isRedirecting first then s.push (.redirection output text) else s.push (.operator text)

/-- A character that names a variable on its own. -/
def isShortName (c : Char) : Bool :=
  c.isDigit || c == '*' || c == '@' || c == '#' || c == '?' || c == '$' || c == '!' || c == '-'

/-- One step of the machine. -/
def step (s : Scanner) (c : Char) : Scanner :=
  match s.mode with
  | .plain => s.plain c
  | .comment => if c == '\n' then s.plain c else s
  | .single =>
    if c == '\'' then { s with mode := .plain }
    else (s.countLine c).addChar true c
  | .double => s.double c
  | .escape quoted =>
    let s := { s with mode := within quoted }
    if c == '\n' then { s with line := s.line + 1 }
    else if !quoted || c == '$' || c == '"' || c == '\\' || c == tick then s.addChar true c
    else (s.addChar true '\\').addChar true c
  | .dollar quoted =>
    if isNameStart c then { s with mode := .name quoted [c] }
    else if c == '{' then { s with mode := .braced quoted [] }
    else if c == '(' then { s with mode := .output quoted s.line 0 [] }
    else if isShortName c then
      { s.addPiece (.variable (String.singleton c) .asIs quoted) with mode := within quoted }
    else (s.addChar quoted '$').again quoted c
  | .name quoted chars =>
    if isNameRest c then { s with mode := .name quoted (c :: chars) }
    else (s.addPiece (.variable (String.ofList chars.reverse) .asIs quoted)).again quoted c
  | .braced quoted chars =>
    if c == '}' then { s.addPiece (bracedPiece quoted chars.reverse) with mode := within quoted }
    else { s with mode := .braced quoted (c :: chars) }
  | .output quoted line depth chars =>
    let s := s.countLine c
    if c == ')' && depth == 0 then
      { s.addPiece (.output line (String.ofList chars.reverse) quoted) with mode := within quoted }
    else
      let depth := if c == '(' then depth + 1 else if c == ')' then depth - 1 else depth
      { s with mode := .output quoted line depth (c :: chars) }
  | .ticks quoted line chars =>
    if c == tick then
      { s.addPiece (.output line (String.ofList chars.reverse) quoted) with mode := within quoted }
    else { s.countLine c with mode := .ticks quoted line (c :: chars) }
  | .operator output first =>
    let text := String.ofList [first, c]
    if longOperators.contains text then
      { s.pushOperator output first text with mode := .plain }
    else (s.pushOperator output first (String.singleton first)).plain c

end Scanner

/-- The tokens of a script that begins on the given line, unless a quotation does not end. -/
def tokens? (line : Nat) (script : String) : Option (List (Nat × Token)) :=
  let start : Scanner := ⟨line, [], none, .plain⟩
  let s := (script.toList ++ ['\n']).foldl Scanner.step start
  match s.mode with
  | .plain | .comment | .escape false => some s.endWord.tokens.reverse
  | _ => none

end Shell
end LtiUnit
