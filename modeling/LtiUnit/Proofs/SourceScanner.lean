import LtiUnit.Proofs.Interface
import LtiUnit.Proofs.RoutineReader

/-!
# LtiUnit.Proofs.SourceScanner

A reader for what a translation unit defines and uses, by two machines that each take one thing at a
time. The first one takes characters and gives lexemes; comments give none, and of a string only
that there is one is kept. The second one takes lexemes and gives the directives and the
declarations at file scope. An entry is what one of those defines and what it mentions.

Conditional parts are read as if all of them were there, and a linkage specification as if its
brackets were not.
-/

namespace LtiUnit
namespace Source

/-! ## Machines -/

section Machine

variable {σ ι β : Type}

/-- The state of a machine after some inputs, and all that it has given on the way. -/
def run (step : σ → ι → σ × List β) : σ → List ι → σ × List β
  | s, [] => (s, [])
  | s, x :: xs =>
    let (s', out) := step s x
    let (s'', rest) := run step s' xs
    (s'', out ++ rest)

end Machine

/-! ## Lexemes -/

inductive Lexeme where
  | word (s : String)
  | number (s : String)
  | quoted
  | mark (c : Char)
  | lineBreak
  deriving DecidableEq, Repr

/-- What the characters before the next one are a part of. Characters of an unfinished lexeme are
kept last first. -/
inductive Scan where
  | between
  | word (cs : List Char)
  | number (cs : List Char)
  /-- In quotes of a kind, and whether after a backslash. -/
  | quoted (quote : Char) (escaped : Bool)
  /-- After a slash that may open a comment. -/
  | slash
  /-- In a comment to the end of the line. -/
  | lineComment
  /-- In a comment, and whether after a star. -/
  | comment (star : Bool)
  /-- After a backslash that may join two lines. -/
  | backslash
  deriving DecidableEq, Repr

/-- Whether a number goes on, whose last character is given. -/
def numberGoesOn (last c : Char) : Bool :=
  isNameRest c || c == '.' || ((last == 'e' || last == 'E') && (c == '+' || c == '-'))

/-- A character after which nothing is unfinished. -/
def Scan.start (c : Char) : Scan × List Lexeme :=
  if isNameStart c then (.word [c], [])
  else if c.isDigit then (.number [c], [])
  else if c = '"' ∨ c = '\'' then (.quoted c false, [])
  else if c = '/' then (.slash, [])
  else if c = '\\' then (.backslash, [])
  else if c = '\n' then (.between, [.lineBreak])
  else if c = ' ' then (.between, [])
  else (.between, [.mark c])

/-- A character that comes after a finished lexeme. -/
def Scan.after (t : Lexeme) (c : Char) : Scan × List Lexeme :=
  let (s, ts) := start c
  (s, t :: ts)

def Scan.step : Scan → Char → Scan × List Lexeme
  | .between, c => start c
  | .word cs, c =>
    if isNameRest c then (.word (c :: cs), []) else after (.word (String.ofList cs.reverse)) c
  | .number cs, c =>
    if cs.head?.any (numberGoesOn · c) then (.number (c :: cs), [])
    else after (.number (String.ofList cs.reverse)) c
  | .quoted quote true, _ => (.quoted quote false, [])
  | .quoted quote false, c =>
    if c = '\\' then (.quoted quote true, [])
    else if c = quote then (.between, [.quoted])
    else (.quoted quote false, [])
  | .slash, c =>
    if c = '*' then (.comment false, [])
    else if c = '/' then (.lineComment, [])
    else after (.mark '/') c
  | .lineComment, c => if c = '\n' then (.between, [.lineBreak]) else (.lineComment, [])
  | .comment star, c => if star && c == '/' then (.between, []) else (.comment (c == '*'), [])
  | .backslash, c => if c = '\n' then (.between, []) else after (.mark '\\') c

/-! ## Directives and declarations -/

inductive Piece where
  /-- The lexemes of a directive after its mark. -/
  | directive (ts : List Lexeme)
  | declaration (ts : List Lexeme)
  deriving DecidableEq, Repr

/-- The directive and the declaration that are being read, last lexeme first, and how many
brackets are open. -/
structure Gather where
  directive : Option (List Lexeme) := none
  fresh : Bool := true
  declaration : List Lexeme := []
  depth : Nat := 0
  deriving DecidableEq, Repr

/-- Whether lexemes begin as a function with a body does: with parentheses before the body. -/
def isFunction (ts : List Lexeme) : Bool :=
  let front := ts.takeWhile (· != .mark '\x7b')
  front.contains (.mark '(') && front.length < ts.length

def Gather.code (g : Gather) (t : Lexeme) : Gather × List Piece :=
  let g : Gather := { g with fresh := false }
  match t with
  | .mark '\x7b' =>
    if g.depth = 0 ∧ g.declaration = [.quoted, .word "extern"] then
      ({ g with declaration := [] }, [])
    else ({ g with declaration := t :: g.declaration, depth := g.depth + 1 }, [])
  | .mark '\x7d' =>
    let ts := t :: g.declaration
    if g.depth = 0 then (g, [])
    else if g.depth = 1 ∧ isFunction ts.reverse then
      ({ g with declaration := [], depth := 0 }, [.declaration ts.reverse])
    else ({ g with declaration := ts, depth := g.depth - 1 }, [])
  | .mark ';' =>
    let ts := t :: g.declaration
    if g.depth = 0 then ({ g with declaration := [] }, [.declaration ts.reverse])
    else ({ g with declaration := ts }, [])
  | t => ({ g with declaration := t :: g.declaration }, [])

def Gather.step (g : Gather) (t : Lexeme) : Gather × List Piece :=
  match g.directive with
  | some ts =>
    if t = .lineBreak then ({ g with directive := none, fresh := true }, [.directive ts.reverse])
    else ({ g with directive := some (t :: ts) }, [])
  | none =>
    if t = .lineBreak then ({ g with fresh := true }, [])
    else if t = .mark '#' ∧ g.fresh = true then ({ g with directive := some [] }, [])
    else g.code t

/-! ## Entries -/

/-- The names that the tables, the macros for registers and the routines of a unit may have. -/
def watched : List String :=
  ["A", "B", "C", "D", "x0_reset", "u0_reset", "vrs_x", "vrs_der", "vrs_y", "_X", "_DER", "_X0",
    "_U", "_U0", "_Y", "innerProduct", "updateDerivatives", "updateStates", "updateOutputs",
    "copyX0toX", "resetX", "copyU0toU", "resetU", "evaluate"]

def Lexeme.word? : Lexeme → Option String
  | .word s => some s
  | _ => none

def wordsOf (ts : List Lexeme) : List String := ts.filterMap Lexeme.word?

/-- The watched names that occur in some lexemes. -/
def mentions (ts : List Lexeme) : List String := watched.filter ((wordsOf ts).contains ·)

/-- A length of an array as it is declared. -/
inductive Bound where
  | count (n : Nat)
  | named (x : String)
  /-- No length, which is then that of the initializer. -/
  | omitted
  /-- Anything else. -/
  | other
  deriving DecidableEq, Repr

/-- The lengths in the brackets at the front of some lexemes. -/
def bounds : List Lexeme → List Bound
  | .mark '[' :: .mark ']' :: ts => .omitted :: bounds ts
  | .mark '[' :: .number s :: .mark ']' :: ts =>
    ((Text.decimal? s).map Bound.count).getD .other :: bounds ts
  | .mark '[' :: .word x :: .mark ']' :: ts => .named x :: bounds ts
  | .mark '[' :: _ => [.other]
  | _ => []

/-- The lengths of all arrays that are declared in some lexemes. -/
def arrays : List Lexeme → List (List Bound)
  | [] => []
  | .word _ :: ts => if bounds ts = [] then arrays ts else bounds ts :: arrays ts
  | _ :: ts => arrays ts

/-- The lengths of all arrays that are declared in the body of a function. -/
def localArrays : List Lexeme → List (List Bound)
  | [] => []
  | t :: ts =>
    (match t, ts with
      | .word type, .word _ :: us => if type = "return" ∨ bounds us = [] then [] else [bounds us]
      | _, _ => []) ++ localArrays ts

/-- An initializer by its brackets: a single value, or a list of initializers. -/
inductive Initializer where
  | value
  | list (items : List Initializer)
  deriving Repr

/-- Read an initializer, given the items in each open bracket and what has been read since the last
comma. -/
def Initializer.read : List (List Initializer) → Option Initializer → List Lexeme →
    Option Initializer
  | stack, _, .mark '\x7b' :: ts => read ([] :: stack) none ts
  | items :: stack, last, .mark ',' :: ts => read ((items ++ last.toList) :: stack) none ts
  | items :: stack, last, .mark '\x7d' :: ts =>
    read stack (some (.list (items ++ last.toList))) ts
  | [], last, .mark ';' :: _ => last
  | stack, _, _ :: ts => read stack (some .value) ts
  | _, _, [] => none

/-- Whether an initializer has the declared lengths. -/
def Initializer.Fits : List Bound → Initializer → Prop
  | [], i => i = .value
  | b :: bs, .list items =>
    (match b with
      | .count n => items.length = n
      | .omitted => items ≠ []
      | _ => False) ∧ ∀ i ∈ items, Fits bs i
  | _ :: _, .value => False

inductive Role where
  | define
  | data
  | routine
  | other
  deriving DecidableEq, Repr

/-- What is defined in one place of a unit, and which watched names occur there otherwise. -/
structure Mention where
  role : Role
  name : Option String
  uses : List String
  deriving DecidableEq, Repr

/-- A directive or a declaration: what it mentions, and the arrays that it declares. -/
structure Entry extends Mention where
  arrays : List (List Bound)
  initializer : Option Initializer

/-- Where the name that is declared ends. -/
def endsName (t : Lexeme) : Bool :=
  t == .mark '(' || t == .mark '[' || t == .mark '=' || t == .mark ';' || t == .mark '\x7b'

/-- The entry of a declaration. Only what is `static` is defined here, and a function only if it has
a body. -/
def Entry.ofDeclaration (ts : List Lexeme) : Entry :=
  let front := ts.takeWhile (!endsName ·)
  let rest := ts.dropWhile (!endsName ·)
  match ts.head?, front.getLast? with
  | some (.word "static"), some (.word x) =>
    if isFunction ts then
      ⟨⟨.routine, some x, mentions (front.dropLast ++ rest)⟩, localArrays ts, none⟩
    else if rest.head? = some (.mark '(') then ⟨⟨.other, none, mentions ts⟩, [], none⟩
    else
      ⟨⟨.data, some x, mentions (front.dropLast ++ rest)⟩,
        Source.arrays (ts.takeWhile (· != .mark '=')),
        match rest.dropWhile (· != .mark '=') with
        | [] => none
        | _ :: ts => some ((Initializer.read [] none ts).getD .value)⟩
  | _, _ => ⟨⟨.other, none, mentions ts⟩, Source.arrays ts, none⟩

/-- The entry of a directive. The value of the macro for the name of the model is any name. -/
def Entry.ofDirective : List Lexeme → Entry
  | .word "define" :: .word x :: ts =>
    ⟨⟨.define, some x, if x = "MODEL_IDENTIFIER" then [] else mentions ts⟩, [], none⟩
  | ts => ⟨⟨.other, none, mentions ts⟩, [], none⟩

def Piece.entry : Piece → Entry
  | .directive ts => .ofDirective ts
  | .declaration ts => .ofDeclaration ts

/-- The entries of some characters, if nothing in them is left unfinished. -/
def entriesOf? (cs : List Char) : Option (List Entry) :=
  let scanned := run Scan.step .between cs
  let gathered := run Gather.step {} scanned.2
  if scanned.1 = .between ∧ gathered.1 = {} then some (gathered.2.map Piece.entry) else none

def entries? (text : String) : Option (List Entry) := entriesOf? text.toList

example : (entriesOf? "static int f(void) \x7b return A; /* B */ \x7d\n".toList).map
    (·.map Entry.toMention) = some [⟨.routine, some "f", ["A"]⟩] := by
  decide

end Source
end LtiUnit
