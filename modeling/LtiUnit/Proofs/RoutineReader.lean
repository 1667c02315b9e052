import LtiUnit.Proofs.Interpreter
import LtiUnit.Proofs.SourceReader

/-!
# LtiUnit.Proofs.RoutineReader

A reader for translation units as programs: the constant tables, the routines, and what the macros
stand for.
-/

namespace LtiUnit
namespace Source

open Text (cutAt decimal?)

/-! ## Tokens -/

inductive Token where
  | word (s : String)
  | number (s : String)
  | mark (c : Char)
  /-- `->` -/
  | arrow
  /-- `++` -/
  | step
  /-- `+=` -/
  | accumulate
  deriving DecidableEq, Repr

def isNumberRest (c : Char) : Bool := c.isAlphanum || c == '.'

/-- Tokens of some characters, of which there are no more than the fuel. -/
def tokensBy : Nat → List Char → List Token
  | 0, _ | _, [] => []
  | fuel + 1, c :: cs =>
    if c = ' ' then tokensBy fuel cs
    else if isNameStart c then
      .word (String.ofList (c :: cs.takeWhile isNameRest)) ::
        tokensBy fuel (cs.dropWhile isNameRest)
    else if c.isDigit then
      .number (String.ofList (c :: cs.takeWhile isNumberRest)) ::
        tokensBy fuel (cs.dropWhile isNumberRest)
    else
      match c, cs with
      | '-', '>' :: rest => .arrow :: tokensBy fuel rest
      | '+', '+' :: rest => .step :: tokensBy fuel rest
      | '+', '=' :: rest => .accumulate :: tokensBy fuel rest
      | c, rest => .mark c :: tokensBy fuel rest

def tokens (cs : List Char) : List Token := tokensBy cs.length cs

/-! ## Code

Each reader gives what it finds at the front of some tokens, and the tokens after it. -/

/-- The tokens after a mark. -/
def after? (c : Char) : List Token → Option (List Token)
  | .mark c' :: ts => if c' = c then some ts else none
  | _ => none

def typeName? : List Token → Option (TypeName × List Token)
  | .word "const" :: .word "fmi2Real" :: .mark '*' :: ts => some (.reals, ts)
  | .word "ModelInstance" :: .mark '*' :: ts => some (.component, ts)
  | .word "fmi2Real" :: ts => some (.real, ts)
  | .word "size_t" :: ts => some (.size, ts)
  | .word "fmi2ValueReference" :: ts => some (.reference, ts)
  | _ => none

/-- A number without a sign: a natural one if it has digits only. -/
def constant (s : String) : Expr Literal :=
  match decimal? s with
  | some n => .natural n
  | none => .real ⟨s⟩

/-- The operators of each strength, from the weakest on. -/
def operator? : Nat → Char → Option Operator
  | 0, '<' => some .less
  | 1, '+' => some .add
  | 2, '*' => some .multiply
  | 2, '/' => some .divide
  | _, _ => none

mutual

/-- An expression with operators of a strength and stronger ones. -/
def expr? : Nat → Nat → List Token → Option (Expr Literal × List Token)
  | 0, _, _ => none
  | fuel + 1, level, ts => do
    if level < 3 then
      let (a, ts) ← expr? fuel (level + 1) ts
      operations? fuel level a ts
    else operand? fuel ts

/-- The operations of a strength that follow their first operand. -/
def operations? : Nat → Nat → Expr Literal → List Token → Option (Expr Literal × List Token)
  | 0, _, _, _ => none
  | fuel + 1, level, a, .mark c :: ts =>
    match operator? level c with
    | some op => do
      let (b, ts) ← expr? fuel (level + 1) ts
      operations? fuel level (.binary op a b) ts
    | none => some (a, .mark c :: ts)
  | _, _, a, ts => some (a, ts)

def operand? : Nat → List Token → Option (Expr Literal × List Token)
  | 0, _ => none
  | _ + 1, .word "sizeof" :: .mark '(' :: ts => do
    let (type, ts) ← typeName? ts
    return (.sizeOf type, ← after? ')' ts)
  | fuel + 1, .word x :: ts => suffixes? fuel (.name x) ts
  | _ + 1, .number s :: ts => some (constant s, ts)
  | fuel + 1, .mark '(' :: ts =>
    match typeName? ts with
    | some (type, ts) => do
      let (e, ts) ← operand? fuel (← after? ')' ts)
      return (.cast type e, ts)
    | none => do
      let (e, ts) ← expr? fuel 0 ts
      suffixes? fuel (.paren e) (← after? ')' ts)
  | _, _ => none

/-- The indices and fields that follow an expression. -/
def suffixes? : Nat → Expr Literal → List Token → Option (Expr Literal × List Token)
  | 0, _, _ => none
  | fuel + 1, e, .mark '[' :: ts => do
    let (index, ts) ← expr? fuel 0 ts
    suffixes? fuel (.entry e index) (← after? ']' ts)
  | fuel + 1, e, .arrow :: .word field :: ts => suffixes? fuel (.member e field) ts
  | _, e, ts => some (e, ts)

end

/-- Arguments up to the closing bracket. -/
def arguments? : Nat → List Token → Option (List (Expr Literal) × List Token)
  | 0, _ => none
  | fuel + 1, ts => do
    match ← expr? fuel 0 ts with
    | (e, .mark ',' :: ts) =>
      let (rest, ts) ← arguments? fuel ts
      return (e :: rest, ts)
    | (e, ts) => return ([e], ← after? ')' ts)

/-- The value that a statement assigns, and the semicolon. -/
def rhs? (fuel : Nat) : List Token → Option (Rhs Literal × List Token)
  | .word f :: .mark '(' :: ts => do
    let (args, ts) ← arguments? fuel ts
    return (.call f args, ← after? ';' ts)
  | ts => do
    let (e, ts) ← expr? fuel 0 ts
    return (.expr e, ← after? ';' ts)

/-- Names up to the semicolon. -/
def names? : List Token → Option (List String × List Token)
  | .word x :: .mark ',' :: ts => do
    let (rest, ts) ← names? ts
    return (x :: rest, ts)
  | .word x :: .mark ';' :: ts => some ([x], ts)
  | _ => none

/-- How a loop steps its counter, up to the bracket that opens its body. -/
def stepping? (counter : String) : List Token → Option (Bool × List Token)
  | .step :: .word x :: .mark ')' :: .mark '\x7b' :: ts =>
    if x = counter then some (true, ts) else none
  | .word x :: .step :: .mark ')' :: .mark '\x7b' :: ts =>
    if x = counter then some (false, ts) else none
  | _ => none

mutual

def statement? : Nat → List Token → Option (Stmt Literal × List Token)
  | 0, _ => none
  | _ + 1, .mark '(' :: .word "void" :: .mark ')' :: .word x :: .mark ';' :: ts =>
    some (.discard x, ts)
  | fuel + 1, .word "return" :: ts => do
    let (e, ts) ← expr? fuel 0 ts
    return (.give e, ← after? ';' ts)
  | fuel + 1, .word "if" :: .mark '(' :: ts => do
    let (condition, ts) ← expr? fuel 0 ts
    let (action, ts) ← statement? fuel (← after? ')' ts)
    return (.when condition action, ts)
  | fuel + 1, .word "for" :: .mark '(' :: .word counter :: .mark '=' :: .number "0" ::
      .mark ';' :: .word x :: .mark '<' :: ts => do
    let (bound, ts) ← expr? fuel 1 ts
    let (stepFirst, ts) ← stepping? counter (← after? ';' ts)
    let (body, ts) ← statements? fuel ts
    if x = counter then return (.count counter stepFirst bound body, ← after? '\x7d' ts) else none
  | fuel + 1, .word x :: .mark '(' :: ts => do
    let (args, ts) ← arguments? fuel ts
    return (.call x args, ← after? ';' ts)
  | _ + 1, .word x :: .step :: .mark ';' :: ts => some (.increment x, ts)
  | fuel + 1, ts =>
    match typeName? ts with
    | some (type, .word x :: .mark '=' :: ts) => do
      let (value, ts) ← expr? fuel 0 ts
      return (.define type x value, ← after? ';' ts)
    | some (type, ts) => (names? ts).map fun (names, ts) => (.declare type names, ts)
    | none => do
      match ← operand? fuel ts with
      | (target, .mark '=' :: ts) => (rhs? fuel ts).map fun (v, ts) => (.assign target v, ts)
      | (target, .accumulate :: ts) =>
        (rhs? fuel ts).map fun (v, ts) => (.accumulate target v, ts)
      | _ => none

/-- Statements up to the end or the bracket that closes a body. -/
def statements? : Nat → List Token → Option (List (Stmt Literal) × List Token)
  | 0, _ => none
  | _ + 1, [] => some ([], [])
  | _ + 1, .mark '\x7d' :: ts => some ([], .mark '\x7d' :: ts)
  | fuel + 1, ts => do
    let (first, ts) ← statement? fuel ts
    let (rest, ts) ← statements? fuel ts
    return (first :: rest, ts)

end

/-- Parameters up to the closing bracket. -/
def parameters? : Nat → List Token → Option ((List (TypeName × String)) × List Token)
  | 0, _ => none
  | fuel + 1, ts => do
    match ← typeName? ts with
    | (type, .word x :: .mark ',' :: ts) =>
      let (rest, ts) ← parameters? fuel ts
      return ((type, x) :: rest, ts)
    | (type, .word x :: .mark ')' :: ts) => return ([(type, x)], ts)
    | _ => none

/-- What a routine is said to return. -/
def returns? : List Token → Option (Option TypeName × List Token)
  | .word "void" :: ts => some (none, ts)
  | ts => (typeName? ts).map fun (type, ts) => (some type, ts)

def routineStart : List Char := "static ".toList

def constantStart : List Char := "static const ".toList

/-- The line that opens a routine: what it returns, its name and its parameters. -/
def heading? (line : List Char) : Option (Option TypeName × String × List (TypeName × String)) :=
  if routineStart <+: line ∧ ¬constantStart <+: line then do
    match ← returns? (tokens (line.drop routineStart.length)) with
    | (returns, .word f :: .mark '(' :: ts) =>
      match ← parameters? ts.length ts with
      | (params, [.mark '\x7b']) => return (returns, f, params)
      | _ => none
    | _ => none
  else none

def closing : List Char := ['\x7d']

/-- The routine that a line opens, with the lines after it. -/
def routineAt? (line : List Char) (rest : List (List Char)) : Option (Function Literal) := do
  let (returns, name, params) ← heading? line
  let body := tokens ((rest.takeWhile (· != closing)).flatMap (· ++ [' ']))
  match ← statements? (8 * (body.length + 1)) body with
  | (body, []) => if closing ∈ rest then return ⟨returns, name, params, body⟩ else none
  | _ => none

/-! ## Constant tables -/

/-- Numbers between commas. -/
def literals? (entries : List Char) : Option (List Literal) :=
  (cutAt ',' entries).mapM fun entry =>
    match words entry with
    | [x] => some ⟨x⟩
    | _ => none

/-- A row of a matrix, on a line of its own. -/
def row? (line : List Char) : Option (List Literal) := do
  match ← fields ['\x7b', '\x7d'] line with
  | [before, entries, [',']] => if words before = [] then literals? entries else none
  | _ => none

/-- How tables of real numbers begin. -/
def realsStart : List Char := "static const fmi2Real ".toList

def tableEnd : List Char := "\x7d;".toList

/-- The numbers of a table of real numbers. -/
inductive Numbers where
  | vector (xs : List Literal)
  | matrix (rows : List (List Literal))
  deriving DecidableEq, Repr

/-- The numbers that follow the name of a table. They have to be as many as declared. -/
def numbers? (declarator : List Char) (rest : List (List Char)) : Option Numbers := do
  match fields ['[', ']', '\x7b', '\x7d'] declarator with
  | some [[], size, [' ', '=', ' '], entries, [';']] =>
    let xs ← literals? entries
    if some xs.length = natural? (words size) then return .vector xs else none
  | _ =>
    match ← fields ['[', ']', '[', ']', '\x7b'] declarator with
    | [[], height, [], width, [' ', '=', ' '], []] =>
      let rows ← (rest.takeWhile (· != tableEnd)).mapM row?
      if tableEnd ∈ rest ∧ some rows.length = natural? (words height) ∧
        ∀ row ∈ rows, some row.length = natural? (words width)
      then return .matrix rows
      else none
    | _ => none

/-- The table of real numbers that a line opens, with the lines after it. -/
def numbersAt? (line : List Char) (rest : List (List Char)) : Option (String × Numbers) :=
  if realsStart <+: line then
    let declared := line.drop realsStart.length
    (numbers? (declared.dropWhile isNameRest) rest).map fun numbers =>
      (String.ofList (declared.takeWhile isNameRest), numbers)
  else none

/-! ## Registers of the instance -/

def instanceStart : List Char := "typedef struct \x7b".toList

def instanceEnd : List Char := "\x7d ModelInstance;".toList

def slotsStart : List Char := "    fmi2Real r[".toList

/-- The number of registers that a line of the type of instances declares. -/
def slots? (line : List Char) : Option Nat :=
  if slotsStart <+: line then
    match fields [']'] (line.drop slotsStart.length) with
    | some [n, [';']] => natural? (words n)
    | _ => none
  else none

/-- The number of registers in the type of instances that a line opens. -/
def slotsAt? (line : List Char) (rest : List (List Char)) : Option Nat :=
  if line = instanceStart then
    match (rest.takeWhile (· != instanceEnd)).filterMap slots? with
    | [n] => some n
    | _ => none
  else none

/-! ## Units -/

/-- What stands at file scope, apart from macros and value references. -/
inductive Declaration where
  | slots (n : Nat)
  | numbers (name : String) (table : Numbers)
  | routine (f : Function Literal)

def declarationAt? (line : List Char) (rest : List (List Char)) : Option Declaration :=
  match slotsAt? line rest, numbersAt? line rest, routineAt? line rest with
  | some n, _, _ => some (.slots n)
  | none, some (name, table), _ => some (.numbers name table)
  | none, none, some f => some (.routine f)
  | none, none, none => none

def declarations : List (List Char) → List Declaration
  | [] => []
  | line :: rest => (declarationAt? line rest).toList ++ declarations rest

def Declaration.slots? : Declaration → Option Nat
  | .slots n => some n
  | _ => none

def Declaration.numbers? : Declaration → Option (String × Numbers)
  | .numbers name table => some (name, table)
  | _ => none

def Declaration.routine? : Declaration → Option (String × Function Literal)
  | .routine f => some (f.name, f)
  | _ => none

/-- The value of a macro, from its words. -/
def expansion? (value : List String) : Option (Expr Literal) :=
  match offset? value, value with
  | some base, _ => some (blockPointer base)
  | none, [w] =>
    if w.toList.head?.any Char.isDigit then some (constant w)
    else if isName w then some (.name w)
    else none
  | none, _ => none

def Numbers.value (worth : Literal → ℚ) : Numbers → Value
  | .vector xs => .reals (xs.map worth)
  | .matrix rows => .matrix (rows.map (·.map worth))

/-- The one thing under a name. -/
def only? {α : Type} (name : String) (entries : List (String × α)) : Option α :=
  match under name entries with
  | [x] => some x
  | _ => none

namespace Program

/-- A translation unit as a program, and the number of registers that its instances have room
for. -/
def ofText? (worth : Literal → ℚ) (text : String) : Option (Program × Nat) := do
  let found := declarations (cutAt '\n' text.toList)
  let references := (tables text).filterMap fun (name, declarator) =>
    (values? declarator).map fun ns => (name, Value.references ns)
  let numbers := (found.filterMap (·.numbers?)).map fun (name, table) => (name, table.value worth)
  match found.filterMap (·.slots?) with
  | [slots] =>
    return ({
      registerCount := ← natural? (← only? "NR" (macros text))
      expansion := fun x => (only? x (macros text)).bind expansion?
      table := fun x => only? x (references ++ numbers)
      routine := fun f => only? f (found.filterMap (·.routine?))
      worth := worth }, slots)
  | _ => none

end Program

end Source
end LtiUnit
