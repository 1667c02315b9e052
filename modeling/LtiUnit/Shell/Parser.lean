import LtiUnit.Shell.Token

/-!
# LtiUnit.Shell.Parser

Commands from tokens. Words such as `if` and `done` are words of the language where a command may
begin. The depth of what is read is bounded by the number of tokens.
-/

namespace LtiUnit
namespace Shell

abbrev Tokens := List (Nat × Token)

/-- The word of the language that stands first. -/
def keyword? : Tokens → Option String
  | (_, .word [.text s false]) :: _ => some s
  | _ => none

/-- The words that end a list of commands. -/
def closers : List String := ["then", "else", "elif", "fi", "do", "done", "esac", "\x7d"]

def expect? (s : String) (ts : Tokens) : Option Tokens :=
  if keyword? ts = some s then some (ts.drop 1) else none

def skipBreaks : Tokens → Tokens
  | (_, .lineBreak) :: ts => skipBreaks ts
  | ts => ts

def skipDividers : Tokens → Tokens
  | (_, .lineBreak) :: ts | (_, .operator ";") :: ts => skipDividers ts
  | ts => ts

/-- Whether a list of commands ends here. -/
def isClosed (ts : Tokens) : Bool :=
  match ts with
  | [] | (_, .operator ")") :: _ | (_, .operator ";;") :: _ => true
  | _ =>
    match keyword? ts with
    | some s => closers.contains s
    | none => false

/-- A redirection, and what follows it. -/
def redirection? : Tokens → Option (Redirection × Tokens)
  | (_, .redirection n op) :: (_, .word w) :: ts =>
    match op with
    | ">" => some (⟨n.getD 1, .file w false⟩, ts)
    | ">>" => some (⟨n.getD 1, .file w true⟩, ts)
    | ">&" => some (⟨n.getD 1, .copy w⟩, ts)
    | _ => none
  | _ => none

/-- At most `n` redirections. -/
def redirections : Nat → Tokens → List Redirection × Tokens
  | 0, ts => ([], ts)
  | n + 1, ts =>
    match redirection? ts with
    | some (r, ts) =>
      let (rs, ts) := redirections n ts
      (r :: rs, ts)
    | none => ([], ts)

def setting? : Word → Option (String × Word)
  | .text s false :: rest =>
    let name := s.toList.takeWhile (· != '=')
    match s.toList.dropWhile (· != '=') with
    | '=' :: value =>
      if isIdentifier name then
        let value := String.ofList value
        some (String.ofList name, if value.isEmpty then rest else .text value true :: rest)
      else none
    | _ => none
  | _ => none

/-- What a simple command is made of so far, the last parts first. -/
structure Parts where
  settings : List (String × Word)
  words : List Word
  redirections : List Redirection

/-- The parts of a simple command, at most `n` of them. -/
def parts : Nat → Parts → Tokens → Parts × Tokens
  | 0, p, ts => (p, ts)
  | n + 1, p, ts =>
    match ts with
    | (_, .word w) :: rest =>
      match (if p.words.isEmpty then setting? w else none) with
      | some s => parts n { p with settings := s :: p.settings } rest
      | none => parts n { p with words := w :: p.words } rest
    | _ =>
      match redirection? ts with
      | some (r, rest) => parts n { p with redirections := r :: p.redirections } rest
      | none => (p, ts)

def simple? (ts : Tokens) : Option (Command × Tokens) :=
  match ts with
  | [] => none
  | (line, _) :: _ =>
    let (p, rest) := parts ts.length ⟨[], [], []⟩ ts
    if rest.length = ts.length then none
    else some
      (.simple line p.settings.reverse p.words.reverse p.redirections.reverse, rest)

/-- The words of a loop up to the end of its line. -/
def wordsOf : Tokens → List Word × Tokens
  | (_, .word w) :: ts =>
    let (ws, ts) := wordsOf ts
    (w :: ws, ts)
  | ts => ([], ts)

/-- Patterns with bars between them, up to the bracket that closes them. -/
def patterns? : Tokens → Option (List Word × Tokens)
  | (_, .word w) :: (_, .operator ")") :: ts => some ([w], ts)
  | (_, .word w) :: (_, .operator "|") :: ts => do
    let (ws, ts) ← patterns? ts
    return (w :: ws, ts)
  | _ => none

/-- A command with the redirections that follow it. -/
def redirected (c : Command) (ts : Tokens) : Command × Tokens :=
  match redirections ts.length ts with
  | ([], ts) => (c, ts)
  | (rs, ts) => (.group c rs, ts)

mutual

/-- Commands one after another. -/
def list? : Nat → Tokens → Option (Command × Tokens)
  | 0, _ => none
  | n + 1, ts =>
    let ts := skipDividers ts
    if isClosed ts then some (.nothing, ts)
    else do
      let (c, ts) ← chain? n ts
      match ts with
      | (_, .lineBreak) :: _ | (_, .operator ";") :: _ =>
        let (d, ts) ← list? n ts
        return (.both c d, ts)
      | _ => if isClosed ts then return (c, ts) else none

/-- Commands each of which waits for the outcome of those before. -/
def chain? : Nat → Tokens → Option (Command × Tokens)
  | 0, _ => none
  | n + 1, ts => do
    let (c, ts) ← item? n ts
    links? n c ts

/-- What follows a command that others wait for. -/
def links? : Nat → Command → Tokens → Option (Command × Tokens)
  | 0, _, _ => none
  | n + 1, c, ts =>
    match ts with
    | (_, .operator "&&") :: ts => do
      let (d, ts) ← item? n (skipBreaks ts)
      links? n (.ifSucceeds c d) ts
    | (_, .operator "||") :: ts => do
      let (d, ts) ← item? n (skipBreaks ts)
      links? n (.ifFails c d) ts
    | _ => some (c, ts)

def item? : Nat → Tokens → Option (Command × Tokens)
  | 0, _ => none
  | n + 1, ts =>
    match ts with
    | (_, .operator "(") :: ts => do
      let (c, ts) ← list? n ts
      match ts with
      | (_, .operator ")") :: ts =>
        let (rs, ts) := redirections ts.length ts
        return (.apart c rs, ts)
      | _ => none
    | _ =>
      match keyword? ts with
      | some "!" => do
        let (c, ts) ← item? n (ts.drop 1)
        return (.negated c, ts)
      | some "\x7b" => do
        let (c, ts) ← list? n (ts.drop 1)
        return redirected c (← expect? "\x7d" ts)
      | some "if" => do
        let (c, ts) ← condition? n (ts.drop 1)
        return redirected c ts
      | some "while" => do
        let (c, ts) ← loop? n true (ts.drop 1)
        return redirected c ts
      | some "until" => do
        let (c, ts) ← loop? n false (ts.drop 1)
        return redirected c ts
      | some "for" => do
        let (c, ts) ← each? n (ts.drop 1)
        return redirected c ts
      | some "case" =>
        match ts.drop 1 with
        | (_, .word subject) :: ts => do
          let (c, ts) ← clauses? n subject (← expect? "in" (skipBreaks ts))
          return redirected c ts
        | _ => none
      | some s => if closers.contains s then none else simple? ts
      | none => simple? ts

/-- What follows `if`. -/
def condition? : Nat → Tokens → Option (Command × Tokens)
  | 0, _ => none
  | n + 1, ts => do
    let (test, ts) ← list? n ts
    let (success, ts) ← list? n (← expect? "then" ts)
    match keyword? ts with
    | some "elif" =>
      let (failure, ts) ← condition? n (ts.drop 1)
      return (.choice test success failure, ts)
    | some "else" =>
      let (failure, ts) ← list? n (ts.drop 1)
      return (.choice test success failure, ← expect? "fi" ts)
    | _ => return (.choice test success .nothing, ← expect? "fi" ts)

/-- What follows `while` or `until`. -/
def loop? : Nat → Bool → Tokens → Option (Command × Tokens)
  | 0, _, _ => none
  | n + 1, whileSucceeds, ts => do
    let (test, ts) ← list? n ts
    let (body, ts) ← list? n (← expect? "do" ts)
    return (.repeated whileSucceeds test body, ← expect? "done" ts)

/-- What follows `for`. -/
def each? : Nat → Tokens → Option (Command × Tokens)
  | 0, _ => none
  | n + 1, ts => do
    let name ← keyword? ts
    let ts := skipBreaks (ts.drop 1)
    let (words, ts) :=
      match expect? "in" ts with
      | some ts => ((some (wordsOf ts).1, (wordsOf ts).2) : Option (List Word) × Tokens)
      | none => (none, ts)
    let (body, ts) ← list? n (← expect? "do" (skipDividers ts))
    return (.each name words body, ← expect? "done" ts)

/-- What follows `in`: patterns, each with what is run for them. -/
def clauses? : Nat → Word → Tokens → Option (Command × Tokens)
  | 0, _, _ => none
  | n + 1, subject, ts => do
    let ts := skipBreaks ts
    match expect? "esac" ts with
    | some ts => return (.nothing, ts)
    | none =>
      let (ws, ts) ← patterns? (match ts with
        | (_, .operator "(") :: ts => ts
        | _ => ts)
      let (body, ts) ← list? n ts
      match ts with
      | (_, .operator ";;") :: ts =>
        let (otherwise, ts) ← clauses? n subject ts
        return (.select subject ws body otherwise, ts)
      | _ => return (.select subject ws body .nothing, ← expect? "esac" ts)

end

/-- The command that a script is; it begins on the given line. -/
def parse? (line : Nat) (script : String) : Option Command := do
  let ts ← tokens? line script
  let (c, rest) ← list? (8 * ts.length + 8) ts
  if rest.isEmpty then return c else none

end Shell
end LtiUnit
