import LtiUnit.Shell.Expansion
import LtiUnit.Shell.Parser
import LtiUnit.Shell.State
import LtiUnit.Shell.Utility
import LtiUnit.Text.Utf8

/-!
# LtiUnit.Shell.Run

How scripts run. A script is started with arguments in a directory, changes files, writes to two
outputs, and ends with a status or by a signal. One that does not end is killed, so running is
bounded by a number of steps.
-/

namespace LtiUnit
namespace Shell

/-- The program that runs scripts. -/
def shellName : String := "sh"

/-- How a command outside of the script is started. -/
abbrev Outside := List String → Action FileError Outcome

/-- What a script that begins on a line writes. -/
abbrev Substitute := Nat → String → Course String

namespace Course

/-- Find out what a piece of a word is. -/
def settle (substitute : Substitute) : Piece → Course Part
  | .text t quoted => return .written t quoted
  | .variable "@" .asIs true => return .each (← get).arguments
  | .variable name change quoted => return .found (change.apply ((← get).value? name)) quoted
  | .output line script quoted => return .found (← substitute line script) quoted

def expand (substitute : Substitute) (w : Word) : Course (List String) := do
  let parts ← w.mapM (settle substitute)
  let s ← get
  return (wordsOfParts parts).flatMap (·.paths s.files)

def textOf (substitute : Substitute) (w : Word) : Course String :=
  return Part.textOf (← w.mapM (settle substitute))

/-- Carry out redirections. What comes back is whether all could be. -/
def redirect (substitute : Substitute) (line : Nat) : List Redirection → Course Bool
  | [] => return true
  | r :: more => do
    let connect : State → Except String State ←
      match r.target with
      | .copy w => do
        let other ← textOf substitute w
        pure fun s => s.connectCopy r.output other
      | .file w append => do
        let path ← textOf substitute w
        pure fun s => s.connectFile r.output path append
    match connect (← get) with
    | .ok s =>
      set s
      redirect substitute line more
    | .error text =>
      complain line text 2
      return false

def startOutside (outside : Outside) (argv : List String) : Course (Except FileError Outcome) :=
  fun s =>
    let (r, files) := outside argv s.files
    (.ok r, { s with files := files })

/-- Complain that a command could not be started, with the status for that. -/
def notStarted (line : Nat) (name : String) : FileError → Course Unit
  | .notFound => complain line (name ++ ": not found") 127
  | e => complain line (name ++ ": " ++ e.reason) 126

/-- Go on as another program. -/
def become (outside : Outside) (line : Nat) (argv : List String) : Course Unit := do
  match ← startOutside outside argv with
  | .ok o =>
    modify (·.take o)
    match o.status with
    | .signal n => throw (.killed n)
    | .code _ => throw .exited
  | .error e =>
    notStarted line ("exec: " ++ argv.headD "") e
    throw .exited

def signal? (t : String) : Option Nat :=
  match t.toNat? with
  | some n => some n
  | none =>
    (ExitStatus.signalNames.findIdx? fun name => name == t || name == "SIG" ++ t).map (· + 1)

/-- Send a signal; a script can reach itself only. -/
def kill (line : Nat) (signal : String) (target : String) : Course Unit :=
  if target == State.processId then throw (.killed ((signal? signal).getD 15))
  else complain line "kill: No such process" 1

/-- End, with a status if one is given. -/
def exit (line : Nat) : List String → Course Unit
  | [] => throw .exited
  | t :: _ =>
    match t.toNat? with
    | some n => do
      status (n % 256)
      throw .exited
    | none => giveUp line ("exit: Illegal number: " ++ t) 2

def shift (line : Nat) (args : List String) : Course Unit := do
  match (args.headD "1").toNat? with
  | some n =>
    if n ≤ (← get).arguments.length then
      modify fun s => { s with arguments := s.arguments.drop n, status := 0 }
    else giveUp line "shift: can't shift that many" 2
  | none => giveUp line ("shift: Illegal number: " ++ args.headD "") 2

/-- Set what the script is like, and its arguments. -/
def setUp : List String → Course Unit
  | [] => status 0
  | "--" :: args => modify fun s => { s with arguments := args, status := 0 }
  | option :: more => do
    if option.contains 'e' then modify fun s => { s with strict := option.startsWith "-" }
    setUp more

def setVariables (args : List String) : Course Unit := do
  args.forM fun t =>
    match Text.pieces '=' t with
    | name :: first :: more => modify fun s => s.bind name (Text.separated "=" (first :: more))
    | _ => pure ()
  status 0

def enter (line : Nat) (t : String) : Course Unit := do
  match (← get).files.directory? (.ofText t) with
  | .ok d => modify fun s => { s with files := s.files.seenFrom d, status := 0 }
  | .error _ => complain line ("cd: can't cd to " ++ t) 2

/-- Test a condition. -/
def test (line : Nat) (name : String) (holds : Files → Except String Bool) : Course Unit := do
  match holds (← get).files with
  | .ok true => status 0
  | .ok false => status 1
  | .error e => complain line (name ++ ": " ++ e) 2

def forget (names : List String) : Course Unit :=
  modify fun s =>
    { s with bindings := s.bindings.filter fun b => !names.contains b.1, status := 0 }

/-- The commands whose failure to be redirected ends the script. -/
def special : List String :=
  [":", "break", "continue", "exec", "exit", "export", "return", "set", "shift", "trap", "unset"]

def own? (outside : Outside) (line : Nat) (name : String) (args : List String) :
    Option (Course Unit) :=
  match name, args with
  | ":", _ | "trap", _ | "wait", _ | "exec", [] => some (status 0)
  | "exec", argv => some (become outside line argv)
  | "exit", _ | "return", _ => some (exit line args)
  | "break", _ => some (throw .left)
  | "continue", _ => some (throw .skipped)
  | "shift", _ => some (shift line args)
  | "set", _ => some (setUp args)
  | "export", _ => some (setVariables args)
  | "unset", _ => some (forget args)
  | "test", _ => some (test line name (Condition.holds · args))
  | "[", _ => some (test line name (Condition.bracketed · args))
  | "cd", t :: _ => some (enter line t)
  | "kill", [t] => some (kill line "TERM" t)
  | "kill", ["-s", signal, t] => some (kill line signal t)
  | "kill", signal :: t :: _ => some (kill line (String.ofList (signal.toList.drop 1)) t)
  | _, _ => none

/-- Run a command that is made of words. -/
def call (outside : Outside) (line : Nat) (name : String) (args : List String) : Course Unit := do
  match own? outside line name args with
  | some act => act
  | none =>
    match utility? name with
    | some program =>
      modify fun s =>
        let (o, files) := program args s.files
        { s with files := files }.take o
    | none =>
      match ← startOutside outside (name :: args) with
      | .ok o => modify (·.take o)
      | .error .noProgram =>
        -- a text that does not say how it is run is a script
        match ← startOutside outside (shellName :: name :: args) with
        | .ok o => modify (·.take o)
        | .error e => notStarted line name e
      | .error e => notStarted line name e

/-- Whether words ask for the output of scripts. -/
def asksOutput (ws : List Word) : Bool :=
  ws.any fun w => w.any fun p => p matches .output ..

/-- Set variables. The status is that of the last script whose output is asked for. -/
def assign (substitute : Substitute) (settings : List (String × Word)) : Course Unit := do
  settings.forM fun (name, w) => do
    let t ← textOf substitute w
    modify (·.bind name t)
  if !asksOutput (settings.map Prod.snd) then status 0

def simple (outside : Outside) (substitute : Substitute) (line : Nat)
    (settings : List (String × Word)) (words : List Word) (redirections : List Redirection) :
    Course Unit := do
  let argv := (← words.mapM (expand substitute)).flatten
  let act : Course Unit := do
    if ← redirect substitute line redirections then
      match argv with
      | [] => assign substitute settings
      | name :: args => call outside line name args
    else if argv.head?.any special.contains then throw .exited
  if argv = ["exec"] then act else keepSinks act

def withRedirections (substitute : Substitute) (redirections : List Redirection) (body : Course Unit) :
    Course Unit :=
  keepSinks do
    if ← redirect substitute 1 redirections then body

/-- End if the last command has failed and nothing waits for its outcome. -/
def endIfFailed (awaited : Bool) : Course Unit := do
  let s ← get
  if s.strict && !awaited && s.status != 0 then throw .exited

end Course

open Course

/-- Run a command, at most `n` steps deep. Its outcome may be awaited. -/
def run (outside : Outside) : Nat → Bool → Command → Course Unit
  | 0, _, _ => throw (.killed 9)
  | n + 1, awaited, c =>
    let substitute : Substitute := fun line script => do
      let bytes ← caught (match parse? line script with
        | some body => run outside n false body
        | none => giveUp line "Syntax error" 2)
      return String.ofList
        ((Text.ofBytes bytes).toList.reverse.dropWhile (· == '\n')).reverse
    match c with
    | .nothing => pure ()
    | .simple line settings words redirections => do
      simple outside substitute line settings words redirections
      endIfFailed awaited
    | .apart body redirections => do
      apart (withRedirections substitute redirections (run outside n awaited body))
      endIfFailed awaited
    | .group body redirections => withRedirections substitute redirections (run outside n awaited body)
    | .both first second => do
      run outside n awaited first
      run outside n awaited second
    | .ifSucceeds first second => do
      run outside n true first
      if (← get).status = 0 then run outside n awaited second
    | .ifFails first second => do
      run outside n true first
      if (← get).status ≠ 0 then run outside n awaited second
    | .negated body => do
      run outside n true body
      status (if (← get).status = 0 then 1 else 0)
    | .choice test success failure => do
      run outside n true test
      if (← get).status = 0 then run outside n awaited success
      else
        status 0
        run outside n awaited failure
    | .select subject patterns body otherwise => do
      let t ← textOf substitute subject
      let ps ← patterns.mapM fun w => do
        return Part.patternOf (← w.mapM (settle substitute))
      status 0
      run outside n awaited (if ps.any (·.covers t.toList) then body else otherwise)
    | .repeated whileSucceeds test body => do
      run outside n true test
      if ((← get).status = 0) = whileSucceeds then
        if ← round (run outside n awaited body) then
          run outside n awaited (.repeated whileSucceeds test body)
      else status 0
    | .each name words body => do
      let values ←
        match words with
        | some ws => pure (← ws.mapM (expand substitute)).flatten
        | none => pure (← get).arguments
      status 0
      let _ ← values.foldlM (fun goesOn value => do
        if goesOn then
          modify (·.bind name value)
          round (run outside n awaited body)
        else return false) true

def patience : Nat := 10000

/-- Run the text of a script. The directory that it is started in is the one that files are seen
from. -/
def runScript (outside : Outside) (name text : String) (args : List String) :
    Action FileError Outcome := fun f =>
  match parse? 1 text with
  | none => (.ok (ends 2 "" (name ++ ": 1: Syntax error\n")), f)
  | some c =>
    let (r, s) := run outside patience false c (.start f name args)
    let status :=
      match r with
      | .error (.killed n) => .signal n
      | _ => .code s.status
    (.ok ⟨status, s.out, s.err⟩, s.files.seenFrom f.here)

end Shell
end LtiUnit
