import LtiUnit.Toolchain
import LtiUnit.Shell.Run

/-!
# LtiUnit.Machine.Start

How a machine starts programs. A name with a slash is a path; a bare name is looked for in the
directories that the machine searches. Scripts name the program that runs them in their first line.
-/

namespace LtiUnit

/-- A machine is the list of the directories in which it looks for programs. -/
structure Machine where
  searched : List Path
  deriving DecidableEq, Repr

namespace Machine

def usual : Machine := ⟨[Path.ofText "/usr/local/bin", Path.ofText "/usr/bin", Path.ofText "/bin"]⟩

def executable (f : Files) (p : Path) : Except FileError Content := do
  match ← f.find? p with
  | (_, .file content true) => return content
  | _ => throw .permissionDenied

def goesOn : FileError → Bool
  | .notFound | .notADirectory | .permissionDenied => true
  | _ => false

/-- Look for a name in some directories. A file that cannot be executed is remembered in case that
there is no other. -/
def search (f : Files) (name : String) : FileError → List Path → Except FileError Path
  | e, [] => .error e
  | e, d :: more =>
    let p := d.child name
    match executable f p with
    | .ok _ => .ok p
    | .error e' =>
      if goesOn e' then search f name (if e' = .permissionDenied then e' else e) more
      else .error e'

/-- The path of the file that a program stands for. -/
def locate (m : Machine) (f : Files) (program : String) : Except FileError Path :=
  if program.contains '/' then
    (executable f (.ofText program)).map fun _ => Path.ofText program
  else if program.isEmpty then .error .notFound
  else search f program .notFound m.searched

/-- The program that runs a script, and an argument that it gets before all others. -/
def interpreter? (bytes : ByteArray) : Option (String × List String) :=
  let text := Text.ofBytes bytes
  match text.toList with
  | '#' :: '!' :: _ =>
    let line := String.ofList ((((text.toList.drop 2).takeWhile (· != '\n')).map fun c =>
      if c == '\t' then ' ' else c).dropWhile (· == ' '))
    match Text.pieces ' ' line with
    | program :: rest =>
      let argument := Text.trim (Text.separated " " rest)
      if program.isEmpty then none
      else some (program, if argument.isEmpty then [] else [argument])
    | [] => none
  | _ => none

def programs : List String := Shell.shellName :: Shell.utilities

/-- Run scripts: a text, or a file with the options in front of it passed over. -/
def runShell (outside : Shell.Outside) : List String → Action FileError Outcome
  | "-c" :: text :: more => Shell.runScript outside (more.headD Shell.shellName) text (more.drop 1)
  | args => fun f =>
    match args.dropWhile (·.startsWith "-") with
    | [] => (.ok (Shell.ends 0 "" ""), f)
    | path :: more =>
      match f.content? (.ofText path) with
      | .ok (.data bytes) => Shell.runScript outside path (Text.ofBytes bytes) more f
      | .ok _ => (.error .noProgram, f)
      | .error e =>
        (.ok (Shell.ends 2 "" (Shell.shellName ++ ": 0: cannot open " ++ path ++ ": " ++ e.reason ++ "\n")),
          f)

mutual

/-- Execute a file, at most `n` programs deep. -/
def execute (m : Machine) : Nat → Path → List String → Action FileError Outcome
  | 0, _, _ => throw .noProgram
  | n + 1, p, args => fun f =>
    match executable f p with
    | .error e => (.error e, f)
    | .ok (.program name) =>
      if name == Shell.shellName then runShell (call m n) args f
      else
        match Shell.utility? name with
        | some program =>
          let (o, f) := program args f
          (.ok o, f)
        | none => (.error .noProgram, f)
    | .ok (.archive _) => (.error .noProgram, f)
    | .ok (.data bytes) =>
      match interpreter? bytes with
      | some (program, argument) => execute m n (.ofText program) (argument ++ p.text :: args) f
      | none => (.error .noProgram, f)

def call (m : Machine) : Nat → List String → Action FileError Outcome
  | 0, _ | _, [] => throw .noProgram
  | n + 1, program :: args => fun f =>
    match m.locate f program with
    | .ok p => execute m n p args f
    | .error e => (.error e, f)

end

/-- How deep programs may start each other. -/
def depth : Nat := 16

/-- Start a program. It works in its own directory; the caller's stays. -/
def start (m : Machine) : Toolchain.Starter := fun i f =>
  let texts := i.program :: i.args ++ (i.directory.map Path.text).toList
  if texts.any (·.contains '\x00') then (.error .zeroInCommand, f)
  else
    match (match i.directory with
      | some d => f.directory? d
      | none => .ok f.here) with
    | .error e => (.error e, f)
    | .ok d =>
      let (r, g) := call m depth (i.program :: i.args) (f.seenFrom d)
      (r, g.seenFrom f.here)

/-- Put the programs of a machine where it looks for them. -/
def install (directory : Path) : Action FileError Unit := do
  Action.createDirectories directory
  programs.forM fun name =>
    Action.change (·.writeAs (directory.child name) (.program name) true)

end Machine
end LtiUnit
