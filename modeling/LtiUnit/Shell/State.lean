import LtiUnit.Files.Action
import LtiUnit.Machine.Outcome

/-!
# LtiUnit.Shell.State

A script at work: the files it sees, its variables, and what its outputs are connected to.
-/

namespace LtiUnit
namespace Shell

/-- What an output is connected to. -/
inductive Sink where
  | out
  | err
  | nowhere
  | file (l : Location)
  deriving DecidableEq, Repr

structure State where
  files : Files
  name : String
  arguments : List String
  bindings : List (String × String)
  status : Nat
  /-- Whether the script ends when a command fails that nothing waits for. -/
  strict : Bool
  sinks : List (Nat × Sink)
  out : ByteArray
  err : ByteArray

namespace State

def start (files : Files) (name : String) (arguments : List String) : State :=
  ⟨files, name, arguments, [], 0, false, [(1, .out), (2, .err)], .empty, .empty⟩

/-- The number that a script knows itself by. -/
def processId : String := "1"

def value? (s : State) (name : String) : Option String :=
  match name with
  | "0" => some s.name
  | "#" => some (toString s.arguments.length)
  | "?" => some (toString s.status)
  | "$" => some processId
  | "*" | "@" => if s.arguments.isEmpty then none else some (" ".intercalate s.arguments)
  | _ =>
    match name.toNat? with
    | some n => s.arguments[n - 1]?
    | none =>
      match s.bindings.lookup name with
      | some t => some t
      | none => if name == "PWD" then some s.files.here.path.text else none

def bind (s : State) (name value : String) : State :=
  { s with bindings := (name, value) :: s.bindings }

def emit (s : State) (output : Nat) (bytes : ByteArray) : State :=
  match s.sinks.lookup output with
  | some .out => { s with out := s.out ++ bytes }
  | some .err => { s with err := s.err ++ bytes }
  | some (.file l) =>
    match s.files.get? l with
    | some (.file (.data old) executable) =>
      { s with files := s.files.fill l (.data (old ++ bytes)) executable }
    | _ => s
  | _ => s

/-- Complain about something on a line, with a status. -/
def complain (s : State) (line : Nat) (text : String) (status : Nat) : State :=
  let text := s.name ++ ": " ++ toString line ++ ": " ++ text ++ "\n"
  { s.emit 2 text.toUTF8 with status := status }

def connect (s : State) (output : Nat) (sink : Sink) : State :=
  { s with sinks := (output, sink) :: s.sinks }

/-- The reason why an output cannot be opened. -/
def openingReason : FileError → String
  | .notFound | .notADirectory => "Directory nonexistent"
  | e => e.reason

/-- The path of what swallows outputs. -/
def nowherePath : String := "/dev/null"

/-- Connect an output with a file, which is emptied unless what is written is added to it. -/
def connectFile (s : State) (output : Nat) (path : String) (append : Bool) :
    Except String State :=
  if path == nowherePath then .ok (s.connect output .nowhere)
  else
    match append, s.files.find? (.ofText path) with
    | true, .ok (l, .file ..) => .ok (s.connect output (.file l))
    | _, found =>
      let executable :=
        match found with
        | .ok (_, .file _ executable) => executable
        | _ => false
      match s.files.create (.ofText path) executable with
      | .ok (l, files) => .ok ({ s with files := files }.connect output (.file l))
      | .error e => .error ("cannot create " ++ path ++ ": " ++ openingReason e)

/-- Connect an output with what another one is connected to. -/
def connectCopy (s : State) (output : Nat) (other : String) : Except String State :=
  match other.toNat?.bind fun n => s.sinks.lookup n with
  | some sink => .ok (s.connect output sink)
  | none => .error (other ++ ": Bad file descriptor")

/-- What an outcome does to a script. -/
def take (s : State) (o : Outcome) : State :=
  let status :=
    match o.status with
    | .code n => n
    | .signal n => 128 + n
  { (s.emit 1 o.out).emit 2 o.err with status := status }

end State

/-- Why a script does not go on. -/
inductive Halt where
  | exited
  | killed (signal : Nat)
  /-- The loop that is run is left. -/
  | left
  /-- The loop that is run goes on with its next round. -/
  | skipped
  deriving DecidableEq, Repr

/-- What a script does, unless it does not go on. -/
abbrev Course := ExceptT Halt (StateM State)

namespace Course

def status (n : Nat) : Course Unit := modify fun s => { s with status := n }

def complain (line : Nat) (text : String) (status : Nat) : Course Unit :=
  modify fun s => s.complain line text status

/-- Complain, and go no further. -/
def giveUp (line : Nat) (text : String) (status : Nat) : Course Unit := do
  complain line text status
  throw .exited

/-- Do something whose changes of variables, arguments, directory and outputs do not last, and which
may end on its own. -/
def apart (body : Course Unit) : Course Unit := fun s =>
  let (r, t) := body s
  let back :=
    { s with
      files := t.files.seenFrom s.files.here, out := t.out, err := t.err, status := t.status }
  match r with
  | .error (.killed n) => (.error (.killed n), back)
  | _ => (.ok (), back)

/-- Do something and catch what it writes. -/
def caught (body : Course Unit) : Course ByteArray := fun s =>
  match apart body { s with out := .empty, sinks := (1, .out) :: s.sinks } with
  | (.ok (), t) => (.ok t.out, { t with out := s.out, sinks := s.sinks })
  | (.error e, t) => (.error e, { t with out := s.out, sinks := s.sinks })

/-- Do something, and connect the outputs as before. -/
def keepSinks (body : Course Unit) : Course Unit := fun s =>
  let (r, t) := body s
  (r, { t with sinks := s.sinks })

/-- One round of a loop. What comes back is whether the loop goes on. -/
def round (body : Course Unit) : Course Bool := fun s =>
  match body s with
  | (.error .left, t) => (.ok false, t)
  | (.error .skipped, t) | (.ok (), t) => (.ok true, t)
  | (.error e, t) => (.error e, t)

end Course
end Shell
end LtiUnit
