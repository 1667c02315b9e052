import LtiUnit.Files.Error
import LtiUnit.Files.Tree

/-!
# LtiUnit.Files.Walk

What a path leads to. A walk goes through directories only; what the last part of the path names
need not be there.
-/

namespace LtiUnit
namespace Files

def longestName : Nat := 255

/-- The location of a name in a directory. Names may not be too long. -/
def named (name : String) (d : Location) : Except FileError Location :=
  if longestName < name.utf8ByteSize then .error .nameTooLong else .ok (name :: d)

/-- One step on the way. -/
def step (f : Files) (d : Location) (segment : String) : Except FileError Location :=
  if Path.isIdle segment then .ok d
  else if segment == ".." then .ok d.tail
  else do
    let l ← named segment d
    match f.get? l with
    | some .directory => return l
    | some (.file ..) => throw .notADirectory
    | none => throw .notFound

/-- The directory at the end of a way. -/
def walk (f : Files) (d : Location) (segments : List String) : Except FileError Location :=
  segments.foldlM f.step d

/-- Where a path starts. -/
def start (f : Files) (p : Path) : Except FileError Location :=
  if p.isAbsolute then .ok []
  else if f.get? f.here = some .directory then .ok f.here else .error .notFound

/-- What a path leads to. -/
inductive Spot where
  /-- A directory that the walk has come through: the path ends in a dot, leads upward, or is the
  root. -/
  | passed (d : Location)
  /-- A name in a directory; it is a directory's if slashes follow it. -/
  | within (name : String) (d : Location) (slashed : Bool) (proper : Path.isFileName name = true)

/-- Follow a path up to its last part. -/
def follow (f : Files) (p : Path) : Except FileError Spot :=
  if p.isEmpty then .error .notFound
  else if p.text.contains '\x00' then .error .zeroInPath
  else do
    let d ← f.start p
    match p.segments.reverse.dropWhile (· == "") with
    | [] => return .passed d
    | last :: before =>
      let d ← f.walk d before.reverse
      if proper : Path.isFileName last = true then
        let _ ← named last d
        return .within last d p.endsInSlash proper
      else if last == ".." then return .passed d.tail
      else return .passed d

/-- What stands at the end of a path, and where. -/
def find? (f : Files) (p : Path) : Except FileError (Location × Entry) := do
  match ← f.follow p with
  | .passed d => return (d, .directory)
  | .within name d slashed _ =>
    match f.get? (name :: d) with
    | none => throw .notFound
    | some .directory => return (name :: d, .directory)
    | some (.file content executable) =>
      if slashed then throw .notADirectory else return (name :: d, .file content executable)

def isFile (f : Files) (p : Path) : Bool :=
  match f.find? p with
  | .ok (_, .file ..) => true
  | _ => false

def isDirectory (f : Files) (p : Path) : Bool :=
  match f.find? p with
  | .ok (_, .directory) => true
  | _ => false

def directory? (f : Files) (p : Path) : Except FileError Location := do
  match ← f.find? p with
  | (d, .directory) => return d
  | (_, .file ..) => throw .notADirectory

def list? (f : Files) (p : Path) : Except FileError (List String) :=
  return f.names (← f.directory? p)

def content? (f : Files) (p : Path) : Except FileError Content := do
  match ← f.find? p with
  | (_, .file content _) => return content
  | (_, .directory) => throw .isADirectory

def text? (f : Files) (p : Path) : Except FileError String := do
  match (← f.content? p).text? with
  | some s => return s
  | none => throw .notText

end Files
end LtiUnit
