import LtiUnit.Files.Walk

/-!
# LtiUnit.Files.Action

Changes to files. An elementary change happens as a whole or not at all. A course of actions is made
of them and may fail half-way; what it has done by then stays done.
-/

namespace LtiUnit
namespace Files

/-- Empty the file that a path names, or create it. -/
def create (f : Files) (p : Path) (executable : Bool) :
    Except FileError (Location × Files) := do
  match ← f.follow p with
  | .passed _ | .within _ _ true _ => throw .isADirectory
  | .within name d false proper =>
    if within : f.get? d = some .directory then
      if free : f.get? (name :: d) ≠ some .directory then
        return (name :: d, f.setFile name d (.data .empty) executable proper within free)
      else throw .isADirectory
    else throw .notADirectory

def executable? (f : Files) (p : Path) : Option Bool :=
  match f.find? p with
  | .ok (_, .file _ executable) => some executable
  | _ => none

/-- Replace what a file holds. -/
def fill (f : Files) (l : Location) (content : Content) (executable : Bool) : Files :=
  match l with
  | [] => f
  | name :: d =>
    if proper : Path.isFileName name = true then
      if within : f.get? d = some .directory then
        if free : f.get? (name :: d) ≠ some .directory then
          f.setFile name d content executable proper within free
        else f
      else f
    else f

def writeAs (f : Files) (p : Path) (content : Content) (executable : Bool) :
    Except FileError Files := do
  let (l, f) ← f.create p executable
  return f.fill l content executable

/-- Write a file. One that is there keeps its mode, and a new one cannot be executed. -/
def write (f : Files) (p : Path) (content : Content) : Except FileError Files :=
  f.writeAs p content ((f.executable? p).getD false)

/-- Copy a file, its mode included. The target is emptied before the source is read, so a file that
is copied onto itself is empty afterwards. -/
def copy (f : Files) (source target : Path) : Except FileError Files := do
  match ← f.find? source with
  | (_, .directory) => throw .notAFile
  | (l, .file _ executable) =>
    let (l', f) ← f.create target executable
    match f.get? l with
    | some (.file content _) => return f.fill l' content executable
    | _ => return f

def createDirectory (f : Files) (p : Path) : Except FileError Files := do
  match ← f.follow p with
  | .passed _ => throw .exists
  | .within name d _ proper =>
    if new : f.get? (name :: d) = none then
      if within : f.get? d = some .directory then
        return f.addDirectory name d proper within new
      else throw .notADirectory
    else throw .exists

def ensureDirectory (f : Files) (p : Path) : Except FileError Files :=
  match f.createDirectory p with
  | .ok f => .ok f
  | .error e => if f.isDirectory p then .ok f else .error e

def move (f : Files) (source target : Path) : Except FileError Files := do
  match ← f.follow source, ← f.follow target with
  | .passed _, _ | _, .passed _ => throw .busy
  | .within name d slashed _, .within name' d' slashed' _ =>
    match f.get? (name :: d) with
    | none => throw .notFound
    | some .directory => throw .isADirectory
    | some (.file content executable) =>
      if slashed || slashed' then throw .notADirectory
      else if f.get? (name' :: d') = some .directory then throw .isADirectory
      else if name' :: d' = name :: d then return f
      else return (f.removeBelow (name :: d)).fill (name' :: d') content executable

def removeFile (f : Files) (p : Path) : Except FileError Files := do
  match ← f.find? p with
  | (_, .directory) => throw .isADirectory
  | (l, .file ..) => return f.removeBelow l

def removeDirectory (f : Files) (p : Path) : Except FileError Files := do
  match ← f.follow p with
  | .passed _ => throw .busy
  | .within name d _ _ =>
    match f.get? (name :: d) with
    | none => throw .notFound
    | some (.file ..) => throw .notADirectory
    | some .directory => return f.removeBelow (name :: d)

end Files

/-- A course of actions on files. -/
abbrev Action (ε : Type) := ExceptT ε (StateM Files)

namespace Action

variable {ε α : Type}

/-- Look at the files as they are. -/
def look (g : Files → Except ε α) : Action ε α := fun f => (g f, f)

/-- An elementary change. -/
def change (g : Files → Except ε Files) : Action ε Unit := fun f =>
  match g f with
  | .ok f' => (.ok (), f')
  | .error e => (.error e, f)

/-- A course of actions that reports its errors in other words. -/
def wrap {δ : Type} (g : δ → ε) (act : Action δ α) : Action ε α := fun f =>
  match act f with
  | (.ok x, f) => (.ok x, f)
  | (.error e, f) => (.error (g e), f)

/-- A course of actions that is followed by another one, whether it succeeds or fails. What the
other one comes to does not count. -/
def andFinally {δ : Type} (act : Action ε α) (last : Action δ Unit) : Action ε α := fun f =>
  let (r, f) := act f
  (r, (last f).2)

/-- Create the first of some directories whose parent is there, then those in front of it. Each path
is followed by its parents. -/
def createAll : List Path → Action FileError Unit
  | [] => throw .notFound
  | p :: parents => fun f =>
    if p.isEmpty then (.ok (), f)
    else
      match f.ensureDirectory p with
      | .ok f => (.ok (), f)
      | .error .notFound =>
        match createAll parents f with
        | (.ok (), f) => change (·.ensureDirectory p) f
        | (.error e, f) => (.error e, f)
      | .error e => (.error e, f)

def createDirectories (p : Path) : Action FileError Unit := createAll p.ancestors

end Action
end LtiUnit
