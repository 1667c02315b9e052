import LtiUnit.Files.Action

/-!
# LtiUnit.Files.Fault

What can go wrong with files on a system. A change that could be made may be refused, for want of
permission or of space or because a device fails, and a change that is not elementary may have been
made in part by then (`Change.MayLeave`). What is there may be withheld from being read.

A course of actions that has to live with faults asks for its changes by their names
(`Action.perform`).
-/

namespace LtiUnit

/-- A change to files that a course of actions asks for. -/
inductive Change where
  | createDirectory (p : Path)
  | createDirectories (p : Path)
  | write (p : Path) (content : Content)
  | copy (source target : Path)
  | move (source target : Path)
  | removeDirectory (p : Path)

namespace Change

/-- Make a change. -/
def make : Change → Action FileError Unit
  | createDirectory p => Action.change (·.createDirectory p)
  | createDirectories p => Action.createDirectories p
  | write p content => Action.change (·.write p content)
  | copy source target => Action.change (·.copy source target)
  | move source target => Action.change (·.move source target)
  | removeDirectory p => Action.change (·.removeDirectory p)

/-- What may have become of the files when a change fails. -/
inductive MayLeave : Change → Files → Files → Prop where
  | unchanged (c : Change) (f : Files) : MayLeave c f f
  /-- Some directories on the way are there. -/
  | created {p q : Path} {f g h : Files} : q ∈ p.ancestors → f.createDirectory q = .ok g →
    MayLeave (createDirectories p) g h → MayLeave (createDirectories p) f h
  /-- The file is there, and holds less than it is to hold, or anything else. -/
  | written {p : Path} {content content' : Content} {f g : Files} : f.write p content' = .ok g →
    MayLeave (write p content) f g
  | copied {source target : Path} {content : Content} {executable : Bool} {f g : Files} :
    f.writeAs target content executable = .ok g → MayLeave (copy source target) f g
  /-- Some of what is in the directory is gone. -/
  | removed {p : Path} {l d : Location} {f g : Files} : f.directory? p = .ok d →
    Files.isBelow l d = true → MayLeave (removeDirectory p) (f.removeBelow l) g →
    MayLeave (removeDirectory p) f g

end Change

/-- What goes wrong on a system. -/
structure Faults where
  /-- Why a directory or a file cannot be read. -/
  reading : Path → Files → Option FileError
  /-- Why a change fails, and what has become of the files then. -/
  changing : (c : Change) → (f : Files) → Option {x : FileError × Files // c.MayLeave f x.2}

/-- Nothing goes wrong. -/
def Faults.never : Faults where
  reading _ _ := none
  changing _ _ := none

namespace Action

variable {ε α : Type}

/-- Look at what a path leads to, if it can be read. -/
def read (faults : Faults) (p : Path) (w : FileError → ε) (q : Files → Except ε α) : Action ε α :=
  fun f =>
    match faults.reading p f with
    | some e => (.error (w e), f)
    | none => (q f, f)

/-- Make a change, if nothing goes wrong. -/
def perform (faults : Faults) (c : Change) : Action FileError Unit := fun f =>
  match faults.changing c f with
  | some ⟨(e, g), _⟩ => (.error e, g)
  | none => c.make f

@[simp] theorem read_never (p : Path) (w : FileError → ε) (q : Files → Except ε α) :
    read .never p w q = look q := rfl

@[simp] theorem perform_never (c : Change) : perform .never c = c.make := rfl

end Action
end LtiUnit
