import LtiUnit.Files.Fault
import LtiUnit.Package.Error

/-!
# LtiUnit.Package.Scratch

The directory that a build works in. It stands beside the archive and is named after the unit, so
that two builds of one unit in one place do not share it: creating it is one elementary change, and
the second build finds it there.
-/

namespace LtiUnit
namespace Package

structure Scratch where
  path : Path
  deriving DecidableEq, Repr

namespace Scratch

def pathFor (directory : Path) (name : String) : Path :=
  directory.child ("." ++ name ++ ".fmu-build")

/-- Create a scratch directory, which may not be there. -/
def createUnder (faults : Faults) (directory : Path) (name : String) :
    Action PackageError Scratch := do
  let path := pathFor directory name
  Action.wrap
    (fun e => if e = .exists then .scratchExists path else .files .creatingScratch path e)
    (Action.perform faults (.createDirectory path))
  return ⟨path⟩

def create (directory : Path) (name : String) : Action PackageError Scratch :=
  createUnder .never directory name

def remove (s : Scratch) : Action FileError Unit := Action.change (·.removeDirectory s.path)

/-- Work in a scratch directory that is created before and removed afterwards, whatever the work
comes to. -/
def use {α : Type} (created : Action PackageError Scratch)
    (work : Scratch → Action PackageError α) : Action PackageError α := do
  let s ← created
  (work s).andFinally s.remove

end Scratch
end Package
end LtiUnit
