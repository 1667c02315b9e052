import LtiUnit.Files.Fault
import LtiUnit.Package.Error
import LtiUnit.Source.Unit

/-!
# LtiUnit.Package.Skeleton

The runtime skeleton: the part of a unit that is the same for all models. It is a directory with
headers and an implementation, all of whose files are put beside the generated translation unit.
-/

namespace LtiUnit
namespace Package

/-- A directory that holds a skeleton, and the names of its files in the order of their bytes. -/
structure Skeleton where
  directory : Path
  names : List String
  deriving DecidableEq, Repr

namespace Skeleton

/-- The files that have to be there. -/
def required : List String :=
  [Source.skeletonHeader, Source.skeletonImplementation, "fmi2Functions.h",
   "fmi2FunctionTypes.h", "fmi2TypesPlatform.h"]

def files (s : Skeleton) : List Path := s.names.map s.directory.child

/-- Names in the order of their bytes, which is that of their characters. -/
def sorted (names : List String) : List String := names.mergeSort fun a b => decide (a ≤ b)

/-- The skeleton in a directory. Every file in it belongs to the skeleton, other directories do
not. -/
def open? (f : Files) (directory : Path) : Except PackageError Skeleton :=
  match f.list? directory with
  | .error e => .error (.skeleton directory (.unreadable e))
  | .ok names =>
    let names := sorted (names.filter fun name => f.isFile (directory.child name))
    match required.filter fun name => !names.contains name with
    | [] => .ok ⟨directory, names⟩
    | missing => .error (.skeleton directory (.missing missing))

def openUnder (faults : Faults) (directory : Path) : Action PackageError Skeleton :=
  Action.read faults directory (fun e => .skeleton directory (.unreadable e)) (open? · directory)

/-- Copy the files of a skeleton into a directory, which is created. -/
def installUnder (faults : Faults) (s : Skeleton) (target : Path) : Action PackageError Unit := do
  Action.wrap (.files .creating target) (Action.perform faults (.createDirectories target))
  s.names.forM fun name =>
    let file := s.directory.child name
    Action.wrap (.files .copying file) (Action.perform faults (.copy file (target.child name)))

def install (s : Skeleton) (target : Path) : Action PackageError Unit :=
  s.installUnder .never target

end Skeleton
end Package
end LtiUnit
