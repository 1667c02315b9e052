import LtiUnit.Files.Walk
import LtiUnit.Identity.Name
import LtiUnit.Package.Error

/-!
# LtiUnit.Package.Destination

Where an archive is put. The stem of its file name becomes the name of the unit, and the directory
has to be there before anything is built.
-/

namespace LtiUnit
namespace Package

structure Destination where
  directory : Path
  name : String
  isName : LtiUnit.isName name = true
  deriving Repr

namespace Destination

def ending : String := "fmu"

/-- The directory that a path counts from, which is the working directory if none is written. -/
def directoryOf (p : Path) : Path :=
  match p.parent? with
  | some d => if d.isEmpty then Path.ofText "." else d
  | none => Path.ofText "."

def check (f : Files) (p : Path) : Except PackageError Destination :=
  let fault (x : DestinationFault) := Except.error (.destination p x)
  if p.extension? != some ending then fault .ending
  else
    match p.stem? with
    | none => fault .noStem
    | some name =>
      if isName : LtiUnit.isName name = true then
        let directory := directoryOf p
        if !f.isDirectory directory then fault .noParent
        else if f.isDirectory p then fault .isDirectory
        else .ok ⟨directory, name, isName⟩
      else fault .stem

end Destination
end Package
end LtiUnit
