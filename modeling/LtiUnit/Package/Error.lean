import LtiUnit.Files.Error
import LtiUnit.Files.Path
import LtiUnit.Toolchain.Platform
import LtiUnit.Render
import LtiUnit.Text

/-!
# LtiUnit.Package.Error

Why a unit is not built.
-/

namespace LtiUnit
namespace Package

/-- Why an archive cannot be put at a path. -/
inductive DestinationFault where
  | ending
  | noStem
  /-- The stem is no C identifier. -/
  | stem
  | noParent
  | isDirectory
  /-- Nothing can be created in the directory. -/
  | notWritable
  deriving DecidableEq, Repr

def DestinationFault.message : DestinationFault → String
  | .ending => "file name must end with .fmu"
  | .noStem => "file name has no stem"
  | .stem =>
    "file stem must be a C identifier (letters, digits and '_', not starting with a digit)"
  | .noParent => "parent directory does not exist"
  | .isDirectory => "a directory already exists at this path"
  | .notWritable => "directory is not writable"

/-- Why a directory holds no runtime skeleton. -/
inductive SkeletonFault where
  | unreadable (cause : FileError)
  | missing (names : List String)
  deriving DecidableEq, Repr

def SkeletonFault.message : SkeletonFault → String
  | .unreadable cause => "cannot read directory: " ++ cause.message
  | .missing names => "missing " ++ Text.separated ", " names

/-- What is being done to a path when it fails. -/
inductive FileTask where
  | creating
  | creatingScratch
  | writing
  | copying
  | reading
  | archiving
  | moving
  | movingArchive
  | removing
  deriving DecidableEq, Repr

def FileTask.text : FileTask → String
  | .creating => "creating"
  | .creatingScratch => "creating scratch directory"
  | .writing => "writing"
  | .copying => "copying"
  | .reading => "reading"
  | .archiving => "archiving"
  | .moving => "moving"
  | .movingArchive => "moving archive to"
  | .removing => "removing"

end Package

open Package

inductive PackageError where
  | render (cause : RenderError)
  | platform (cause : PlatformError)
  | destination (path : Path) (fault : DestinationFault)
  | skeleton (directory : Path) (fault : SkeletonFault)
  /-- Another build is at work, or has left its scratch directory behind. -/
  | scratchExists (path : Path)
  | noCompiler (program : String)
  | compilerNotStarted (program : String) (cause : FileError)
  | compileFailure (program status diagnostics : String)
  /-- The compiler reports success and the library is not there. -/
  | noLibrary (path : Path)
  | files (task : FileTask) (path : Path) (cause : FileError)
  deriving Repr

def PackageError.unsupported (what : String) : String :=
  "unsupported platform or toolchain: " ++ what

def PackageError.message : PackageError → String
  | .render cause => cause.message
  | .platform cause => unsupported cause.message
  | .destination path fault => "invalid destination " ++ path.text ++ ": " ++ fault.message
  | .skeleton directory fault =>
    "runtime skeleton at " ++ directory.text ++ ": " ++ fault.message
  | .scratchExists path =>
    "scratch directory " ++ path.text ++
      " already exists; remove it or wait for the other build"
  | .noCompiler program => unsupported ("compiler `" ++ program ++ "` not found on PATH")
  | .compilerNotStarted program cause =>
    "failed to invoke `" ++ program ++ "`: " ++ cause.message
  | .compileFailure program status diagnostics =>
    "compiler `" ++ program ++ "` failed (" ++ status ++ "):\n" ++ diagnostics
  | .noLibrary path =>
    "compiler reported success but produced no library at " ++ path.text
  | .files task path cause => task.text ++ " " ++ path.text ++ ": " ++ cause.message

end LtiUnit
