import LtiUnit.Files.Archive
import LtiUnit.Package.Destination
import LtiUnit.Package.Report
import LtiUnit.Package.Scratch
import LtiUnit.Package.Skeleton
import LtiUnit.Toolchain

/-!
# LtiUnit.Package.Build

Building a unit. The destination and the skeleton are checked and the texts are rendered before
anything is written. All work is done in a scratch directory, and the archive is moved to its place
when it is complete, so a build that fails changes nothing, whatever has gone wrong (`buildUnder`).
-/

namespace LtiUnit
namespace Package

open Model (StateSpace)

/-- What to build, apart from the model. -/
structure Job where
  output : Path
  runtimeDirectory : Path
  stepSize : Float
  keepSources : Bool
  platform : Platform

/-- The texts of a unit, and the identity that both carry. -/
structure Rendered where
  identity : Identity
  source : String
  descriptor : String

def render (m : StateSpace Float) (name : String) (step : Float) (occasion : Occasion) :
    Except PackageError Rendered :=
  let rendered : Except RenderError Rendered := do
    let id ← Render.identify name occasion
    let source ← Render.source m m.layout id step
    let descriptor ← Render.descriptor m m.layout id
    return ⟨id, source, descriptor⟩
  rendered.mapError .render

def createDirectory (faults : Faults) (p : Path) : Action PackageError Unit :=
  Action.wrap (.files .creating p) (Action.perform faults (.createDirectories p))

def writeText (faults : Faults) (p : Path) (s : String) : Action PackageError Unit :=
  Action.wrap (.files .writing p) (Action.perform faults (.write p (.ofText s)))

def sourcesIn (tree : Path) : Path := tree.child "sources"

/-- Lay out the tree of a unit but for the library: the sources with the skeleton, and the
descriptor. -/
def layOut (faults : Faults) (tree : Path) (skeleton : Skeleton) (rendered : Rendered) :
    Action PackageError Unit := do
  let sources := sourcesIn tree
  createDirectory faults sources
  writeText faults (sources.child Source.fileName) rendered.source
  skeleton.installUnder faults (sources.child "include")
  writeText faults (tree.child Descriptor.fileName) rendered.descriptor

/-- Compile the sources in a tree, and put the library where a host looks for it. -/
def addLibrary (faults : Faults) (toolchain : Toolchain) (tree build : Path) (name : String)
    (platform : Platform) : Action PackageError Unit := do
  createDirectory faults build
  let library ← toolchain.compile ⟨sourcesIn tree, build, name, platform⟩
  if !(← Action.look fun f => .ok (f.isFile library)) then throw (.noLibrary library)
  let binaries := (tree.child "binaries").child platform.id
  createDirectory faults binaries
  Action.wrap (.files .moving library)
    (Action.perform faults (.move library (binaries.child (platform.libraryName name))))

def dropSources (faults : Faults) (tree : Path) : Action PackageError Unit :=
  let sources := sourcesIn tree
  Action.wrap (.files .removing sources) (Action.perform faults (.removeDirectory sources))

/-- Add files to an archive that holds some already, one after the other. -/
def addFiles (faults : Faults) (root archive : Path) (held : List (String × Content)) :
    List (String × Content) → Action PackageError Unit
  | [] => return
  | file :: more => do
    let path := root.child file.1
    Action.read faults path (.files .reading path) fun _ => .ok ()
    Action.wrap (.files .archiving path)
      (Action.perform faults (.write archive (.archive (held ++ [file]))))
    addFiles faults root archive (held ++ [file]) more

/-- Read directories, of which it is known what they hold. -/
def readAll (faults : Faults) (root : Path) (names : List String) : Action PackageError Unit :=
  names.forM fun name =>
    let path := root.child name
    Action.read faults path (.files .reading path) fun _ => .ok ()

/-- Pack the files below a directory. Which files these are is settled before the archive is
created. What comes back are the names in the archive. -/
def packUnder (faults : Faults) (root archive : Path) : Action PackageError (List String) := do
  let d ← Action.read faults root (.files .reading root) fun f =>
    (f.directory? root).mapError (.files .reading root)
  readAll faults root (← Action.look fun f => .ok (Archive.directoriesBelow f d))
  let files ← Action.look fun f => .ok (Archive.ofDirectory f d)
  Action.wrap (.files .creating archive) (Action.perform faults (.write archive (.archive [])))
  addFiles faults root archive [] files
  return files.map Prod.fst

def pack (root archive : Path) : Action PackageError (List String) :=
  packUnder .never root archive

/-- Pack a tree, and move the archive to its place. What comes back are the names in the
archive. -/
def publish (faults : Faults) (tree archive output : Path) :
    Action PackageError (List String) := do
  let entries ← packUnder faults tree archive
  Action.wrap (.files .movingArchive output) (Action.perform faults (.move archive output))
  return entries

/-- That nothing can be created beside it is a fault of the destination. -/
def atDestination (output : Path) : PackageError → PackageError
  | .files task p cause =>
    if cause.isDenial then .destination output .notWritable else .files task p cause
  | e => e

/-- Create the scratch directory of a build. -/
def enter (faults : Faults) (output : Path) (destination : Destination) :
    Action PackageError Scratch :=
  Action.wrap (atDestination output)
    (Scratch.createUnder faults destination.directory destination.name)

/-- Build a unit on a system on which things may go wrong. The report leaves the time that it has
taken at zero. -/
def buildUnder (faults : Faults) (m : StateSpace Float) (job : Job) (toolchain : Toolchain)
    (occasion : Occasion) : Action PackageError Report := do
  let destination ← Action.look (Destination.check · job.output)
  let skeleton ← Skeleton.openUnder faults job.runtimeDirectory
  let name := destination.name
  let rendered ← Action.look fun _ => render m name job.stepSize occasion
  let entries ← Scratch.use (enter faults job.output destination) fun scratch => do
    let tree := scratch.path.child "fmu"
    layOut faults tree skeleton rendered
    addLibrary faults toolchain tree (scratch.path.child "build") name job.platform
    if !job.keepSources then dropSources faults tree
    publish faults tree (scratch.path.child (name ++ ".zip")) job.output
  return {
    identifier := name
    guid := rendered.identity.occasion.guid
    platform := job.platform
    nx := m.nx
    nu := m.nu
    ny := m.ny
    nr := m.layout.registerCount
    stepSize := job.stepSize
    toolchain := toolchain.name
    archive := job.output
    entries := entries
    milliseconds := 0 }

/-- Build a unit. -/
def build (m : StateSpace Float) (job : Job) (toolchain : Toolchain) (occasion : Occasion) :
    Action PackageError Report :=
  buildUnder .never m job toolchain occasion

end Package
end LtiUnit
