import LtiUnit.Command.Doctor
import LtiUnit.Json.Printer
import LtiUnit.Package.Build

/-!
# LtiUnit.Command.Run

Carrying out what a command line asks for. The model comes first, then the configuration and the
settings; only then are files written, and only if an archive is asked for.
-/

namespace LtiUnit
namespace Command

open Model (Description StateSpace)

inductive Product where
  | text (s : String)
  | report (r : Package.Report) (json : Bool)

def Product.printed : Product → String
  | .text s => s
  | .report r true => r.toJson.pretty "" ++ "\n"
  | .report r false => Render.textOf r.lines

def ModelSource.describe (f : Files) : ModelSource → Except CommandError (Description Float)
  | .stateSpace a b c d => do
    let matrix (name : String) (text : Option String) :=
      (optional (matrix name) text).mapError CommandError.value
    let a ← matrix "A" a
    let b ← matrix "B" b
    let c ← matrix "C" c
    let d ← matrix "D" d
    return .stateSpace ⟨a, b, c, d, none, none⟩
  | .transferFunction num den => do
    let num ← (list "num" num).mapError .value
    let den ← (list "den" den).mapError .value
    return .transferFunction ⟨num, den, none, none⟩
  | .zeroPoleGain zeros poles gain => do
    let zeros ← (list "zeros" zeros).mapError .value
    let poles ← (list "poles" poles).mapError .value
    return .zeroPoleGain ⟨zeros, poles, gain, none, none⟩
  | .controller kp ki kd t => return .controller ⟨kp, ki, kd, t, none, none⟩
  | .file p => loadModel f p

/-- What a model command works with: the model, and the settings that are in force. -/
structure Plan where
  model : StateSpace Float
  settings : Settings

def plan (host : Host) (d : Description Float) (options : BuildOptions)
    (found : Option FoundConfig) (directory : Path) : Except CommandError Plan := do
  let settings ←
    (Settings.resolve options found directory host.environment).mapError .stepSize
  let m ← d.realize.mapError (.model d.kind)
  return ⟨m, settings⟩

/-- The texts of a unit that is not built. Its destination is checked all the same. -/
def preview (host : Host) (p : Plan) (output : Path) (f : Files) :
    Except CommandError Package.Rendered :=
  (do
    let destination ← Package.Destination.check f output
    Package.render p.model destination.name p.settings.stepSize host.occasion
      : Except PackageError Package.Rendered).mapError .package

def artifact (host : Host) (p : Plan) (output : Path) : Action CommandError Package.Report := do
  let platform ← Action.look fun _ => host.platform.mapError fun e => .package (.platform e)
  Action.wrap (.building output)
    (Package.build p.model
      { output := output
        runtimeDirectory := p.settings.runtimeDirectory
        stepSize := p.settings.stepSize
        keepSources := p.settings.keepSources
        platform := platform }
      (p.settings.toCompiler.toolchain host.start) host.occasion)

/-- Produce of a described model what is asked for. -/
def produce (host : Host) (d : Description Float) (options : BuildOptions)
    (found : Option FoundConfig) (directory : Path) : Action CommandError Product := do
  let p ← Action.look fun _ => plan host d options found directory
  match options.emit with
  | .source => return .text (← Action.look (preview host p options.output)).source
  | .descriptor => return .text (← Action.look (preview host p options.output)).descriptor
  | .artifact => return .report (← artifact host p options.output) options.json

/-- The model that is described, with the start values that are given, and the configuration that is
found for it. -/
def described (source : ModelSource) (options : BuildOptions) (f : Files) :
    Except CommandError (Description Float × Option FoundConfig) := do
  let d ← source.describe f
  let found ← findConfig f f.here.path
  let d ← (withStartValues d options.x0 options.u0).mapError .value
  return (d, found)

def Task.run (host : Host) : Task → Action CommandError Product
  | .doctor => do return .text (Render.textOf (← Doctor.report host))
  | .model source options => do
    let directory ← Action.look fun f => .ok f.here.path
    let (d, found) ← Action.look (described source options)
    produce host d options found directory

end Command
end LtiUnit
