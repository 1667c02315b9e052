import LtiUnit.Files.Path
import LtiUnit.Number.Spelling
import LtiUnit.Render
import LtiUnit.Toml.Datum

/-!
# LtiUnit.Command.Config

The configuration file: sections `build`, `toolchain` and `runtime`, all of whose settings may be
left out. Nothing else may stand in it. A section may also be written as a list of its settings in
their order.
-/

namespace LtiUnit
namespace Command

structure Config where
  stepSize : Option Float
  keepSources : Option Bool
  compiler : Option String
  flags : List String
  /-- The directory of the runtime skeleton, as written. -/
  runtime : Option String
  deriving Repr

inductive ConfigError where
  /-- It is not in TOML notation, or does not have the form of a configuration. -/
  | form
  | stepSize (value : Float)
  deriving Repr

def tomlFault : String := "<toml>"

def ConfigError.message : ConfigError → String
  | .form => tomlFault
  | .stepSize value =>
    "build.step-size must be finite and positive, found " ++ Number.Spelling.plain.text value

namespace Config

def fileName : String := "ltifmu.toml"

/-- The settings of a section with the given names. A list gives them in order, and may go on. -/
def section? (names : List String) : Datum → Option Members
  | .table ms => if ms.all fun m => names.contains m.1 then some ms else none
  | .list items => some (names.zip items)
  | _ => none

def sectionUnder? (ms : Members) (name : String) (names : List String) : Option Members :=
  ms.withDefault? [name] (section? names) []

/-- The configuration that a table holds. -/
def ofMembers? (ms : Members) : Option Config := do
  let ms ← section? ["build", "toolchain", "runtime"] (.table ms)
  let build ← sectionUnder? ms "build" ["step-size", "keep-sources"]
  let toolchain ← sectionUnder? ms "toolchain" ["compiler", "flags"]
  let runtime ← sectionUnder? ms "runtime" ["dir"]
  return {
    stepSize := ← build.withDefault? ["step-size"] (fun d => d.toFloat?.map some) none
    keepSources := ← build.withDefault? ["keep-sources"] (fun d => d.toBool?.map some) none
    compiler := ← toolchain.withDefault? ["compiler"] (fun d => d.toText?.map some) none
    flags := ← toolchain.withDefault? ["flags"] (Datum.toList? Datum.toText?) []
    runtime := ← runtime.withDefault? ["dir"] (fun d => d.toText?.map some) none }

/-- The configuration with a text. A step size has to be finite and positive. -/
def ofText? (s : String) : Except ConfigError Config :=
  match (Toml.members? s).bind ofMembers? with
  | none => .error .form
  | some c =>
    match c.stepSize with
    | some x => if Render.validStepSize x then .ok c else .error (.stepSize x)
    | none => .ok c

end Config

structure FoundConfig where
  config : Config
  directory : Path

/-- The directory of the runtime skeleton. A relative one counts from the configuration file. -/
def FoundConfig.runtimeDirectory (f : FoundConfig) : Option Path :=
  f.config.runtime.map fun dir => f.directory.join (Path.ofText dir)

end Command
end LtiUnit
