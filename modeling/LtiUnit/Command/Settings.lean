import LtiUnit.Command.Config
import LtiUnit.Command.Line
import LtiUnit.Toolchain.Compiler

/-!
# LtiUnit.Command.Settings

The settings of a build. Options stand over the configuration file, that over the environment, and
that over the usual values.
-/

namespace LtiUnit
namespace Command

structure Settings where
  stepSize : Float
  keepSources : Bool
  runtimeDirectory : Path
  compiler : Option String
  flags : List String

def runtimeVariable : String := "LTIFMU_RUNTIME_DIR"

def compilerVariable : String := "CC"

def usualStepSize : Float := 1e-3

namespace Settings

/-- The step size that is set, whether or not it can be used. -/
def decidedStepSize (options : BuildOptions) (config : Option FoundConfig) : Float :=
  (options.dt <|> config.bind (·.config.stepSize)).getD usualStepSize

/-- The settings, or the step size if it is not finite and positive. -/
def resolve (options : BuildOptions) (config : Option FoundConfig) (directory : Path)
    (environment : String → Option String) : Except Float Settings :=
  let stepSize := decidedStepSize options config
  if Render.validStepSize stepSize then
    .ok {
      stepSize := stepSize
      keepSources := !options.noSources && (config.bind (·.config.keepSources)).getD true
      runtimeDirectory :=
        (options.runtimeDirectory <|> config.bind (·.runtimeDirectory) <|>
          (environment runtimeVariable).map Path.ofText).getD (directory.child "runtime")
      compiler :=
        config.bind (·.config.compiler) <|>
          (environment compilerVariable).filter fun s => !Text.isBlank s
      flags := (config.map (·.config.flags)).getD [] }
  else .error stepSize

def toCompiler (s : Settings) : Toolchain.Compiler := ⟨s.compiler, s.flags⟩

end Settings

end Command
end LtiUnit
