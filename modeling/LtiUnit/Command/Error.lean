import LtiUnit.Command.Config
import LtiUnit.Command.Value
import LtiUnit.Model.Error
import LtiUnit.Package.Error

/-!
# LtiUnit.Command.Error

Why a command fails. The wording goes from what was being done to the cause, with colons between.
-/

namespace LtiUnit

open Command Model

inductive CommandError where
  | value (cause : ValueError)
  | reading (path : Path) (cause : FileError)
  /-- A model file is not in its notation, or does not describe a model; the notation is JSON or
  TOML. -/
  | modelForm (path : Path) (json : Bool)
  | config (path : Path) (cause : ConfigError)
  | stepSize (value : Float)
  | model (kind : String) (cause : ModelError Float)
  | package (cause : PackageError)
  | building (output : Path) (cause : PackageError)

namespace CommandError

def message : CommandError → String
  | .value cause => cause.message
  | .reading path cause => "reading " ++ path.text ++ ": " ++ cause.message
  | .modelForm path json =>
    "parsing " ++ path.text ++ ": " ++ if json then jsonFault else tomlFault
  | .config path cause => "parsing " ++ path.text ++ ": " ++ cause.message
  | .stepSize x => "step size must be finite and positive, found " ++ Number.Spelling.plain.text x
  | .model kind cause => "invalid " ++ kind ++ " model: " ++ cause.message
  | .package cause => cause.message
  | .building output cause => "building " ++ output.text ++ ": " ++ cause.message

end CommandError
end LtiUnit
