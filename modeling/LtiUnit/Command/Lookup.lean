import LtiUnit.Command.Error
import LtiUnit.Files.Walk
import LtiUnit.Json.Datum
import LtiUnit.Model.Description.Reader

/-!
# LtiUnit.Command.Lookup

What commands read from files: models, and the configuration that is in force in a directory.
-/

namespace LtiUnit
namespace Command

open Model (Description)

/-- The ending of model files in JSON notation. All others are in TOML notation. -/
def jsonEnding : String := "json"

def loadModel (f : Files) (p : Path) : Except CommandError (Description Float) :=
  match f.text? p with
  | .error e => .error (.reading p e)
  | .ok s =>
    let json := p.extension? == some jsonEnding
    let said := if json then Json.datum? s else (Toml.members? s).map .table
    match said.bind Description.ofDatum? with
    | some d => .ok d
    | none => .error (.modelForm p json)

def loadConfig (f : Files) (directory : Path) : Except CommandError FoundConfig :=
  let p := directory.child Config.fileName
  match f.text? p with
  | .error e => .error (.reading p e)
  | .ok s =>
    match Config.ofText? s with
    | .ok c => .ok ⟨c, directory⟩
    | .error e => .error (.config p e)

def firstConfig (f : Files) : List Path → Except CommandError (Option FoundConfig)
  | [] => .ok none
  | d :: more =>
    if f.isFile (d.child Config.fileName) then (loadConfig f d).map some
    else firstConfig f more

/-- The configuration that is in force in a directory: its own, or that of the nearest directory
above it. -/
def findConfig (f : Files) (directory : Path) : Except CommandError (Option FoundConfig) :=
  firstConfig f directory.ancestors

end Command
end LtiUnit
