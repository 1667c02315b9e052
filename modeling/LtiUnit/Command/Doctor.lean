import LtiUnit.Command.Host
import LtiUnit.Command.Lookup
import LtiUnit.Command.Settings
import LtiUnit.Package.Skeleton

/-!
# LtiUnit.Command.Doctor

A report on what a build would find: the platform, the configuration, the compiler and the runtime
skeleton. Whatever is missing is reported and is no failure.
-/

namespace LtiUnit
namespace Command
namespace Doctor

open Package

def noOptions : BuildOptions := .ofProgress .start

def hostLines (host : Host) : List String :=
  match host.platform with
  | .ok p =>
    ["  Platform id: " ++ p.id, "  Library:     " ++ p.libraryName "<identifier>"]
  | .error e => ["  Platform id: " ++ (PackageError.platform e).message]

def configLine (found : Except CommandError (Option FoundConfig)) : String :=
  "  " ++ Config.fileName ++ ": " ++
    match found with
    | .ok (some c) => "found at " ++ c.directory.text
    | .ok none => "not found"
    | .error e => "error: " ++ e.message

def settingsLines (s : Settings) : List String :=
  ["  Step size:    " ++ Number.Spelling.plain.text s.stepSize,
   "  Keep sources: " ++ toString s.keepSources]

def toolchainLines (host : Host) (s : Settings) : Action CommandError (List String) :=
  match host.platform with
  | .error _ => return ["  (no supported platform)"]
  | .ok p => do
    let compiler := s.toCompiler
    let version ← compiler.probe host.start p
    let program := "  " ++ compiler.programFor p ++ ": " ++ version.getD "not found"
    return if s.flags.isEmpty then [program]
      else [program, "  Flags: " ++ Text.separated " " s.flags]

/-- What is said about the runtime skeleton, which has to be supplied if it is not there. -/
def skeletonLines (f : Files) (directory : Path) : List String :=
  ("  Directory: " ++ directory.text) ::
    match Skeleton.open? f directory with
    | .ok s => ["  Status: ok (" ++ toString s.names.length ++ " files)"]
    | .error e =>
      ["  Status: " ++ e.message,
       "  Required: " ++ Text.separated ", " Skeleton.required,
       "  " ++ toolName ++ " ships no runtime skeleton. Provide the FMI 2.0 headers",
       "  and the fmi2Template sources in one directory and point",
       "  --runtime-dir, [runtime] dir in " ++ Config.fileName ++ " or " ++ runtimeVariable ++
         " at it."]

def report (host : Host) : Action CommandError (List String) := do
  let directory ← Action.look fun f => .ok f.here.path
  let found ← Action.look fun f => .ok (findConfig f directory)
  let s ← Action.look fun _ =>
    (Settings.resolve noOptions (found.toOption.bind id) directory host.environment).mapError
      .stepSize
  let toolchain ← toolchainLines host s
  let skeleton ← Action.look fun f => .ok (skeletonLines f s.runtimeDirectory)
  return ["=== " ++ toolName ++ " Doctor ===", "", toolName ++ " version: " ++ version, "",
      "--- Host ---"] ++ hostLines host ++
    ["", "--- Configuration ---", configLine found] ++ settingsLines s ++
    ["", "--- Toolchain ---"] ++ toolchain ++
    ["", "--- Runtime Skeleton ---"] ++ skeleton

end Doctor
end Command
end LtiUnit
