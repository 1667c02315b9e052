/-!
# LtiUnit.Command.Usage

Why a command line is not carried out. Asking for help or for the version counts as such a reason,
though not as a failure.
-/

namespace LtiUnit
namespace Command

inductive UsageError where
  | help
  | version
  | nothingGiven
  | noCommand
  | unknownCommand
  | unknownArgument
  | missingArgument
  /-- An option ends the command line, or is followed by another one, where its value should be. -/
  | missingValue
  /-- A value is empty where it may not be, or is none of those to choose from. -/
  | badValue
  | notANumber
  | repeated
  | unwantedValue
  deriving DecidableEq, Repr

def UsageError.exitCode : UsageError → Nat
  | .help | .version => 0
  | _ => 2

end Command
end LtiUnit
