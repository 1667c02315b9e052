/-!
# LtiUnit.Files.Error

Why an operation on files fails. Most reasons are those of the operating system, each with its
number there; a few are found before the system is asked, or after it has answered.
-/

namespace LtiUnit

inductive FileError where
  | notPermitted
  | notFound
  | inputOutput
  | permissionDenied
  /-- A file that can be executed holds no program. -/
  | noProgram
  | busy
  | exists
  | notADirectory
  | isADirectory
  | noSpace
  | readOnly
  | nameTooLong
  /-- Contents are asked for as text and are not. -/
  | notText
  | zeroInPath
  | zeroInCommand
  | notAFile
  deriving DecidableEq, Repr

namespace FileError

def reason : FileError → String
  | .notPermitted => "Operation not permitted"
  | .notFound => "No such file or directory"
  | .inputOutput => "Input/output error"
  | .noProgram => "Exec format error"
  | .permissionDenied => "Permission denied"
  | .busy => "Device or resource busy"
  | .exists => "File exists"
  | .notADirectory => "Not a directory"
  | .isADirectory => "Is a directory"
  | .noSpace => "No space left on device"
  | .readOnly => "Read-only file system"
  | .nameTooLong => "File name too long"
  | .notText => "stream did not contain valid UTF-8"
  | .zeroInPath => "file name contained an unexpected NUL byte"
  | .zeroInCommand => "nul byte found in provided data"
  | .notAFile => "the source path is neither a regular file nor a symlink to a regular file"

/-- The number of a reason of the operating system. -/
def number? : FileError → Option Nat
  | .notPermitted => some 1
  | .notFound => some 2
  | .inputOutput => some 5
  | .noProgram => some 8
  | .permissionDenied => some 13
  | .busy => some 16
  | .exists => some 17
  | .notADirectory => some 20
  | .isADirectory => some 21
  | .noSpace => some 28
  | .readOnly => some 30
  | .nameTooLong => some 36
  | .notText | .zeroInPath | .zeroInCommand | .notAFile => none

def message (e : FileError) : String :=
  match e.number? with
  | some n => e.reason ++ " (os error " ++ toString n ++ ")"
  | none => e.reason

/-- Whether it is the one who asks that may not do it. -/
def isDenial : FileError → Bool
  | .notPermitted | .permissionDenied => true
  | _ => false

end FileError
end LtiUnit
