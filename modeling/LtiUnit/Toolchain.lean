import LtiUnit.Files.Action
import LtiUnit.Machine.Outcome
import LtiUnit.Package.Error
import LtiUnit.Toolchain.Compiler

/-!
# LtiUnit.Toolchain

What turns a translation unit into a shared library. The usual toolchain starts a compiler, and
takes its word only if the library is there afterwards.
-/

namespace LtiUnit

structure Toolchain where
  /-- How the toolchain is named in reports. -/
  name : String
  /-- Compile and link; what comes back is the path of the library. -/
  compile : Toolchain.Request → Action PackageError Path

namespace Toolchain

/-- How programs are started on some machine. -/
abbrev Starter := Invocation → Action FileError Outcome

/-- What a program has to say about a failure: its diagnostics, or its results if there are none. -/
def diagnostics (o : Outcome) : String :=
  Text.trimEnd (if Text.isBlank o.errText then o.outText else o.errText)

namespace Compiler

/-- What is reported if a compiler cannot be started. -/
def notStarted (program : String) : FileError → PackageError
  | .notFound => .noCompiler program
  | e => .compilerNotStarted program e

/-- Start a compiler. -/
def compile (start : Starter) (c : Compiler) (r : Request) : Action PackageError Path := do
  let program := c.programFor r.platform
  let o ← Action.wrap (notStarted program) (start (c.invocation r))
  if !o.status.isSuccess then
    throw (.compileFailure program o.status.text (diagnostics o))
  if !(← Action.look fun f => .ok (f.isFile r.library)) then throw (.noLibrary r.library)
  return r.library

def toolchain (start : Starter) (c : Compiler) : Toolchain := ⟨c.name, c.compile start⟩

/-- The first line that a compiler says about itself, on either output, if it can be started. -/
def probe {ε : Type} (start : Starter) (c : Compiler) (p : Platform) :
    Action ε (Option String) := fun f =>
  match start (c.probeInvocation p) f with
  | (.error _, f) => (.ok none, f)
  | (.ok o, f) =>
    let said := if o.out.isEmpty then o.errText else o.outText
    (.ok ((Text.firstLine? said).map Text.trim), f)

end Compiler
end Toolchain
end LtiUnit
