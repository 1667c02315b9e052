import LtiUnit.Files.Path
import LtiUnit.Toolchain.Platform
import LtiUnit.Source.Unit

/-!
# LtiUnit.Toolchain.Compiler

Command lines of C compilers. A compiler is given the sources of a unit and an empty directory, in
which it is started and where it has to leave the shared library.
-/

namespace LtiUnit
namespace Toolchain

/-- What a toolchain is asked to build. -/
structure Request where
  /-- The directory of the translation unit, which has the runtime skeleton in `include`. -/
  sources : Path
  /-- The directory to work in. -/
  build : Path
  identifier : String
  platform : Platform
  deriving DecidableEq, Repr

/-- Where the shared library is expected. -/
def Request.library (r : Request) : Path :=
  r.build.child (r.platform.libraryName r.identifier)

/-- A program, what it is given, and the directory it is started in; it is that of the caller if
none is named. -/
structure Invocation where
  program : String
  args : List String
  directory : Option Path
  deriving DecidableEq, Repr

/-- A compiler, if it is not the usual one, and flags to give it. -/
structure Compiler where
  program : Option String
  flags : List String
  deriving DecidableEq, Repr

namespace Compiler

def name (c : Compiler) : String := c.program.getD "system"

/-- The program that is run for a platform. -/
def programFor (c : Compiler) (p : Platform) : String :=
  c.program.getD p.system.defaultCompiler

def arguments (c : Compiler) (r : Request) : List String :=
  let headers := (r.sources.child "include").text
  let unit := (r.sources.child Source.fileName).text
  let library := r.library.text
  match r.platform.system with
  | .win =>
    ["/nologo", "/LD", "/Oy", "/Ob1", "/Oi", "/DDISABLE_PREFIX", "/I", headers] ++ c.flags ++
      ["/Fe" ++ library, unit, "shlwapi.lib"]
  | .linux =>
    ["-shared", "-fPIC", "-static-libgcc", "-DDISABLE_PREFIX", "-I", headers] ++ c.flags ++
      ["-o", library, unit, "-lm"]
  | .darwin =>
    ["-shared", "-fPIC", "-arch", "x86_64", "-arch", "arm64", "-DDISABLE_PREFIX", "-I",
      headers] ++ c.flags ++ ["-o", library, unit, "-lm"]

def invocation (c : Compiler) (r : Request) : Invocation :=
  ⟨c.programFor r.platform, c.arguments r, some r.build⟩

/-- What is run to see whether a compiler is there. The usual compiler on Windows shows its version
without being asked. -/
def probeInvocation (c : Compiler) (p : Platform) : Invocation :=
  ⟨c.programFor p, if p.system = .win then [] else ["--version"], none⟩

end Compiler

/-- A command line ends each of its texts by a zero character, so a text that holds one cannot be
part of it. This is what stands in its place. -/
def argumentText (s : String) : String :=
  if s.contains '\x00' then "<string-with-nul>" else s

/-- An invocation as a system takes it. -/
def Invocation.shown (i : Invocation) : Invocation :=
  ⟨argumentText i.program, i.args.map argumentText,
    i.directory.map fun d => Path.ofText (argumentText d.text)⟩

end Toolchain
end LtiUnit
