import LtiUnit.Package.Build
import LtiUnit.Proofs.FileNames

/-!
# LtiUnit.Proofs.CompilerPaths

Where the arguments of a compiler point. The compiler is started in the directory it has to work in,
while its arguments are the paths of the request as they are, which count from the directory of the
caller. So the compiler finds the files of the request exactly if each path leads to one location
from both directories (`pointsAt_iff`).

In a build that is the case if the output is absolute, and never if it is relative and does not lead
up, as `./q.fmu` is (`not_pointsAt_of_climb_eq_zero`).
-/

namespace LtiUnit
namespace Toolchain

open LtiUnit.Path

/-- The paths among the arguments of a compiler. -/
structure PathArguments where
  headers : Path
  unit : Path
  library : Path
  deriving DecidableEq

/-- The argument of the option that names directories of headers. -/
def headersIn? (args : List String) : Option String :=
  (args.dropWhile fun a => a != "-I" && a != "/I")[1]?

/-- The text of the library in its argument. On Windows it is part of an option. -/
def libraryText (system : OperatingSystem) (argument : String) : String :=
  if system = .win then String.ofList (argument.toList.drop 3) else argument

/-- The paths that a compiler reads off its arguments: the headers after their option, and at the
end the library, the translation unit and one library to link. -/
def pathArguments? (system : OperatingSystem) (args : List String) : Option PathArguments :=
  match headersIn? args, args.reverse with
  | some headers, _ :: unit :: library :: _ =>
    some ⟨ofText headers, ofText unit, ofText (libraryText system library)⟩
  | _, _ => none

theorem pathArguments?_arguments (c : Compiler) (r : Request) :
    pathArguments? r.platform.system (c.arguments r) =
      some ⟨r.sources.child "include", r.sources.child Source.fileName, r.library⟩ := by
  cases h : r.platform.system <;>
    simp [pathArguments?, headersIn?, Compiler.arguments, h, libraryText, ofText_text]

/-- The directory that a compiler is started in, seen from the directory of the caller. -/
def Invocation.startedIn (i : Invocation) (w : Location) : Location :=
  match i.directory with
  | some d => d.locationFrom w
  | none => w

/-- Whether the arguments of a compiler, seen from where it is started, name the locations that the
request means, seen from the directory of the caller. -/
def Compiler.PointsAt (c : Compiler) (r : Request) (w : Location) : Prop :=
  ∃ a, pathArguments? r.platform.system (c.invocation r).args = some a ∧
    a.unit.locationFrom ((c.invocation r).startedIn w) =
        (r.sources.child Source.fileName).locationFrom w ∧
      a.headers.locationFrom ((c.invocation r).startedIn w) =
          (r.sources.child "include").locationFrom w ∧
        a.library.locationFrom ((c.invocation r).startedIn w) = r.library.locationFrom w

namespace Compiler

theorem pointsAt_iff_sameFrom (c : Compiler) (r : Request) (w : Location) :
    c.PointsAt r w ↔
      ((r.sources.child Source.fileName).SameFrom (r.build.locationFrom w) w ∧
        (r.sources.child "include").SameFrom (r.build.locationFrom w) w) ∧
          r.library.SameFrom (r.build.locationFrom w) w := by
  simp only [PointsAt, invocation, pathArguments?_arguments, Option.some.injEq,
    exists_eq_left', Invocation.startedIn, locationFrom_eq_iff, and_assoc]

/-- What lies in the directory of the sources is found together with it. -/
theorem sameFrom_sources_iff (sources : Path) (w w' : Location) :
    (sources.child Source.fileName).SameFrom w w' ∧ (sources.child "include").SameFrom w w' ↔
      sources.SameFrom w w' := by
  have hunit : isFileName Source.fileName = true := isFileName_of_length (by decide) (by decide)
  have hheaders : isFileName "include" = true := isFileName_of_length (by decide) (by decide)
  rw [sameFrom_child hunit, sameFrom_child hheaders, and_self]

/-- The compiler is pointed at the files of the request exactly if the paths of the request lead to
one place from the directory that the compiler works in and from that of the caller. -/
theorem pointsAt_iff (c : Compiler) (r : Request) (w : Location) :
    c.PointsAt r w ↔
      r.sources.SameFrom (r.build.locationFrom w) w ∧
        r.library.SameFrom (r.build.locationFrom w) w := by
  rw [pointsAt_iff_sameFrom, sameFrom_sources_iff]

end Compiler
end Toolchain

namespace Package

open LtiUnit.Path

/-- The request of a build that works in a scratch directory. -/
def requestFor (scratch : Path) (name : String) (platform : Platform) : Toolchain.Request :=
  ⟨sourcesIn (scratch.child "fmu"), scratch.child "build", name, platform⟩

/-- In a build, only the path of the scratch directory counts. -/
theorem pointsAt_requestFor_iff (c : Toolchain.Compiler) (scratch : Path) {name : String}
    (h : isName name = true) (platform : Platform) (w : Location) :
    c.PointsAt (requestFor scratch name platform) w ↔
      scratch.SameFrom ("build" :: scratch.locationFrom w) w := by
  have hbuild : isFileName "build" = true := isFileName_of_length (by decide) (by decide)
  have htree : isFileName "fmu" = true := isFileName_of_length (by decide) (by decide)
  have hsources : isFileName "sources" = true := isFileName_of_length (by decide) (by decide)
  have hlibrary := isFileName_libraryName platform h
  rw [Toolchain.Compiler.pointsAt_iff_sameFrom, Toolchain.Compiler.sameFrom_sources_iff]
  simp only [requestFor, sourcesIn, Toolchain.Request.library, locationFrom_child hbuild,
    sameFrom_child hbuild, sameFrom_child htree, sameFrom_child hsources, sameFrom_child hlibrary,
    and_self]

/-- A relative path that does not lead up never leads to one place from a directory and from one
below it. -/
theorem not_pointsAt_of_climb_eq_zero (c : Toolchain.Compiler) {scratch : Path} {name : String}
    (h : isName name = true) (platform : Platform) (w : Location)
    (hrelative : scratch.isAbsolute = false) (hclimb : scratch.climb = 0) :
    ¬c.PointsAt (requestFor scratch name platform) w := by
  obtain ⟨down, hdown⟩ := exists_locationFrom_eq hrelative
  rw [pointsAt_requestFor_iff c scratch h, SameFrom, hrelative, hdown, hclimb]
  rintro (habs | hsame)
  · cases habs
  · have hlen := congrArg List.length hsame
    simp only [List.drop_zero, List.length_cons, List.length_append] at hlen
    omega

/-- A build whose output is `./q.fmu` does not find its sources from the directory `/work`. -/
theorem not_pointsAt_relative :
    ¬(⟨none, []⟩ : Toolchain.Compiler).PointsAt
      (requestFor (Scratch.pathFor
        (Destination.directoryOf (Path.ofText "./q.fmu")) "q") "q" ⟨.linux, 64⟩) ["work"] := by
  rw [Toolchain.Compiler.pointsAt_iff_sameFrom]
  decide

end Package
end LtiUnit
