import LtiUnit.Files.Path
import LtiUnit.Identity.Guid
import LtiUnit.Layout
import LtiUnit.Model.Description.Writer
import LtiUnit.Toolchain.Platform

/-!
# LtiUnit.Package.Report

What is told about a build that has succeeded, as text and as a JSON document.
-/

namespace LtiUnit
namespace Package

structure Report where
  identifier : String
  guid : Guid
  platform : Platform
  nx : Nat
  nu : Nat
  ny : Nat
  /-- Number of registers. -/
  nr : Nat
  stepSize : Float
  /-- The toolchain that compiled the library. -/
  toolchain : String
  archive : Path
  entries : List String
  milliseconds : Nat

namespace Report

def hasSources (r : Report) : Bool := r.entries.any fun e => e.startsWith "sources/"

def lines (r : Report) : List String :=
  ["=== Build Report ===",
   "Model: " ++ r.identifier,
   "GUID: " ++ r.guid.text,
   "Platform: " ++ r.platform.id,
   "Toolchain: " ++ r.toolchain,
   "Duration: " ++ toString r.milliseconds ++ " ms",
   "",
   "--- Model ---",
   "  States: " ++ toString r.nx ++ ", inputs: " ++ toString r.nu ++ ", outputs: " ++
     toString r.ny ++ " (" ++ toString r.nr ++ " registers)",
   "  Step size: " ++ Number.Spelling.plain.text r.stepSize,
   "",
   "--- Archive (" ++ toString r.entries.length ++ " entries) ---",
   "  " ++ r.archive.text] ++
  r.entries.map ("    " ++ ·)

def toJson (r : Report) : Json.Value :=
  .ofMembers
    [("identifier", .ofString r.identifier),
     ("guid", .ofString r.guid.text),
     ("platform", r.platform.toJson),
     ("nx", .ofNat r.nx),
     ("nu", .ofNat r.nu),
     ("ny", .ofNat r.ny),
     ("nr", .ofNat r.nr),
     ("step_size", Model.Description.ofFloat r.stepSize),
     ("toolchain", .ofString r.toolchain),
     ("archive", .ofString r.archive.text),
     ("entries", .array (r.entries.map Json.Value.ofString)),
     ("duration_ms", .ofNat r.milliseconds)]

end Report
end Package
end LtiUnit
