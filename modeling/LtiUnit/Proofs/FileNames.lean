import LtiUnit.Identity.Name
import LtiUnit.Proofs.Location
import LtiUnit.Toolchain.Compiler

/-!
# LtiUnit.Proofs.FileNames

The names that builds give to files are names in a directory: they are long enough to be no dots,
and free of slashes.
-/

namespace LtiUnit
namespace Path

theorem isFileName_of_length {name : String} (hlen : 3 ≤ name.length) (hslash : '/' ∉ name.toList) :
    isFileName name = true := by
  refine isFileName_iff.2 ⟨?_, ?_, ?_, hslash⟩ <;>
  · rintro rfl
    revert hlen
    decide

theorem slash_not_mem_of_isName {name : String} (h : isName name = true) : '/' ∉ name.toList :=
  fun hc => absurd (isNameRest_of_mem h hc) (by decide)

/-- A name with something around it, in front or behind. -/
theorem isFileName_around {name : String} (h : isName name = true) (before : String)
    {after : String} (hbefore : '/' ∉ before.toList)
    (hafter : '/' ∉ after.toList ∧ 3 ≤ after.length) :
    isFileName (before ++ name ++ after) = true := by
  refine isFileName_of_length ?_ ?_
  · rw [String.length_append]
    omega
  · simp only [String.toList_append, List.mem_append, not_or]
    exact ⟨⟨hbefore, slash_not_mem_of_isName h⟩, hafter.1⟩

theorem isFileName_id (platform : Platform) : isFileName platform.id = true := by
  have hdigits : '/' ∉ (toString platform.bits).toList := by
    rw [Nat.toString_eq_ofList_toDigits, String.toList_ofList]
    intro hc
    exact absurd (Nat.isDigit_of_mem_toDigits (by decide) (by decide) hc) (by decide)
  have hsystem : 3 ≤ platform.system.name.length ∧ '/' ∉ platform.system.name.toList := by
    cases platform.system <;> decide
  refine isFileName_of_length ?_ ?_
  · rw [Platform.id, String.length_append]
    omega
  · rw [Platform.id, String.toList_append, List.mem_append, not_or]
    exact ⟨hsystem.2, hdigits⟩

theorem isFileName_libraryName (platform : Platform) {name : String} (h : isName name = true) :
    isFileName (platform.libraryName name) = true := by
  have hextension : 2 ≤ platform.system.libraryExtension.length ∧
      '/' ∉ platform.system.libraryExtension.toList := by
    cases platform.system <;> decide
  refine isFileName_of_length ?_ ?_
  · rw [Platform.libraryName, String.length_append, String.length_append]
    have : ".".length = 1 := rfl
    omega
  · simp only [Platform.libraryName, String.toList_append, List.mem_append, not_or]
    exact ⟨⟨slash_not_mem_of_isName h, by decide⟩, hextension.2⟩

end Path

theorem Toolchain.Request.locationFrom_library {r : Toolchain.Request}
    (h : isName r.identifier = true) (w : Location) :
    r.library.locationFrom w = r.platform.libraryName r.identifier :: r.build.locationFrom w :=
  Path.locationFrom_child (Path.isFileName_libraryName r.platform h) w

end LtiUnit
