/-!
# LtiUnit.Identity.Name

The names that a unit may carry. A name is the stem of C identifiers and of file names, so it has
to be a C identifier: ASCII letters, digits and underscores, and no digit in front.
-/

namespace LtiUnit

def isNameStart (c : Char) : Bool := c == '_' || c.isAlpha

def isNameRest (c : Char) : Bool := c == '_' || c.isAlphanum

/-- Whether characters form a C identifier. -/
def isIdentifier : List Char → Bool
  | [] => false
  | c :: rest => isNameStart c && rest.all isNameRest

def isName (s : String) : Bool := isIdentifier s.toList

theorem isNameRest_of_mem {s : String} (h : isName s = true) {c : Char} (hc : c ∈ s.toList) :
    isNameRest c = true := by
  unfold isName isIdentifier at h
  cases hs : s.toList with
  | nil => simp [hs] at hc
  | cons first rest =>
    simp only [hs, Bool.and_eq_true, List.all_eq_true] at h
    rw [hs] at hc
    rcases List.mem_cons.1 hc with rfl | hc
    · have hstart := h.1
      simp only [isNameStart, Bool.or_eq_true] at hstart
      simp only [isNameRest, Char.isAlphanum, Bool.or_eq_true]
      exact hstart.imp_right .inl
    · exact h.2 c hc

end LtiUnit
