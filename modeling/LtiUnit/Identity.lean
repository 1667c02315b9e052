import LtiUnit.Identity.Calendar
import LtiUnit.Identity.Guid
import LtiUnit.Identity.Name

/-!
# LtiUnit.Identity

What sets one build of a unit apart from every other. The source and the descriptor of a unit
carry the same identity, and a host checks that they agree before it accepts the unit.
-/

namespace LtiUnit

/-- What a build draws afresh: random bits become its `guid`, the clock gives `seconds` since the
start of 1970. -/
structure Occasion where
  guid : Guid
  seconds : Int
  deriving DecidableEq, Repr

/-- The name of a unit together with the occasion of its build. -/
structure Identity where
  name : String
  isName : LtiUnit.isName name = true
  occasion : Occasion
  deriving DecidableEq, Repr

namespace Identity

/-- The identity with the given parts, if the name is one. -/
def make? (name : String) (occasion : Occasion) : Option Identity :=
  if h : LtiUnit.isName name = true then some ⟨name, h, occasion⟩ else none

def timestamp (id : Identity) : String := Calendar.text id.occasion.seconds

end Identity

end LtiUnit
