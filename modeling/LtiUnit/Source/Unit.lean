import LtiUnit.Identity
import LtiUnit.Model.StateSpace
import LtiUnit.Source.Hooks
import LtiUnit.Source.Support
import LtiUnit.Tool

/-!
# LtiUnit.Source.Unit

The translation unit of a model: its sizes and identity as macros, its registers, its coefficients
as tables, and the routines that compute with them, between the header and the implementation of
the runtime skeleton. Nothing is declared that a zero dimension would leave empty.
-/

namespace LtiUnit
namespace Source

open Hooks (onlyIf)
open Model (StateSpace Coefficient)

variable {α : Type}

def fileName : String := "fmi2model.c"

def skeletonHeader : String := "fmi2Template.h"

def skeletonImplementation : String := "fmi2Template.c"

/-- The least number of integration substeps in a communication step. -/
def leastSubsteps : Nat := 100

/-- The lines of a unit that state what it was generated from. -/
def origin (id : Identity) : Item α :=
  .remark
    ["Generated by " ++ toolAndVersion ++ ". Do not edit.",
     "Model:     " ++ id.name,
     "GUID:      " ++ id.occasion.guid.text,
     "Generated: " ++ id.timestamp]

def opening (l : Layout) (id : Identity) (step : α) : List (Item α) :=
  [origin id, .blank,
   .header skeletonHeader, .blank,
   .linkageOpen, .blank,
   .define "MODEL_IDENTIFIER" (.name id.name),
   .define "MODEL_GUID" (.quoted id.occasion.guid.text), .blank,
   .define "NR" (.natural l.registerCount),
   .define "NX" (.natural l.nx),
   .define "NU" (.natural l.nu),
   .define "NY" (.natural l.ny), .blank,
   .define "STEP_SIZE" (.real step),
   .define "EULER_SUBSTEPS" (.natural leastSubsteps), .blank]

/-- The type of instances and the one instance. A unit without registers still has a slot. -/
def instances (l : Layout) : List (Item α) :=
  [.instanceType (max l.registerCount 1), .blank,
   .passage
     ["static const fmi2String logCategoriesNames[] = " ++
        "\x7b\"logAll\", \"logError\", \"logFmiCall\", \"logEvent\"\x7d;",
      "static ModelInstance instance;"],
   .blank]

/-- The macro that names a block of registers in the routines. -/
def blockMacro : Block → String
  | .state => "_X"
  | .derivative => "_DER"
  | .stateStart => "_X0"
  | .input => "_U"
  | .inputStart => "_U0"
  | .output => "_Y"

/-- The macros of the blocks that are not empty. -/
def registerMacros (l : Layout) : List (Item α) :=
  Block.order.flatMap fun b =>
    onlyIf (0 < l.size b) [.registers (blockMacro b) (l.base b)]

/-- The value references of the states, derivatives and outputs. -/
def referenceTables (l : Layout) : List (Item α) :=
  [Block.state, .derivative, .output].flatMap fun b =>
    onlyIf (0 < l.size b) [.references ("vrs_" ++ b.name) (l.registers b)]

def coefficientTables [Coefficient α] (m : StateSpace α) : List (Item α) :=
  onlyIf (0 < m.nx) [.matrix "A" m.A] ++
  onlyIf (0 < m.nx && 0 < m.nu) [.matrix "B" m.B] ++
  onlyIf (0 < m.nx && 0 < m.ny) [.matrix "C" m.C] ++
  onlyIf (0 < m.ny && 0 < m.nu) [.matrix "D" m.D] ++
  onlyIf (0 < m.nx) [.vector "x0_reset" m.x0] ++
  onlyIf (0 < m.nu) [.vector "u0_reset" m.u0]

def unit [Coefficient α] [Zero α] (m : StateSpace α) (id : Identity) (step : α) :
    List (Item α) :=
  let l := m.layout
  opening l id step ++ instances l ++
  registerMacros l ++ .blank ::
  referenceTables l ++ .blank ::
  coefficientTables m ++ .blank ::
  .passage support :: .blank ::
  Hooks.items l ++
  [.header skeletonImplementation, .blank, .linkageClose]

end Source
end LtiUnit
