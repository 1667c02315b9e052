import LtiUnit.Layout
import LtiUnit.Source.Code

/-!
# LtiUnit.Source.Hooks

The routines that a unit supplies to its runtime skeleton: derivatives, outputs, integration over
a communication step, and the start values. A routine that a zero dimension leaves nothing to do
for is left out, unless the skeleton calls it always.
-/

namespace LtiUnit
namespace Source
namespace Hooks

variable {α : Type}

/-- A register of the instance. -/
def register (index : Expr α) : Expr α := .entry (.member (.name "comp") "r") index

/-- The entry of a table in the row of the loop counter `i`. -/
def ofI (table : String) : Expr α := .entry (.name table) (.name "i")

/-- The parameter of every routine. -/
def component : TypeName × String := (.component, "comp")

def procedure (name : String) (params : List (TypeName × String)) (body : List (Stmt α)) :
    Function α := ⟨none, name, params, body⟩

/-- A call of a routine on the instance. -/
def run (routine : String) : Stmt α := .call routine [.name "comp"]

/-- Product of row `i` of a matrix with a block of registers. -/
def rowProduct (matrix block length : String) : Rhs α :=
  .call "innerProduct" [ofI matrix, .name block, .name length]

/-- Statements that are there on a condition only. -/
def onlyIf {β : Type} (condition : Bool) (xs : List β) : List β := if condition then xs else []

def innerProduct [Zero α] : Function α :=
  ⟨some .real, "innerProduct", [(.reals, "v1"), (.reals, "v2"), (.size, "n")],
    [.declare .size ["i"],
     .define .real "ret" (.real 0),
     .count "i" true (.name "n")
       [.accumulate (.name "ret") (.expr (.binary .multiply (ofI "v1") (ofI "v2")))],
     .give (.name "ret")]⟩

/-- `der := A x + B u` -/
def updateDerivatives (l : Layout) : Function α :=
  procedure "updateDerivatives" [component]
    [.declare .size ["i"],
     .count "i" false (.name "NX")
       ([.define .reference "der_i" (ofI "vrs_der"),
         .assign (register (.name "der_i")) (rowProduct "A" "_X" "NX")] ++
        onlyIf (0 < l.nu)
          [.accumulate (register (.name "der_i")) (rowProduct "B" "_U" "NU")])]

/-- Forward Euler over `h`, in at least `EULER_SUBSTEPS` equal substeps of at most `STEP_SIZE`. -/
def updateStates : Function α :=
  procedure "updateStates" [component, (.real, "h")]
    [.define .size "n"
       (.cast .size (.paren (.binary .divide (.name "h") (.name "STEP_SIZE")))),
     .declare .size ["k", "i"],
     .declare .real ["dt"],
     .when
       (.binary .less (.binary .multiply (.cast .real (.name "n")) (.name "STEP_SIZE"))
         (.name "h"))
       (.increment "n"),
     .when (.binary .less (.name "n") (.name "EULER_SUBSTEPS"))
       (.assign (.name "n") (.expr (.name "EULER_SUBSTEPS"))),
     .assign (.name "dt") (.expr (.binary .divide (.name "h") (.cast .real (.name "n")))),
     .count "k" false (.name "n")
       [run "updateDerivatives",
        .count "i" false (.name "NX")
          [.accumulate (register (ofI "vrs_x"))
            (.expr (.binary .multiply (.name "dt") (register (ofI "vrs_der"))))]]]

/-- `y := C x + D u` -/
def updateOutputs [Zero α] (l : Layout) : Function α :=
  procedure "updateOutputs" [component]
    (if l.ny = 0 then [.discard "comp"]
     else
      [.declare .size ["i"],
       .count "i" false (.name "NY")
         ([.define .reference "y_i" (ofI "vrs_y"),
           .assign (register (.name "y_i")) (.expr (.real 0))] ++
          onlyIf (0 < l.nx)
            [.accumulate (register (.name "y_i")) (rowProduct "C" "_X" "NX")] ++
          onlyIf (0 < l.nu)
            [.accumulate (register (.name "y_i")) (rowProduct "D" "_U" "NU")])])

def copy (target source length : String) : Stmt α :=
  .call "memcpy"
    [.name target, .name source, .binary .multiply (.name length) (.sizeOf .real)]

/-- `x := x0` -/
def copyX0toX : Function α := procedure "copyX0toX" [component] [copy "_X" "_X0" "NX"]

/-- `x0` and `x` to the start values of the model. -/
def resetX : Function α :=
  procedure "resetX" [component] [copy "_X0" "x0_reset" "NX", run "copyX0toX"]

/-- `u := u0` -/
def copyU0toU : Function α := procedure "copyU0toU" [component] [copy "_U" "_U0" "NU"]

/-- `u0` and `u` to the start values of the model. -/
def resetU : Function α :=
  procedure "resetU" [component] [copy "_U0" "u0_reset" "NU", run "copyU0toU"]

/-- Derivatives and outputs for the present states and inputs. -/
def evaluate (l : Layout) : Function α :=
  procedure "evaluate" [component]
    (onlyIf (0 < l.nx) [run "updateDerivatives"] ++
     onlyIf (0 < l.ny) [run "updateOutputs"] ++
     onlyIf (l.nx == 0 && l.ny == 0) [.discard "comp"])

/-- A function and the blank line after it. -/
def withBlank (f : Function α) : List (Item α) := [.function f, .blank]

def items [Zero α] (l : Layout) : List (Item α) :=
  onlyIf (0 < l.nx || (0 < l.ny && 0 < l.nu)) (withBlank innerProduct) ++
  onlyIf (0 < l.nx)
    (withBlank (updateDerivatives l) ++
     .note "Forward Euler; no substep is longer than STEP_SIZE." :: withBlank updateStates) ++
  withBlank (updateOutputs l) ++
  onlyIf (0 < l.nx) (withBlank copyX0toX ++ withBlank resetX) ++
  onlyIf (0 < l.nu) (withBlank copyU0toU ++ withBlank resetU) ++
  withBlank (evaluate l)

end Hooks
end Source
end LtiUnit
