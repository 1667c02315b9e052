import LtiUnit.Layout
import LtiUnit.Model.Coefficient
import LtiUnit.Model.Error
import LtiUnit.Model.Grid

/-!
# LtiUnit.Model.StateSpace

The form every model is reduced to: `x' = A x + B u`, `y = C x + D u`, with start values of the
`nx` states and the `nu` inputs; there are `ny` outputs. A value of the type has matching dimensions
and finite numbers; `StateSpace.ofMatrices?` is the only way in and says what does not fit.
-/

namespace LtiUnit
namespace Model

/-- The four matrices of a model, with no word on their dimensions. -/
structure Matrices (α : Type) where
  A : Grid α
  B : Grid α
  C : Grid α
  D : Grid α

structure StateSpace (α : Type) [Coefficient α] where
  A : Grid α
  B : Grid α
  C : Grid α
  D : Grid α
  x0 : List α
  u0 : List α
  aSquare : A.cols = A.height
  bRows : B.height = A.height
  cColumns : C.cols = A.height
  dRows : D.height = C.height
  dColumns : D.cols = B.cols
  x0Length : x0.length = A.height
  u0Length : u0.length = B.cols
  aFinite : allFinite A.entries = true
  bFinite : allFinite B.entries = true
  cFinite : allFinite C.entries = true
  dFinite : allFinite D.entries = true
  x0Finite : allFinite x0 = true
  u0Finite : allFinite u0 = true

namespace StateSpace

variable {α : Type} [Coefficient α]

def nx (m : StateSpace α) : Nat := m.A.height

def nu (m : StateSpace α) : Nat := m.B.cols

def ny (m : StateSpace α) : Nat := m.C.height

def layout (m : StateSpace α) : Layout := ⟨m.nx, m.nu, m.ny⟩

/-- Check the dimensions, then that every number is finite. Start values not given are zero. -/
def ofMatrices? [Zero α] (m : Matrices α) (x0 u0 : Option (List α)) :
    Except (ModelError α) (StateSpace α) :=
  let nx := m.A.height
  let nu := m.B.cols
  let x := x0.getD (List.replicate nx 0)
  let u := u0.getD (List.replicate nu 0)
  if aSquare : m.A.cols = nx then
  if bRows : m.B.height = nx then
  if cColumns : m.C.cols = nx then
  if dRows : m.D.height = m.C.height then
  if dColumns : m.D.cols = nu then
  if x0Length : x.length = nx then
  if u0Length : u.length = nu then
  if aFinite : allFinite m.A.entries = true then
  if bFinite : allFinite m.B.entries = true then
  if cFinite : allFinite m.C.entries = true then
  if dFinite : allFinite m.D.entries = true then
  if x0Finite : allFinite x = true then
  if u0Finite : allFinite u = true then
    .ok ⟨m.A, m.B, m.C, m.D, x, u, aSquare, bRows, cColumns, dRows, dColumns, x0Length, u0Length,
      aFinite, bFinite, cFinite, dFinite, x0Finite, u0Finite⟩
  else .error (.nonFinite .u0)
  else .error (.nonFinite .x0)
  else .error (.nonFinite (.matrix .D))
  else .error (.nonFinite (.matrix .C))
  else .error (.nonFinite (.matrix .B))
  else .error (.nonFinite (.matrix .A))
  else .error (.shape .u0Length nu u.length)
  else .error (.shape .x0Length nx x.length)
  else .error (.shape .dColumns nu m.D.cols)
  else .error (.shape .dRows m.C.height m.D.height)
  else .error (.shape .cColumns nx m.C.cols)
  else .error (.shape .bRows nx m.B.height)
  else .error (.shape .aColumns nx m.A.cols)

end StateSpace

end Model
end LtiUnit
