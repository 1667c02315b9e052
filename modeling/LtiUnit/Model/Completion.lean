import LtiUnit.Model.StateSpace

/-!
# LtiUnit.Model.Completion

State-space input with matrices left out. The number of states is that of the rows of `A`, else of
`B`; the number of inputs that of the columns of `B`, else of `D`. What is missing is zero, except
that `C` without `D` is the identity, which shows the states as outputs.
-/

namespace LtiUnit
namespace Model

variable {α : Type}

/-- The rows given for a matrix as a grid; `none` when it is left out. -/
def readMatrix (name : MatrixName) (rows : Option (List (List α))) :
    Except (ModelError α) (Option (Grid α)) :=
  match rows with
  | none => .ok none
  | some rows =>
    match Grid.ofRows? rows with
    | .ok g => .ok (some g)
    | .error r => .error (.ragged name r.row r.length r.expected)

/-- The matrices with the missing ones filled in. -/
def complete [Zero α] [One α] (a b c d : Option (Grid α)) : Matrices α :=
  let nx := ((a <|> b).map Grid.height).getD 0
  let nu := ((b <|> d).map Grid.cols).getD 0
  let outputs : Grid α :=
    match c, d with
    | some c, _ => c
    | none, none => .identity nx
    | none, some d => .zeros d.height nx
  { A := a.getD (.zeros nx nx)
    B := b.getD (.zeros nx nu)
    C := outputs
    D := d.getD (.zeros outputs.height nu) }

def realizeMatrices [Coefficient α] [Zero α] [One α] (a b c d : Option (List (List α)))
    (x0 u0 : Option (List α)) : Except (ModelError α) (StateSpace α) := do
  let a ← readMatrix .A a
  let b ← readMatrix .B b
  let c ← readMatrix .C c
  let d ← readMatrix .D d
  if a.isNone && b.isNone && c.isNone && d.isNone then throw .noMatrices
  if c.isSome && a.isNone && d.isNone then throw .unsizedC
  StateSpace.ofMatrices? (complete a b c d) x0 u0

end Model
end LtiUnit
