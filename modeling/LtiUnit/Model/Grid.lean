/-!
# LtiUnit.Model.Grid

Rectangular grids of numbers, the matrices of a model. A grid may have no rows and still a width,
or rows without columns.

* `Grid.ofFn` — a grid given entry by entry, with `entry_ofFn` reading it back.
* `Grid.ofRows?` — the grid with the given rows, if they have one length.
-/

namespace LtiUnit
namespace Model

structure Grid (α : Type) where
  cols : Nat
  rows : List (List α)
  width : ∀ row ∈ rows, row.length = cols

namespace Grid

variable {α : Type}

def height (g : Grid α) : Nat := g.rows.length

def entries (g : Grid α) : List α := g.rows.flatten

/-- Entry in row `i` and column `j`, counted from zero; `zero` outside the grid. -/
def entryD (g : Grid α) (i j : Nat) (zero : α) : α := (g.rows.getD i []).getD j zero

/-- The grid with entry `f i j` in row `i` and column `j`. -/
def ofFn (height cols : Nat) (f : Nat → Nat → α) : Grid α where
  cols := cols
  rows := (List.range height).map fun i => (List.range cols).map (f i)
  width := by
    intro row h
    obtain ⟨i, _, rfl⟩ := List.mem_map.1 h
    simp

def zeros [Zero α] (height cols : Nat) : Grid α := ofFn height cols fun _ _ => 0

def identity [Zero α] [One α] (n : Nat) : Grid α := ofFn n n fun i j => if i = j then 1 else 0

@[simp] theorem height_ofFn (m n : Nat) (f : Nat → Nat → α) : (ofFn m n f).height = m := by
  simp [height, ofFn]

@[simp] theorem cols_ofFn (m n : Nat) (f : Nat → Nat → α) : (ofFn m n f).cols = n := rfl

theorem entryD_ofFn {m n i j : Nat} (f : Nat → Nat → α) (zero : α) (hi : i < m) (hj : j < n) :
    (ofFn m n f).entryD i j zero = f i j := by
  simp [entryD, ofFn, hi, hj]

/-- A row whose length is not that of the first row. -/
structure Ragged where
  row : Nat
  length : Nat
  expected : Nat
  deriving DecidableEq, Repr

/-- The first row that is not `cols` long, counting rows from `i`. -/
def firstRagged? (cols : Nat) : Nat → List (List α) → Option Ragged
  | _, [] => none
  | i, row :: rows =>
    if row.length = cols then firstRagged? cols (i + 1) rows else some ⟨i, row.length, cols⟩

theorem firstRagged?_eq_none_iff {cols i : Nat} {rows : List (List α)} :
    firstRagged? cols i rows = none ↔ ∀ row ∈ rows, row.length = cols := by
  induction rows generalizing i with
  | nil => simp [firstRagged?]
  | cons row rows ih => by_cases h : row.length = cols <;> simp [firstRagged?, h, ih]

/-- Length of the first row; no rows have no columns. -/
def widthOf (rows : List (List α)) : Nat := (rows.head?.map List.length).getD 0

/-- The grid with the given rows, or the first row that differs in length from the first one. -/
def ofRows? (rows : List (List α)) : Except Ragged (Grid α) :=
  match h : firstRagged? (widthOf rows) 0 rows with
  | some r => .error r
  | none => .ok ⟨widthOf rows, rows, firstRagged?_eq_none_iff.1 h⟩

end Grid

end Model
end LtiUnit
