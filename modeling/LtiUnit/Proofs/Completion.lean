import LtiUnit.Model.Description

/-!
# LtiUnit.Proofs.Completion

Which matrices given for a state space have a realization, and which one it is.

The numbers of states, inputs and outputs are read off the matrices that are given
(`MatrixForm.nx`, `nu`, `ny`), and every matrix has its shape by them (`shape`).

* `ReadAs.get_complete` — each matrix of the completion is the one given or what stands for it.
* `realizeMatrices_eq_ok_iff_fits` — matrices are accepted exactly if they fit (`Fits`), and the
  realization keeps them and fills in the others (`CompletedBy`).
* `stateSpace_realize` — the same of a description in doubles; no row is read past its end.
-/

namespace LtiUnit
namespace Model

variable {α : Type}

namespace Grid

theorem eq_of_rows {g h : Grid α} (hcols : g.cols = h.cols) (hrows : g.rows = h.rows) : g = h := by
  cases g
  cases h
  simp only at hcols hrows
  subst hcols hrows
  rfl

theorem ofRows?_eq_ok_iff {rows : List (List α)} {g : Grid α} :
    ofRows? rows = .ok g ↔
      (∀ row ∈ rows, row.length = widthOf rows) ∧ g.cols = widthOf rows ∧ g.rows = rows := by
  unfold ofRows?
  split
  · rename_i r h
    have hragged : ¬∀ row ∈ rows, row.length = widthOf rows := by
      intro hall
      rw [firstRagged?_eq_none_iff.2 hall] at h
      cases h
    simp [hragged]
  · rename_i h
    have hall := firstRagged?_eq_none_iff.1 h
    constructor
    · intro hg
      cases hg
      exact ⟨hall, rfl, rfl⟩
    · rintro ⟨-, hcols, hrows⟩
      exact congrArg Except.ok (eq_of_rows hcols.symm hrows.symm)

section

variable [Zero α]

@[simp] theorem height_zeros (m n : Nat) : (zeros m n : Grid α).height = m := height_ofFn ..

@[simp] theorem cols_zeros (m n : Nat) : (zeros m n : Grid α).cols = n := rfl

variable [One α]

@[simp] theorem height_identity (n : Nat) : (identity n : Grid α).height = n := height_ofFn ..

@[simp] theorem cols_identity (n : Nat) : (identity n : Grid α).cols = n := rfl

end

/-- The rows have an entry at every place of the grid, the one the grid has there. -/
structure Covered (rows : List (List α)) (g : Grid α) : Prop where
  height : g.height = rows.length
  cols : g.cols = widthOf rows
  entry : ∀ i < rows.length, ∀ j < widthOf rows, ∃ row x,
    rows[i]? = some row ∧ row[j]? = some x ∧ ∀ zero, g.entryD i j zero = x

theorem covered_of_ofRows? {rows : List (List α)} {g : Grid α} (h : ofRows? rows = .ok g) :
    Covered rows g := by
  obtain ⟨hall, hcols, hrows⟩ := ofRows?_eq_ok_iff.1 h
  refine ⟨congrArg List.length hrows, hcols, ?_⟩
  intro i hi j hj
  have hlength := hall rows[i] (List.getElem_mem hi)
  rw [← hlength] at hj
  refine ⟨rows[i], rows[i][j], List.getElem?_eq_getElem hi, List.getElem?_eq_getElem hj, ?_⟩
  intro zero
  simp [entryD, hrows, hi, hj]

section Finite

variable [Coefficient α]

theorem allFinite_ofFn {m n : Nat} {f : Nat → Nat → α}
    (h : ∀ i j, Coefficient.isFinite (f i j) = true) : allFinite (ofFn m n f).entries = true := by
  rw [allFinite, List.all_eq_true]
  intro x hx
  obtain ⟨row, hrow, hx⟩ := List.mem_flatten.1 hx
  obtain ⟨i, -, rfl⟩ := List.mem_map.1 hrow
  obtain ⟨j, -, rfl⟩ := List.mem_map.1 hx
  exact h i j

variable [Zero α]

theorem allFinite_zeros (hzero : Coefficient.isFinite (0 : α) = true) (m n : Nat) :
    allFinite (zeros m n : Grid α).entries = true :=
  allFinite_ofFn fun _ _ => hzero

theorem allFinite_identity [One α] (hzero : Coefficient.isFinite (0 : α) = true)
    (hone : Coefficient.isFinite (1 : α) = true) (n : Nat) :
    allFinite (identity n : Grid α).entries = true :=
  allFinite_ofFn fun i j => by split <;> assumption

end Finite

end Grid

/-! ## Checked matrices -/

namespace Matrices

def get (m : Matrices α) : MatrixName → Grid α
  | .A => m.A
  | .B => m.B
  | .C => m.C
  | .D => m.D

theorem eq_of_get {m m' : Matrices α} (h : ∀ name, m.get name = m'.get name) : m = m' := by
  have hA : m.A = m'.A := h .A
  have hB : m.B = m'.B := h .B
  have hC : m.C = m'.C := h .C
  have hD : m.D = m'.D := h .D
  cases m
  cases m'
  simp_all

/-- The dimensions of four matrices agree. -/
structure Agree (m : Matrices α) : Prop where
  aSquare : m.A.cols = m.A.height
  bRows : m.B.height = m.A.height
  cColumns : m.C.cols = m.A.height
  dRows : m.D.height = m.C.height
  dColumns : m.D.cols = m.B.cols

end Matrices

namespace StateSpace

variable [Coefficient α]

/-- The matrices of a model. -/
def matrices (m : StateSpace α) : Matrices α := ⟨m.A, m.B, m.C, m.D⟩

theorem eq_of_matrices {m m' : StateSpace α} (h : m.matrices = m'.matrices) (hx : m.x0 = m'.x0)
    (hu : m.u0 = m'.u0) : m = m' := by
  cases m
  cases m'
  simp only [matrices, Matrices.mk.injEq] at h
  obtain ⟨rfl, rfl, rfl, rfl⟩ := h
  subst hx hu
  rfl

/-- A check passed on the way to a result. -/
theorem dite_error_eq_ok_iff {ε β : Type} {p : Prop} [Decidable p] {f : p → Except ε β} {e : ε}
    {x : β} : (if h : p then f h else .error e) = .ok x ↔ ∃ h : p, f h = .ok x := by
  by_cases h : p <;> simp [h]

theorem ofMatrices?_eq_ok_iff [Zero α] {ms : Matrices α} {x0 u0 : Option (List α)}
    {m : StateSpace α} :
    ofMatrices? ms x0 u0 = .ok m ↔
      ms.Agree ∧
        (x0.getD (List.replicate ms.A.height 0)).length = ms.A.height ∧
        (u0.getD (List.replicate ms.B.cols 0)).length = ms.B.cols ∧
        (∀ name, allFinite (ms.get name).entries = true) ∧
        allFinite (x0.getD (List.replicate ms.A.height 0)) = true ∧
        allFinite (u0.getD (List.replicate ms.B.cols 0)) = true ∧
        m.matrices = ms ∧
        m.x0 = x0.getD (List.replicate ms.A.height 0) ∧
        m.u0 = u0.getD (List.replicate ms.B.cols 0) := by
  unfold ofMatrices?
  dsimp only
  constructor
  · intro h
    obtain ⟨aSquare, h⟩ := dite_error_eq_ok_iff.1 h
    obtain ⟨bRows, h⟩ := dite_error_eq_ok_iff.1 h
    obtain ⟨cColumns, h⟩ := dite_error_eq_ok_iff.1 h
    obtain ⟨dRows, h⟩ := dite_error_eq_ok_iff.1 h
    obtain ⟨dColumns, h⟩ := dite_error_eq_ok_iff.1 h
    obtain ⟨x0Length, h⟩ := dite_error_eq_ok_iff.1 h
    obtain ⟨u0Length, h⟩ := dite_error_eq_ok_iff.1 h
    obtain ⟨aFinite, h⟩ := dite_error_eq_ok_iff.1 h
    obtain ⟨bFinite, h⟩ := dite_error_eq_ok_iff.1 h
    obtain ⟨cFinite, h⟩ := dite_error_eq_ok_iff.1 h
    obtain ⟨dFinite, h⟩ := dite_error_eq_ok_iff.1 h
    obtain ⟨x0Finite, h⟩ := dite_error_eq_ok_iff.1 h
    obtain ⟨u0Finite, h⟩ := dite_error_eq_ok_iff.1 h
    cases h
    have hfinite : ∀ name, allFinite (ms.get name).entries = true := by
      intro name
      cases name <;> assumption
    exact ⟨⟨aSquare, bRows, cColumns, dRows, dColumns⟩, x0Length, u0Length, hfinite, x0Finite,
      u0Finite, rfl, rfl, rfl⟩
  · rintro ⟨hagree, x0Length, u0Length, hfinite, x0Finite, u0Finite, hm, hx, hu⟩
    have aFinite : allFinite ms.A.entries = true := hfinite .A
    have bFinite : allFinite ms.B.entries = true := hfinite .B
    have cFinite : allFinite ms.C.entries = true := hfinite .C
    have dFinite : allFinite ms.D.entries = true := hfinite .D
    rw [dif_pos hagree.aSquare, dif_pos hagree.bRows, dif_pos hagree.cColumns,
      dif_pos hagree.dRows, dif_pos hagree.dColumns, dif_pos x0Length, dif_pos u0Length,
      dif_pos aFinite, dif_pos bFinite, dif_pos cFinite, dif_pos dFinite, dif_pos x0Finite,
      dif_pos u0Finite]
    exact congrArg Except.ok (eq_of_matrices hm.symm hx.symm hu.symm)

theorem exists_ofMatrices? [Zero α] {ms : Matrices α} {x0 u0 : Option (List α)}
    (hagree : ms.Agree)
    (x0Length : (x0.getD (List.replicate ms.A.height 0)).length = ms.A.height)
    (u0Length : (u0.getD (List.replicate ms.B.cols 0)).length = ms.B.cols)
    (hfinite : ∀ name, allFinite (ms.get name).entries = true)
    (x0Finite : allFinite (x0.getD (List.replicate ms.A.height 0)) = true)
    (u0Finite : allFinite (u0.getD (List.replicate ms.B.cols 0)) = true) :
    ∃ m, ofMatrices? ms x0 u0 = .ok m :=
  ⟨⟨_, _, _, _, _, _, hagree.aSquare, hagree.bRows, hagree.cColumns, hagree.dRows, hagree.dColumns,
      x0Length, u0Length, hfinite .A, hfinite .B, hfinite .C, hfinite .D, x0Finite, u0Finite⟩,
    ofMatrices?_eq_ok_iff.2
      ⟨hagree, x0Length, u0Length, hfinite, x0Finite, u0Finite, rfl, rfl, rfl⟩⟩

end StateSpace

/-! ## The rule table -/

namespace MatrixForm

def given (f : MatrixForm α) : MatrixName → Option (List (List α))
  | .A => f.A
  | .B => f.B
  | .C => f.C
  | .D => f.D

/-- Number of states: rows of `A`, else of `B`. -/
def nx (f : MatrixForm α) : Nat :=
  match f.A, f.B with
  | some rows, _ => rows.length
  | none, some rows => rows.length
  | none, none => 0

/-- Number of inputs: columns of `B`, else of `D`. -/
def nu (f : MatrixForm α) : Nat :=
  match f.B, f.D with
  | some rows, _ => Grid.widthOf rows
  | none, some rows => Grid.widthOf rows
  | none, none => 0

/-- Number of outputs: rows of `C`, else of `D`, else one for every state. -/
def ny (f : MatrixForm α) : Nat :=
  match f.C, f.D with
  | some rows, _ => rows.length
  | none, some rows => rows.length
  | none, none => f.nx

def height (f : MatrixForm α) : MatrixName → Nat
  | .A | .B => f.nx
  | .C | .D => f.ny

def width (f : MatrixForm α) : MatrixName → Nat
  | .A | .C => f.nx
  | .B | .D => f.nu

/-- What stands for a matrix that is left out. -/
def filling [Zero α] [One α] (f : MatrixForm α) (name : MatrixName) : Grid α :=
  if name = .C ∧ f.D = none then .identity f.nx else .zeros (f.height name) (f.width name)

/-- The matrices and start values that are given fit each other. -/
structure Fits [Coefficient α] (f : MatrixForm α) : Prop where
  someGiven : ∃ name, f.given name ≠ none
  sized : ¬(f.C ≠ none ∧ f.A = none ∧ f.D = none)
  rectangular : ∀ name rows, f.given name = some rows →
    ∀ row ∈ rows, row.length = Grid.widthOf rows
  shaped : ∀ name rows, f.given name = some rows →
    rows.length = f.height name ∧ Grid.widthOf rows = f.width name
  x0Length : ∀ x, f.x0 = some x → x.length = f.nx
  u0Length : ∀ u, f.u0 = some u → u.length = f.nu
  finite : ∀ name rows, f.given name = some rows → allFinite rows.flatten = true
  x0Finite : ∀ x, f.x0 = some x → allFinite x = true
  u0Finite : ∀ u, f.u0 = some u → allFinite u = true

/-- A model is the given matrices and start values, the others filled in. -/
structure CompletedBy [Coefficient α] [Zero α] [One α] (f : MatrixForm α) (m : StateSpace α) :
    Prop where
  states : m.nx = f.nx
  inputs : m.nu = f.nu
  outputs : m.ny = f.ny
  kept : ∀ name rows, f.given name = some rows → (m.matrices.get name).rows = rows
  filled : ∀ name, f.given name = none → m.matrices.get name = f.filling name
  x0 : m.x0 = f.x0.getD (List.replicate f.nx 0)
  u0 : m.u0 = f.u0.getD (List.replicate f.nu 0)

end MatrixForm

theorem readMatrix_eq_ok_iff {name : MatrixName} {rows : Option (List (List α))}
    {g : Option (Grid α)} :
    readMatrix name rows = .ok g ↔
      g.map Grid.rows = rows ∧ ∀ h ∈ g, h.cols = Grid.widthOf h.rows := by
  cases rows with
  | none => cases g <;> simp [readMatrix]
  | some rows =>
    constructor
    · intro h
      unfold readMatrix at h
      cases hread : Grid.ofRows? rows with
      | error r => simp [hread] at h
      | ok g' =>
        simp only [hread, Except.ok.injEq] at h
        subst h
        obtain ⟨-, hcols, rfl⟩ := Grid.ofRows?_eq_ok_iff.1 hread
        simpa using hcols
    · rintro ⟨hrows, hcols⟩
      obtain ⟨g', rfl, rfl⟩ := Option.map_eq_some_iff.1 hrows
      have hcols := hcols g' rfl
      have hread : Grid.ofRows? g'.rows = .ok g' := by
        refine Grid.ofRows?_eq_ok_iff.2 ⟨?_, hcols, rfl⟩
        intro row hrow
        rw [g'.width row hrow, hcols]
      simp [readMatrix, hread]

namespace MatrixForm

variable {f : MatrixForm α} {g : MatrixName → Option (Grid α)}

theorem bind_eq_ok_iff {ε β γ : Type} {x : Except ε β} {k : β → Except ε γ} {c : γ} :
    x >>= k = .ok c ↔ ∃ b, x = .ok b ∧ k b = .ok c := by
  cases x with
  | error e => simp [bind, Except.bind]
  | ok b => simp [bind, Except.bind]

section

variable [Zero α] [One α]

theorem height_filling {name : MatrixName} (hname : f.given name = none) :
    (f.filling name).height = f.height name := by
  unfold filling
  split
  · rename_i h
    obtain ⟨rfl, hd⟩ := h
    have hc : f.C = none := hname
    simp [height, ny, hc, hd]
  · simp

theorem cols_filling (name : MatrixName) : (f.filling name).cols = f.width name := by
  unfold filling
  split
  · rename_i h
    obtain ⟨rfl, -⟩ := h
    simp [width]
  · simp

theorem allFinite_filling [Coefficient α] (hzero : Coefficient.isFinite (0 : α) = true)
    (hone : Coefficient.isFinite (1 : α) = true) (name : MatrixName) :
    allFinite (f.filling name).entries = true := by
  unfold filling
  split
  · exact Grid.allFinite_identity hzero hone _
  · exact Grid.allFinite_zeros hzero ..

end

/-- The grids read from the given matrices. -/
def ReadAs (f : MatrixForm α) (g : MatrixName → Option (Grid α)) : Prop :=
  ∀ name, readMatrix name (f.given name) = .ok (g name)

namespace ReadAs

theorem given (hg : f.ReadAs g) (name : MatrixName) :
    f.given name = (g name).map Grid.rows :=
  (readMatrix_eq_ok_iff.1 (hg name)).1.symm

theorem given_of_some (hg : f.ReadAs g) {name : MatrixName} {h : Grid α} (hname : g name = some h) :
    f.given name = some h.rows := by
  rw [hg.given name, hname, Option.map_some]

theorem cols (hg : f.ReadAs g) {name : MatrixName} {h : Grid α} (hname : g name = some h) :
    h.cols = Grid.widthOf h.rows :=
  (readMatrix_eq_ok_iff.1 (hg name)).2 h hname

theorem isNone_iff (hg : f.ReadAs g) {name : MatrixName} :
    (g name).isNone = true ↔ f.given name = none := by
  rw [hg.given, Option.isNone_iff_eq_none, Option.map_eq_none_iff]

theorem noneGiven_iff (hg : f.ReadAs g) :
    ((g .A).isNone && (g .B).isNone && (g .C).isNone && (g .D).isNone) = true ↔
      ∀ name, f.given name = none := by
  simp only [Bool.and_eq_true, hg.isNone_iff]
  constructor
  · rintro ⟨⟨⟨hA, hB⟩, hC⟩, hD⟩ name
    cases name <;> assumption
  · intro h
    exact ⟨⟨⟨h .A, h .B⟩, h .C⟩, h .D⟩

theorem unsized_iff (hg : f.ReadAs g) :
    ((g .C).isSome && (g .A).isNone && (g .D).isNone) = true ↔
      f.C ≠ none ∧ f.A = none ∧ f.D = none := by
  rw [← Option.not_isNone]
  simp only [Bool.and_eq_true, Bool.not_eq_true', ← Bool.not_eq_true, hg.isNone_iff, and_assoc]
  rfl

theorem nx_eq (hg : f.ReadAs g) :
    (((g .A) <|> (g .B)).map Grid.height).getD 0 = f.nx := by
  have ha : f.A = (g .A).map Grid.rows := hg.given .A
  have hb : f.B = (g .B).map Grid.rows := hg.given .B
  rw [nx, ha, hb]
  cases g .A <;> cases g .B <;> rfl

theorem nu_eq (hg : f.ReadAs g) :
    (((g .B) <|> (g .D)).map Grid.cols).getD 0 = f.nu := by
  have hb : f.B = (g .B).map Grid.rows := hg.given .B
  have hd : f.D = (g .D).map Grid.rows := hg.given .D
  rw [nu, hb, hd]
  cases hB : g .B with
  | some b => exact hg.cols hB
  | none =>
    cases hD : g .D with
    | some d => exact hg.cols hD
    | none => rfl

variable [Zero α] [One α]

/-- Every matrix of the completion is the one given or what stands for it. -/
theorem get_complete (hg : f.ReadAs g) (name : MatrixName) :
    (complete (g .A) (g .B) (g .C) (g .D)).get name = (g name).getD (f.filling name) := by
  have hc : f.C = (g .C).map Grid.rows := hg.given .C
  have hd : f.D = (g .D).map Grid.rows := hg.given .D
  have hnx := hg.nx_eq
  have hnu := hg.nu_eq
  unfold complete
  dsimp only [Matrices.get]
  rw [hnx, hnu]
  cases name with
  | A => simp [filling, height, width]
  | B => simp [filling, height, width]
  | C =>
    cases hC : g .C with
    | some c => rfl
    | none =>
      rw [hC] at hc
      cases hD : g .D with
      | some d =>
        rw [hD] at hd
        simp [filling, height, width, ny, hc, hd, Grid.height]
      | none =>
        rw [hD] at hd
        simp [filling, hd]
  | D =>
    cases hD : g .D with
    | some d => rfl
    | none =>
      rw [hD] at hd
      cases hC : g .C with
      | some c =>
        rw [hC] at hc
        simp [filling, height, width, ny, hc, Grid.height]
      | none =>
        rw [hC] at hc
        simp [filling, height, width, ny, hc, hd]

theorem complete_A_height (hg : f.ReadAs g) :
    (complete (g .A) (g .B) (g .C) (g .D)).A.height = f.nx := by
  have hA : (complete (g .A) (g .B) (g .C) (g .D)).A = (g .A).getD (f.filling .A) :=
    hg.get_complete .A
  have hnx := hg.nx_eq
  rw [hA]
  cases hgA : g .A with
  | some a => simpa [hgA] using hnx
  | none => simp [filling, height]

theorem complete_B_cols (hg : f.ReadAs g) :
    (complete (g .A) (g .B) (g .C) (g .D)).B.cols = f.nu := by
  have hB : (complete (g .A) (g .B) (g .C) (g .D)).B = (g .B).getD (f.filling .B) :=
    hg.get_complete .B
  have hnu := hg.nu_eq
  rw [hB]
  cases hgB : g .B with
  | some b => simpa [hgB] using hnu
  | none => simp [filling, width]

theorem complete_C_height (hg : f.ReadAs g) :
    (complete (g .A) (g .B) (g .C) (g .D)).C.height = f.ny := by
  have hC : (complete (g .A) (g .B) (g .C) (g .D)).C = (g .C).getD (f.filling .C) :=
    hg.get_complete .C
  have hc : f.C = (g .C).map Grid.rows := hg.given .C
  have hd : f.D = (g .D).map Grid.rows := hg.given .D
  rw [hC]
  cases hgC : g .C with
  | some c => simp [ny, hc, hgC, Grid.height]
  | none =>
    rw [hgC] at hc
    cases hgD : g .D <;> simp [filling, height, ny, hc, hd, hgD]

/-- The dimensions of the completion agree exactly if every given matrix has its shape. -/
theorem complete_agree_iff (hg : f.ReadAs g) :
    (complete (g .A) (g .B) (g .C) (g .D)).Agree ↔
      ∀ name rows, f.given name = some rows →
        rows.length = f.height name ∧ Grid.widthOf rows = f.width name := by
  have hshape : (complete (g .A) (g .B) (g .C) (g .D)).Agree ↔
      ∀ name, ((complete (g .A) (g .B) (g .C) (g .D)).get name).height = f.height name ∧
        ((complete (g .A) (g .B) (g .C) (g .D)).get name).cols = f.width name := by
    constructor
    · rintro ⟨aSquare, bRows, cColumns, dRows, dColumns⟩ name
      rw [hg.complete_A_height] at aSquare bRows cColumns
      rw [hg.complete_C_height] at dRows
      rw [hg.complete_B_cols] at dColumns
      cases name with
      | A => exact ⟨hg.complete_A_height, aSquare⟩
      | B => exact ⟨bRows, hg.complete_B_cols⟩
      | C => exact ⟨hg.complete_C_height, cColumns⟩
      | D => exact ⟨dRows, dColumns⟩
    · intro h
      exact ⟨(h .A).2.trans (h .A).1.symm, (h .B).1.trans (h .A).1.symm,
        (h .C).2.trans (h .A).1.symm, (h .D).1.trans (h .C).1.symm,
        (h .D).2.trans (h .B).2.symm⟩
  rw [hshape]
  refine forall_congr' fun name => ?_
  rw [hg.get_complete]
  cases hname : g name with
  | some h => simp [hg.given_of_some hname, Grid.height, hg.cols hname]
  | none =>
    have hgiven : f.given name = none := by rw [hg.given, hname, Option.map_none]
    simp [hgiven, height_filling hgiven, cols_filling]

theorem finite_get_iff [Coefficient α] (hg : f.ReadAs g)
    (hzero : Coefficient.isFinite (0 : α) = true) (hone : Coefficient.isFinite (1 : α) = true) :
    (∀ name, allFinite ((complete (g .A) (g .B) (g .C) (g .D)).get name).entries = true) ↔
      ∀ name rows, f.given name = some rows → allFinite rows.flatten = true := by
  refine forall_congr' fun name => ?_
  rw [hg.get_complete]
  cases hname : g name with
  | some h => simp [hg.given_of_some hname, Grid.entries]
  | none =>
    have hgiven : f.given name = none := by rw [hg.given, hname, Option.map_none]
    simp [hgiven, allFinite_filling hzero hone]

end ReadAs

section Realization

variable [Coefficient α] [Zero α] [One α]

theorem realizeMatrices_eq_ok_iff {m : StateSpace α} :
    realizeMatrices f.A f.B f.C f.D f.x0 f.u0 = .ok m ↔
      ∃ g, f.ReadAs g ∧ (∃ name, f.given name ≠ none) ∧ ¬(f.C ≠ none ∧ f.A = none ∧ f.D = none) ∧
        StateSpace.ofMatrices? (complete (g .A) (g .B) (g .C) (g .D)) f.x0 f.u0 = .ok m := by
  unfold realizeMatrices
  simp only [bind_eq_ok_iff]
  constructor
  · rintro ⟨a, ha, b, hb, c, hc, d, hd, h⟩
    let g : MatrixName → Option (Grid α)
      | .A => a
      | .B => b
      | .C => c
      | .D => d
    have hg : f.ReadAs g := by
      intro name
      cases name <;> assumption
    split at h
    · cases h
    · rename_i hgiven
      split at h
      · cases h
      · rename_i hsized
        exact ⟨g, hg, Classical.not_forall.1 (mt hg.noneGiven_iff.2 hgiven),
          mt hg.unsized_iff.2 hsized, h⟩
  · rintro ⟨g, hg, hgiven, hsized, h⟩
    refine ⟨g .A, hg .A, g .B, hg .B, g .C, hg .C, g .D, hg .D, ?_⟩
    rw [if_neg (mt hg.noneGiven_iff.1 (Classical.not_forall.2 hgiven)),
      if_neg (mt hg.unsized_iff.1 hsized)]
    exact h

omit [Coefficient α] [One α] in
theorem length_start_iff {x : Option (List α)} {n : Nat} :
    (x.getD (List.replicate n 0)).length = n ↔ ∀ xs, x = some xs → xs.length = n := by
  cases x <;> simp

omit [One α] in
theorem allFinite_start_iff (hzero : Coefficient.isFinite (0 : α) = true) {x : Option (List α)}
    {n : Nat} :
    allFinite (x.getD (List.replicate n 0)) = true ↔ ∀ xs, x = some xs → allFinite xs = true := by
  cases x <;> simp [allFinite, hzero]

/-- The checks on the completion of matrices that were read. -/
theorem ReadAs.ofMatrices?_eq_ok_iff (hg : f.ReadAs g)
    (hzero : Coefficient.isFinite (0 : α) = true) (hone : Coefficient.isFinite (1 : α) = true)
    {m : StateSpace α} :
    StateSpace.ofMatrices? (complete (g .A) (g .B) (g .C) (g .D)) f.x0 f.u0 = .ok m ↔
      (∀ name rows, f.given name = some rows →
        rows.length = f.height name ∧ Grid.widthOf rows = f.width name) ∧
        (∀ x, f.x0 = some x → x.length = f.nx) ∧ (∀ u, f.u0 = some u → u.length = f.nu) ∧
        (∀ name rows, f.given name = some rows → allFinite rows.flatten = true) ∧
        (∀ x, f.x0 = some x → allFinite x = true) ∧ (∀ u, f.u0 = some u → allFinite u = true) ∧
        m.matrices = complete (g .A) (g .B) (g .C) (g .D) ∧
        m.x0 = f.x0.getD (List.replicate f.nx 0) ∧ m.u0 = f.u0.getD (List.replicate f.nu 0) := by
  rw [StateSpace.ofMatrices?_eq_ok_iff, hg.complete_agree_iff, hg.complete_A_height,
    hg.complete_B_cols, hg.finite_get_iff hzero hone, length_start_iff, length_start_iff,
    allFinite_start_iff hzero, allFinite_start_iff hzero]

theorem ReadAs.completedBy (hg : f.ReadAs g) {m : StateSpace α}
    (hm : m.matrices = complete (g .A) (g .B) (g .C) (g .D))
    (hx : m.x0 = f.x0.getD (List.replicate f.nx 0))
    (hu : m.u0 = f.u0.getD (List.replicate f.nu 0)) : f.CompletedBy m where
  states := by rw [← hg.complete_A_height, ← hm]; rfl
  inputs := by rw [← hg.complete_B_cols, ← hm]; rfl
  outputs := by rw [← hg.complete_C_height, ← hm]; rfl
  kept := by
    intro name rows hrows
    rw [hg.given] at hrows
    obtain ⟨h, hname, rfl⟩ := Option.map_eq_some_iff.1 hrows
    rw [hm, hg.get_complete, hname, Option.getD_some]
  filled := by
    intro name hnone
    rw [hg.given, Option.map_eq_none_iff] at hnone
    rw [hm, hg.get_complete, hnone, Option.getD_none]
  x0 := hx
  u0 := hu

omit [Zero α] [One α] in
/-- Rows of one length can be read. -/
theorem Fits.exists_readAs (hf : f.Fits) : ∃ g, f.ReadAs g := by
  have hread : ∀ name, ∃ g, readMatrix name (f.given name) = .ok g := by
    intro name
    cases hname : f.given name with
    | none => exact ⟨none, rfl⟩
    | some rows =>
      let h : Grid α := ⟨Grid.widthOf rows, rows, hf.rectangular name rows hname⟩
      refine ⟨some h, readMatrix_eq_ok_iff.2 ⟨rfl, ?_⟩⟩
      rintro _ ⟨⟩
      rfl
  exact Classical.skolem.1 hread

/-- Only one model is the completion of matrices that fit. -/
theorem CompletedBy.matrices_eq {m : StateSpace α} (hm : f.CompletedBy m) (hf : f.Fits)
    (hg : f.ReadAs g) : m.matrices = complete (g .A) (g .B) (g .C) (g .D) := by
  have hcols : ∀ name, (m.matrices.get name).cols = f.width name := by
    intro name
    cases name with
    | A => exact m.aSquare.trans hm.states
    | B => exact hm.inputs
    | C => exact m.cColumns.trans hm.states
    | D => exact m.dColumns.trans hm.inputs
  refine Matrices.eq_of_get fun name => ?_
  rw [hg.get_complete]
  cases hname : g name with
  | none =>
    have hgiven : f.given name = none := by rw [hg.given, hname, Option.map_none]
    exact hm.filled name hgiven
  | some h =>
    have hgiven := hg.given_of_some hname
    refine Grid.eq_of_rows ?_ (hm.kept name h.rows hgiven)
    rw [hcols, Option.getD_some, hg.cols hname, (hf.shaped name h.rows hgiven).2]

theorem Fits.exists_realization (hf : f.Fits) (hzero : Coefficient.isFinite (0 : α) = true)
    (hone : Coefficient.isFinite (1 : α) = true) :
    ∃ m, realizeMatrices f.A f.B f.C f.D f.x0 f.u0 = .ok m := by
  obtain ⟨g, hg⟩ := hf.exists_readAs
  have hxLength := length_start_iff.2 hf.x0Length
  have huLength := length_start_iff.2 hf.u0Length
  have hxFinite := (allFinite_start_iff (n := f.nx) hzero).2 hf.x0Finite
  have huFinite := (allFinite_start_iff (n := f.nu) hzero).2 hf.u0Finite
  rw [← hg.complete_A_height] at hxLength hxFinite
  rw [← hg.complete_B_cols] at huLength huFinite
  obtain ⟨m, hm⟩ := StateSpace.exists_ofMatrices? (hg.complete_agree_iff.2 hf.shaped) hxLength
    huLength ((hg.finite_get_iff hzero hone).2 hf.finite) hxFinite huFinite
  exact ⟨m, realizeMatrices_eq_ok_iff.2 ⟨g, hg, hf.someGiven, hf.sized, hm⟩⟩

/-- The matrices of a state space have a realization exactly if they fit, and it is they themselves,
completed by the rule table. -/
theorem realizeMatrices_eq_ok_iff_fits (hzero : Coefficient.isFinite (0 : α) = true)
    (hone : Coefficient.isFinite (1 : α) = true) {m : StateSpace α} :
    realizeMatrices f.A f.B f.C f.D f.x0 f.u0 = .ok m ↔ f.Fits ∧ f.CompletedBy m := by
  rw [realizeMatrices_eq_ok_iff]
  constructor
  · rintro ⟨g, hg, hgiven, hsized, h⟩
    obtain ⟨hshaped, hxLength, huLength, hfinite, hxFinite, huFinite, hm, hx, hu⟩ :=
      (hg.ofMatrices?_eq_ok_iff hzero hone).1 h
    have hrectangular : ∀ name rows, f.given name = some rows →
        ∀ row ∈ rows, row.length = Grid.widthOf rows := by
      intro name rows hrows row hrow
      rw [hg.given] at hrows
      obtain ⟨h, hname, rfl⟩ := Option.map_eq_some_iff.1 hrows
      rw [h.width row hrow, hg.cols hname]
    exact ⟨⟨hgiven, hsized, hrectangular, hshaped, hxLength, huLength, hfinite, hxFinite, huFinite⟩,
      hg.completedBy hm hx hu⟩
  · rintro ⟨hf, hm⟩
    obtain ⟨g, hg⟩ := hf.exists_readAs
    refine ⟨g, hg, hf.someGiven, hf.sized, (hg.ofMatrices?_eq_ok_iff hzero hone).2
      ⟨hf.shaped, hf.x0Length, hf.u0Length, hf.finite, hf.x0Finite, hf.u0Finite,
        hm.matrices_eq hf hg, hm.x0, hm.u0⟩⟩

end Realization

theorem float_isFinite_zero : Coefficient.isFinite (0 : Float) = true := by decide

theorem float_isFinite_one : Coefficient.isFinite (1 : Float) = true := by decide

/-- A state space of any matrices has a realization exactly if they fit the rule table; the
realization is then their completion by it. Wherever the rows of a matrix are read they have an
entry at every place of the grid. -/
theorem stateSpace_realize (f : MatrixForm Float) :
    ((∃ m, (Description.stateSpace f).realize = .ok m) ↔ f.Fits) ∧
      (∀ m, (Description.stateSpace f).realize = .ok m → f.CompletedBy m) ∧
      ∀ name rows g, f.given name = some rows → readMatrix name (some rows) = .ok g →
        ∃ grid, g = some grid ∧ grid.Covered rows := by
  have hiff := fun m => realizeMatrices_eq_ok_iff_fits (f := f) (m := m) float_isFinite_zero
    float_isFinite_one
  refine ⟨⟨?_, ?_⟩, ?_, ?_⟩
  · rintro ⟨m, hm⟩
    exact ((hiff m).1 hm).1
  · intro hf
    exact hf.exists_realization float_isFinite_zero float_isFinite_one
  · intro m hm
    exact ((hiff m).1 hm).2
  · intro name rows g _ hread
    obtain ⟨hrows, hcols⟩ := readMatrix_eq_ok_iff.1 hread
    obtain ⟨grid, rfl, rfl⟩ := Option.map_eq_some_iff.1 hrows
    refine ⟨grid, rfl, Grid.covered_of_ofRows? (Grid.ofRows?_eq_ok_iff.2 ⟨?_, hcols grid rfl, rfl⟩)⟩
    intro row hrow
    rw [grid.width row hrow, hcols grid rfl]

end MatrixForm

end Model
end LtiUnit
