import LtiUnit.Proofs.Polynomial
import Mathlib.LinearAlgebra.Matrix.Block
import Mathlib.LinearAlgebra.Matrix.NonsingularInverse
import Mathlib.Tactic.LinearCombination
import Mathlib.Tactic.NormNum

/-!
# LtiUnit.Proofs.TransferFunction

The companion form of `num / den` has `num / den` as its transfer function, over any field.

A realization is read at a point `s` through `s 1 - A`. For the companion form its determinant is
the monic denominator (`det_pencil`, by expansion along the first column, which takes one
coefficient off at a time), and it takes the vector of the powers of `s` to a multiple of `B`
(`pencil_mulVec_powers`), so that the inverse need never be written down.

* `companionOf_state`, `companionOf_output`, `companionOf_det` — the three equations for coefficient
  lists of one length.
* `companion_quotient` — what they come to for every quotient that is accepted.
-/

namespace LtiUnit
namespace Model

open Matrix

variable {K : Type} [Field K]

/-- A grid as a matrix of the given dimensions. -/
def Grid.toMatrix (g : Grid K) (m n : Nat) : Matrix (Fin m) (Fin n) K :=
  .of fun i j => g.entryD i j 0

theorem Grid.toMatrix_ofFn (m n : Nat) (f : Nat → Nat → K) (i : Fin m) (j : Fin n) :
    (Grid.ofFn m n f).toMatrix m n i j = f i j := by
  simp [Grid.toMatrix, Grid.entryD_ofFn f 0 i.2 j.2]

/-- The powers of `s` from the zeroth on. -/
def powers (n : Nat) (s : K) : Fin n → K := fun i => s ^ (i : Nat)

/-! ## The pencil of a companion matrix -/

/-- Entries of `s 1 - A` for the companion matrix `A` with `-c 0 … -c (n-1)` in its last row. -/
def pencil (n : Nat) (c : Nat → K) (s : K) : Matrix (Fin n) (Fin n) K :=
  .of fun i j => (if i = j then s else 0) -
    (if (i : Nat) + 1 = n then -c j else if (j : Nat) = i + 1 then 1 else 0)

/-- Without its first row and column a pencil is that of one coefficient less. -/
theorem pencil_submatrix_succ (n : Nat) (c : Nat → K) (s : K) :
    (pencil (n + 1) c s).submatrix Fin.succ Fin.succ = pencil n (fun j => c (j + 1)) s := by
  ext i j
  simp [pencil, Fin.succ_inj]

/-- Without its last row and first column it is triangular. -/
theorem det_pencil_submatrix_castSucc (n : Nat) (c : Nat → K) (s : K) :
    ((pencil (n + 1) c s).submatrix Fin.castSucc Fin.succ).det = (-1) ^ n := by
  have hrow (i : Fin n) : (i : Nat) ≠ n := Nat.ne_of_lt i.2
  have hlow : ((pencil (n + 1) c s).submatrix Fin.castSucc Fin.succ).IsLowerTriangular := by
    intro i j hij
    have hij : i < j := hij
    have h1 : Fin.castSucc i ≠ Fin.succ j := by
      intro h
      have := congrArg Fin.val h
      simp only [Fin.val_castSucc, Fin.val_succ] at this
      omega
    have h2 : (j : Nat) ≠ i := by omega
    simp [pencil, h1, h2, hrow i]
  rw [Matrix.det_of_isLowerTriangular _ hlow]
  have hdiag (i : Fin n) : pencil (n + 1) c s (Fin.castSucc i) (Fin.succ i) = -1 := by
    have h1 : Fin.castSucc i ≠ Fin.succ i := by
      intro h
      have := congrArg Fin.val h
      simp at this
    simp [pencil, h1, hrow i]
  simp [hdiag]

/-- Expansion along the first column: only its first and its last entry are not zero. -/
theorem det_pencil_succ (n : Nat) (c : Nat → K) (s : K) :
    (pencil (n + 1) c s).det = s * (pencil n (fun j => c (j + 1)) s).det + c 0 := by
  rw [Matrix.det_succ_column_zero]
  cases n with
  | zero => simp [pencil]
  | succ m =>
    rw [Fin.sum_univ_succ, Fin.sum_univ_castSucc]
    have hmid (i : Fin m) : pencil (m + 2) c s (Fin.succ (Fin.castSucc i)) 0 = 0 := by
      have h : (i : Nat) ≠ m := Nat.ne_of_lt i.2
      simp [pencil, Fin.succ_ne_zero, h]
    have hlast : pencil (m + 2) c s (Fin.succ (Fin.last m)) 0 = c 0 := by
      simp [pencil]
    have hfirst : pencil (m + 2) c s 0 0 = s := by simp [pencil]
    have hskip : (Fin.succ (Fin.last m)).succAbove = Fin.castSucc := by
      rw [Fin.succ_last, Fin.succAbove_last]
    have hskip0 : (0 : Fin (m + 2)).succAbove = Fin.succ := by ext; simp
    simp only [hmid, mul_zero, zero_mul, Finset.sum_const_zero, zero_add, hlast, hfirst, hskip,
      hskip0, det_pencil_submatrix_castSucc, pencil_submatrix_succ]
    have hsign : (-1 : K) ^ (m + 1) * (-1) ^ (m + 1) = 1 := by
      rw [← mul_pow]; simp
    simp only [Fin.val_zero, pow_zero, one_mul, Fin.val_succ, Fin.val_last]
    linear_combination c 0 * hsign

theorem det_pencil (n : Nat) (c : Nat → K) (s : K) :
    (pencil n c s).det = s ^ n + ∑ j ∈ Finset.range n, c j * s ^ j := by
  induction n generalizing c with
  | zero => simp
  | succ n ih =>
    rw [det_pencil_succ, ih, Finset.sum_range_succ', mul_add, Finset.mul_sum]
    have hshift : ∑ j ∈ Finset.range n, s * (c (j + 1) * s ^ j) =
        ∑ j ∈ Finset.range n, c (j + 1) * s ^ (j + 1) :=
      Finset.sum_congr rfl fun j _ => by ring
    rw [hshift]
    ring

/-- The rows above the last one cancel on the powers of `s`; the last one gives the polynomial. -/
theorem pencil_mulVec_powers (n : Nat) (c : Nat → K) (s : K) (i : Fin n) :
    (pencil n c s *ᵥ powers n s) i =
      if (i : Nat) + 1 = n then s ^ n + ∑ j ∈ Finset.range n, c j * s ^ j else 0 := by
  have hrow : (pencil n c s *ᵥ powers n s) i =
      s * s ^ (i : Nat) -
        ∑ j : Fin n,
          (if (i : Nat) + 1 = n then -c j else if (j : Nat) = i + 1 then 1 else 0) *
            s ^ (j : Nat) := by
    simp only [Matrix.mulVec, dotProduct, pencil, powers, Matrix.of_apply, sub_mul,
      Finset.sum_sub_distrib]
    simp
  rw [hrow]
  by_cases hi : (i : Nat) + 1 = n
  · rw [if_pos hi]
    simp only [hi, if_true, neg_mul, Finset.sum_neg_distrib, sub_neg_eq_add]
    rw [Fin.sum_univ_eq_sum_range (fun j => c j * s ^ j), ← pow_succ', hi]
  · rw [if_neg hi]
    have hlt : (i : Nat) + 1 < n := by have := i.2; omega
    have hone : ∑ j : Fin n, (if (j : Nat) = i + 1 then (1 : K) else 0) * s ^ (j : Nat) =
        s ^ ((i : Nat) + 1) := by
      rw [Finset.sum_eq_single (⟨i + 1, hlt⟩ : Fin n)]
      · simp
      · intro j _ hj
        have : (j : Nat) ≠ i + 1 := fun h => hj (Fin.ext h)
        simp [this]
      · simp
    simp only [hi, if_false]
    rw [hone, pow_succ']
    ring

/-! ## The companion form of two coefficient lists -/

section CompanionForm

variable {n : Nat} {a b : List K}

theorem companionOf_pencil (ha : a.length = n + 1) (s : K) :
    s • 1 - (companionOf a b).A.toMatrix n n = pencil n (fun j => a.getD (n - j) 0) s := by
  have hn : a.length - 1 = n := by omega
  ext i j
  simp only [companionOf, hn, Matrix.sub_apply, Matrix.smul_apply, Matrix.one_apply, smul_eq_mul,
    mul_ite, mul_one, mul_zero, Grid.toMatrix_ofFn, pencil, Matrix.of_apply]

/-- A polynomial of degree `n` with its highest power set apart. -/
theorem valueAt_eq_pow_add (ha : a.length = n + 1) (s : K) :
    valueAt a s = a.getD 0 0 * s ^ n + ∑ j ∈ Finset.range n, a.getD (n - j) 0 * s ^ j := by
  rw [valueAt_eq_sum, ha, Finset.sum_range_succ, Nat.add_sub_cancel, Nat.sub_self, add_comm]

theorem companionOf_det (ha : a.length = n + 1) (hlead : a.getD 0 0 = 1) (s : K) :
    (s • 1 - (companionOf a b).A.toMatrix n n).det = valueAt a s := by
  rw [companionOf_pencil ha, det_pencil, valueAt_eq_pow_add ha, hlead, one_mul]

theorem companionOf_state (ha : a.length = n + 1) (hlead : a.getD 0 0 = 1) (s : K) :
    (s • 1 - (companionOf a b).A.toMatrix n n) *ᵥ powers n s =
      valueAt a s • ((companionOf a b).B.toMatrix n 1).col 0 := by
  have hn : a.length - 1 = n := by omega
  ext i
  rw [companionOf_pencil ha, pencil_mulVec_powers, valueAt_eq_pow_add ha, hlead, one_mul]
  simp only [Pi.smul_apply, Matrix.col_apply, companionOf, hn, Grid.toMatrix_ofFn, smul_eq_mul,
    mul_ite, mul_one, mul_zero]

theorem companionOf_output (ha : a.length = n + 1) (hb : b.length = n + 1)
    (hlead : a.getD 0 0 = 1) (s : K) :
    ((companionOf a b).C.toMatrix 1 n *ᵥ powers n s) 0 +
      valueAt a s * (companionOf a b).D.toMatrix 1 1 0 0 = valueAt b s := by
  have hn : a.length - 1 = n := by omega
  have hC : ((companionOf a b).C.toMatrix 1 n *ᵥ powers n s) 0 =
      ∑ j ∈ Finset.range n, (b.getD (n - j) 0 - b.getD 0 0 * a.getD (n - j) 0) * s ^ j := by
    simp only [Matrix.mulVec, dotProduct, powers, companionOf, hn, Grid.toMatrix_ofFn]
    exact Fin.sum_univ_eq_sum_range
      (fun j => (b.getD (n - j) 0 - b.getD 0 0 * a.getD (n - j) 0) * s ^ j) n
  have hD : (companionOf a b).D.toMatrix 1 1 0 0 = b.getD 0 0 := by
    simp only [companionOf, Grid.toMatrix_ofFn]
  rw [hC, hD, valueAt_eq_pow_add ha, valueAt_eq_pow_add hb, hlead]
  simp only [sub_mul, Finset.sum_sub_distrib, mul_assoc, ← Finset.mul_sum]
  ring

end CompanionForm

/-! ## Quotients of polynomials -/

/-- `m` realizes `num / den` with `n` states, `lead` being the coefficient that `den` is divided by:
the powers of `s` solve the state equation for the input `den(s) / lead`, the output is then
`num(s) / lead`, and away from the zeros of `den` the transfer function is the quotient. -/
structure Realizes (m : Matrices K) (n : Nat) (lead : K) (num den : List K) : Prop where
  shapeA : m.A.height = n ∧ m.A.cols = n
  shapeB : m.B.height = n ∧ m.B.cols = 1
  shapeC : m.C.height = 1 ∧ m.C.cols = n
  shapeD : m.D.height = 1 ∧ m.D.cols = 1
  state : ∀ s, (s • 1 - m.A.toMatrix n n) *ᵥ powers n s =
    (valueAt den s / lead) • (m.B.toMatrix n 1).col 0
  output : ∀ s, (m.C.toMatrix 1 n *ᵥ powers n s) 0 +
    valueAt den s / lead * m.D.toMatrix 1 1 0 0 = valueAt num s / lead
  det : ∀ s, (s • 1 - m.A.toMatrix n n).det = valueAt den s / lead
  transfer : ∀ s, valueAt den s ≠ 0 →
    (m.C.toMatrix 1 n * (s • 1 - m.A.toMatrix n n)⁻¹ * m.B.toMatrix n 1 + m.D.toMatrix 1 1) 0 0 =
      valueAt num s / valueAt den s

/-- Where a pencil is regular, the state that a scaled input is answered by is unique, so the
transfer function is read off the state equation. -/
theorem transfer_of_state {n : Nat} {P : Matrix (Fin n) (Fin n) K} {B : Matrix (Fin n) (Fin 1) K}
    {C : Matrix (Fin 1) (Fin n) K} {D : Matrix (Fin 1) (Fin 1) K} {v : Fin n → K} {p q : K}
    (hdet : P.det = p) (hp : p ≠ 0) (hstate : P *ᵥ v = p • B.col 0)
    (houtput : (C *ᵥ v) 0 + p * D 0 0 = q) : (C * P⁻¹ * B + D) 0 0 = q / p := by
  have hunit : IsUnit P.det := by rw [hdet]; exact isUnit_iff_ne_zero.2 hp
  have hv : v = p • (P⁻¹ *ᵥ B.col 0) := by
    rw [← Matrix.mulVec_smul, ← hstate, Matrix.mulVec_mulVec, Matrix.nonsing_inv_mul P hunit,
      Matrix.one_mulVec]
  have hC : (C *ᵥ v) 0 = p * (C * P⁻¹ * B) 0 0 := by
    rw [hv, Matrix.mulVec_smul, Pi.smul_apply, smul_eq_mul, Matrix.mulVec_mulVec]
    rfl
  rw [eq_div_iff hp, Matrix.add_apply, ← houtput, hC]
  ring

theorem companionOf_realizes {a b num den : List K} {lead : K} {n : Nat} (ha : a.length = n + 1)
    (hb : b.length = n + 1) (hone : a.getD 0 0 = 1) (hlead : lead ≠ 0)
    (hden : ∀ s, valueAt a s = valueAt den s / lead)
    (hnum : ∀ s, valueAt b s = valueAt num s / lead) :
    Realizes (companionOf a b) n lead num den := by
  have hdet (s : K) := (companionOf_det (b := b) ha hone s).trans (hden s)
  have hstate (s : K) := companionOf_state (b := b) ha hone s
  have houtput (s : K) := companionOf_output ha hb hone s
  simp only [hden] at hstate houtput
  simp only [hnum] at houtput
  refine ⟨?_, ?_, ?_, ?_, hstate, houtput, hdet, fun s hs => ?_⟩
  · simp [companionOf, ha]
  · simp [companionOf, ha]
  · simp [companionOf, ha]
  · simp [companionOf]
  · rw [transfer_of_state (hdet s) (div_ne_zero hs hlead) (hstate s) (houtput s)]
    exact div_div_div_cancel_right₀ hlead _ _

variable [Coefficient K] [Exact K]

/-- The companion form of a quotient that is accepted realizes it, with one state for each degree
of the denominator. -/
theorem companion_quotient {num den : List K} {m : Matrices K} (h : companion num den = .ok m) :
    ∃ lead lower, stripLeadingZeros den = lead :: lower ∧ lead ≠ 0 ∧
      Realizes m lower.length lead num den := by
  obtain ⟨-, -, lead, lower, hden, hle, rfl⟩ := companion_eq_ok_iff.1 h
  have hlead : lead ≠ 0 := ne_zero_of_stripLeadingZeros hden
  refine ⟨lead, lower, hden, hlead, companionOf_realizes (by simp) (length_filledUp lead hle) ?_
    hlead (fun s => ?_) (fun s => ?_)⟩
  · simp [div_self hlead]
  · have hvalue := valueAt_map_map_div (RingHom.id K) (lead :: lower) lead s
    rw [← hden, valueAt_map_stripLeadingZeros] at hvalue
    rw [← hden, div_eq_mul_inv]
    simpa using hvalue
  · have hvalue := valueAt_map_filledUp (RingHom.id K) num lead lower s
    rw [div_eq_mul_inv]
    simpa using hvalue

/-- A quotient of two polynomials of degree two, with a zero in front of the denominator. -/
theorem companion_quotient_second_order :
    ∃ m : Matrices ℚ, companion [2, 1, 3] [0, 2, 4, 6] = .ok m ∧
      ∃ lead lower, stripLeadingZeros [0, 2, 4, 6] = lead :: lower ∧ lead ≠ 0 ∧
        Realizes m lower.length lead [2, 1, 3] [0, 2, 4, 6] :=
  ⟨_, rfl, companion_quotient rfl⟩

end Model
end LtiUnit
