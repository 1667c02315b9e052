import LtiUnit.Proofs.Controller
import LtiUnit.Proofs.FactoredForm
import Mathlib.LinearAlgebra.Dimension.Finite
import Mathlib.RingTheory.Polynomial.Basic

/-!
# LtiUnit.Proofs.Minimality

Realizations without redundant states. A realization is controllable if its inputs reach every
state, and observable if its outputs tell states apart; with both it has as few states as any
realization with the same response (`Minimal.of_controllable_of_observable`).

The companion form is always controllable, since the powers of `A` carry its last unit vector, which
is `B`, up one place at a time (`companionOf_controllable`). They carry the first unit row to the
right one place at a time, so that the rows `C A ^ k` are those of a polynomial in `A`, which has an
inverse if numerator and denominator have no common factor (`companionOf_observable`).

* `Terms.isCoprime_quotient` — no term of a PID controller cancels another one.
* `realizations_irredundant` — companion forms are controllable, controllers are minimal.
-/

namespace LtiUnit
namespace Model

open Matrix Polynomial

section

variable {K : Type} [Field K] {n inputs outputs : Nat}

/-- Every state is a linear combination of the columns of `B`, `A B`, …, `A ^ (n - 1) B`. -/
def Controllable (A : Matrix (Fin n) (Fin n) K) (B : Matrix (Fin n) (Fin inputs) K) : Prop :=
  ∀ v : Fin n → K, ∃ c : Fin n → Fin inputs → K, v = ∑ k : Fin n, (A ^ (k : Nat) * B) *ᵥ c k

/-- Only the zero state is taken to zero by `C`, `C A`, …, `C A ^ (n - 1)`. -/
def Observable (C : Matrix (Fin outputs) (Fin n) K) (A : Matrix (Fin n) (Fin n) K) : Prop :=
  ∀ v : Fin n → K, (∀ k < n, (C * A ^ k) *ᵥ v = 0) → v = 0

/-- No realization with the same impulse response has fewer states. -/
def Minimal (A : Matrix (Fin n) (Fin n) K) (B : Matrix (Fin n) (Fin inputs) K)
    (C : Matrix (Fin outputs) (Fin n) K) : Prop :=
  ∀ (n' : Nat) (A' : Matrix (Fin n') (Fin n') K) (B' : Matrix (Fin n') (Fin inputs) K)
    (C' : Matrix (Fin outputs) (Fin n') K), (∀ k, C' * A' ^ k * B' = C * A ^ k * B) → n ≤ n'

/-- What an input sequence leads to is told by the impulse response as soon as it is observed. -/
theorem Minimal.of_controllable_of_observable {A : Matrix (Fin n) (Fin n) K}
    {B : Matrix (Fin n) (Fin inputs) K} {C : Matrix (Fin outputs) (Fin n) K}
    (hc : Controllable A B) (ho : Observable C A) : Minimal A B C := by
  intro n' A' B' C' hsame
  choose c hc using hc
  -- the states of the other realization that are reached as the unit vectors are
  let reached (i : Fin n) : Fin n' → K :=
    ∑ k : Fin n, (A' ^ (k : Nat) * B') *ᵥ c (Pi.single i 1) k
  have hoObserved (j : Nat) (i : Fin n) :
      (C' * A' ^ j) *ᵥ reached i = (C * A ^ j) *ᵥ Pi.single i 1 := by
    conv_rhs => rw [hc (Pi.single i 1)]
    simp only [reached, Matrix.mulVec_sum, Matrix.mulVec_mulVec]
    refine Finset.sum_congr rfl fun k _ => ?_
    have hk := hsame (j + k)
    rw [pow_add, pow_add] at hk
    simp only [Matrix.mul_assoc] at hk ⊢
    rw [hk]
  have hindependent : LinearIndependent K reached := by
    rw [Fintype.linearIndependent_iff]
    intro g hg
    have hzero : (∑ i, g i • (Pi.single i 1 : Fin n → K)) = 0 := by
      refine ho _ fun j _ => ?_
      have hj := congrArg ((C' * A' ^ j) *ᵥ ·) hg
      simp only [Matrix.mulVec_sum, Matrix.mulVec_smul, hoObserved, Matrix.mulVec_zero] at hj
      rw [Matrix.mulVec_sum]
      simpa only [Matrix.mulVec_smul] using hj
    intro i
    have hi := congrFun hzero i
    simpa [Finset.sum_apply, Pi.single_apply] using hi
  have hcard := hindependent.fintype_card_le_finrank
  simpa using hcard

/-! ## Controllability of the companion form -/

/-- A further vector is added to a linear combination. -/
theorem exists_combination_succ (w : Nat → Fin n → K) (m : Nat) (c : Nat → K) (x : K) :
    ∃ c' : Nat → K, ∑ k ∈ Finset.range m, c k • w k + x • w m =
      ∑ k ∈ Finset.range (m + 1), c' k • w k := by
  refine ⟨Function.update c m x, ?_⟩
  rw [Finset.sum_range_succ, Function.update_self]
  congr 1
  refine Finset.sum_congr rfl fun k hk => ?_
  rw [Function.update_of_ne (Nat.ne_of_lt (Finset.mem_range.1 hk))]

/-- Vectors that reach one place further up each are enough to combine any vector from. -/
theorem exists_combination {w : Nat → Fin n → K}
    (hbelow : ∀ k (i : Fin n), (i : Nat) + k + 1 < n → w k i = 0)
    (hone : ∀ k (i : Fin n), (i : Nat) + k + 1 = n → w k i = 1) (m : Nat) :
    ∀ v : Fin n → K, (∀ i : Fin n, (i : Nat) + m < n → v i = 0) →
      ∃ c : Nat → K, v = ∑ k ∈ Finset.range m, c k • w k := by
  induction m with
  | zero =>
    intro v hv
    refine ⟨fun _ => 0, ?_⟩
    ext i
    simpa using hv i i.isLt
  | succ m ih =>
    intro v hv
    by_cases hm : m < n
    · let top : Fin n := ⟨n - 1 - m, by omega⟩
      have htop : (top : Nat) + m + 1 = n := by simp only [top]; omega
      obtain ⟨c, hc⟩ := ih (v - v top • w m) fun i hi => by
        rcases Nat.lt_or_ge ((i : Nat) + m + 1) n with hlt | hge
        · simp [hv i (by omega), hbelow m i hlt]
        · have hi : i = top := Fin.ext (by omega)
          simp [hi, hone m top htop]
      obtain ⟨c', hc'⟩ := exists_combination_succ w m c (v top)
      refine ⟨c', ?_⟩
      rw [← hc', ← hc, sub_add_cancel]
    · obtain ⟨c, hc⟩ := ih v fun i hi => absurd i.isLt (by omega)
      obtain ⟨c', hc'⟩ := exists_combination_succ w m c 0
      refine ⟨c', ?_⟩
      rw [← hc', ← hc, zero_smul, add_zero]

section CompanionForm

variable {a b : List K}

/-- Above the last row a companion matrix moves everything up by one place. -/
theorem companionOf_mulVec (ha : a.length = n + 1) (w : Fin n → K) (i : Fin n)
    (hi : (i : Nat) + 1 < n) :
    ((companionOf a b).A.toMatrix n n *ᵥ w) i = w ⟨i + 1, hi⟩ := by
  have hn : a.length - 1 = n := by omega
  have hlast : ¬(i : Nat) + 1 = n := by omega
  simp only [Matrix.mulVec, dotProduct, companionOf, hn, Grid.toMatrix_ofFn, if_neg hlast]
  rw [Finset.sum_eq_single (⟨i + 1, hi⟩ : Fin n)]
  · simp
  · intro j _ hj
    have hne : ¬(j : Nat) = i + 1 := fun h => hj (Fin.ext h)
    simp [hne]
  · simp

theorem companionOf_B (ha : a.length = n + 1) (i : Fin n) :
    (companionOf a b).B.toMatrix n 1 i 0 = if (i : Nat) + 1 = n then 1 else 0 := by
  have hn : a.length - 1 = n := by omega
  simp only [companionOf, hn, Grid.toMatrix_ofFn]

/-- The `k`-th power takes `B` up by `k` places. -/
theorem companionOf_reach (ha : a.length = n + 1) (k : Nat) :
    ∀ i : Fin n, (i : Nat) + k + 1 ≤ n →
      ((companionOf a b).A.toMatrix n n ^ k * (companionOf a b).B.toMatrix n 1) i 0 =
        if (i : Nat) + k + 1 = n then 1 else 0 := by
  induction k with
  | zero =>
    intro i _
    rw [pow_zero, Matrix.one_mul, companionOf_B ha, Nat.add_zero]
  | succ k ih =>
    intro i hi
    have hnext : (i : Nat) + 1 < n := by omega
    have hmove := companionOf_mulVec (b := b) ha
      (((companionOf a b).A.toMatrix n n ^ k * (companionOf a b).B.toMatrix n 1).col 0) i hnext
    rw [pow_succ', Matrix.mul_assoc]
    refine hmove.trans ?_
    rw [Matrix.col_apply, ih ⟨i + 1, hnext⟩ (by simp only; omega)]
    have hplace : (i : Nat) + 1 + k + 1 = n ↔ (i : Nat) + (k + 1) + 1 = n := by omega
    simp only [hplace]

theorem companionOf_controllable (ha : a.length = n + 1) :
    Controllable ((companionOf a b).A.toMatrix n n) ((companionOf a b).B.toMatrix n 1) := by
  intro v
  let w (k : Nat) : Fin n → K :=
    ((companionOf a b).A.toMatrix n n ^ k * (companionOf a b).B.toMatrix n 1).col 0
  have hbelow (k : Nat) (i : Fin n) (hi : (i : Nat) + k + 1 < n) : w k i = 0 := by
    simp only [w, Matrix.col_apply]
    rw [companionOf_reach ha k i (by omega), if_neg (by omega)]
  have hone (k : Nat) (i : Fin n) (hi : (i : Nat) + k + 1 = n) : w k i = 1 := by
    simp only [w, Matrix.col_apply]
    rw [companionOf_reach ha k i (by omega), if_pos hi]
  obtain ⟨c, hc⟩ := exists_combination hbelow hone n v fun i hi => absurd hi (by omega)
  refine ⟨fun k _ => c k, hc.trans ?_⟩
  rw [← Fin.sum_univ_eq_sum_range (fun k => c k • w k)]
  refine Finset.sum_congr rfl fun k _ => ?_
  ext i
  simp [w, Matrix.mulVec, dotProduct, mul_comm]

end CompanionForm

/-! ## Coefficients as polynomials -/

theorem map_valueAt {R S : Type} [CommRing R] [CommRing S] (φ : R →+* S) (p : List R) (s : R) :
    φ (valueAt p s) = valueAt (p.map φ) (φ s) := by
  induction p with
  | nil => simp
  | cons c p ih =>
    rw [List.map_cons, valueAt_cons, valueAt_cons, map_add, map_mul, map_pow, ih, List.length_map]

/-- The polynomial with the given coefficients, highest degree first. -/
noncomputable def polynomial (p : List K) : K[X] := valueAt (p.map C) X

theorem polynomial_eq_sum {p : List K} (hp : p.length = n + 1) :
    polynomial p = ∑ j ∈ Finset.range n, C (p.getD (n - j) 0) * X ^ j + C (p.getD 0 0) * X ^ n := by
  rw [polynomial, valueAt_eq_sum, List.length_map, hp, Finset.sum_range_succ]
  simp only [getD_map, Nat.add_sub_cancel, Nat.sub_self]

theorem eval_polynomial (p : List K) (s : K) : (polynomial p).eval s = valueAt p s := by
  induction p with
  | nil => simp [polynomial]
  | cons c p ih =>
    rw [polynomial] at ih ⊢
    rw [List.map_cons, valueAt_cons, valueAt_cons, eval_add, ih, List.length_map]
    simp

/-! ## Observability of the companion form -/

section CompanionForm

variable {a b : List K}

/-- The first row of the `j`-th power is the `j`-th unit row. -/
theorem companionOf_firstRow (ha : a.length = n + 2) (j : Nat) (hj : j < n + 1) :
    ∀ i : Fin (n + 1), ((companionOf a b).A.toMatrix (n + 1) (n + 1) ^ j) 0 i =
      if (i : Nat) = j then 1 else 0 := by
  have hn : a.length - 1 = n + 1 := by omega
  induction j with
  | zero =>
    intro i
    simp only [pow_zero, Matrix.one_apply, Fin.ext_iff, Fin.val_zero, eq_comm]
  | succ j ih =>
    intro i
    have hrow := ih (by omega)
    have hlast : ¬j + 1 = n + 1 := by omega
    rw [pow_succ, Matrix.mul_apply, Finset.sum_eq_single (⟨j, by omega⟩ : Fin (n + 1))]
    · rw [hrow, if_pos rfl, one_mul]
      simp only [companionOf, hn, Grid.toMatrix_ofFn, if_neg hlast]
    · intro l _ hl
      have hne : ¬(l : Nat) = j := fun h => hl (Fin.ext h)
      rw [hrow, if_neg hne, zero_mul]
    · simp

/-- What commutes with a companion matrix is known by its first row. -/
theorem row_of_commute (ha : a.length = n + 2) {F : Matrix (Fin (n + 1)) (Fin (n + 1)) K}
    (hcomm : Commute ((companionOf a b).A.toMatrix (n + 1) (n + 1)) F) (k i : Fin (n + 1)) :
    (F * (companionOf a b).A.toMatrix (n + 1) (n + 1) ^ (k : Nat)) 0 i = F k i := by
  rw [← (hcomm.pow_left k).eq, Matrix.mul_apply, Finset.sum_eq_single k]
  · rw [companionOf_firstRow ha k k.isLt, if_pos rfl, one_mul]
  · intro l _ hl
    have hne : ¬(l : Nat) = k := fun h => hl (Fin.ext h)
    rw [companionOf_firstRow ha k k.isLt, if_neg hne, zero_mul]
  · simp

/-- The numerator without what the feedthrough takes of it. -/
theorem polynomial_remainder (ha : a.length = n + 1) (hb : b.length = n + 1)
    (hone : a.getD 0 0 = 1) :
    polynomial b + polynomial a * -C (b.getD 0 0) =
      ∑ j ∈ Finset.range n, C (b.getD (n - j) 0 - b.getD 0 0 * a.getD (n - j) 0) * X ^ j := by
  rw [polynomial_eq_sum ha, polynomial_eq_sum hb, hone]
  simp only [map_sub, map_mul, sub_mul, Finset.sum_sub_distrib, map_one]
  have hsum : ∑ j ∈ Finset.range n, C (b.getD 0 0) * C (a.getD (n - j) 0) * X ^ j =
      (∑ j ∈ Finset.range n, C (a.getD (n - j) 0) * X ^ j) * C (b.getD 0 0) := by
    rw [Finset.sum_mul]
    exact Finset.sum_congr rfl fun j _ => by ring
  rw [hsum]
  ring

/-- `C` is the first row of that polynomial in `A`. -/
theorem companionOf_C (ha : a.length = n + 2) (i : Fin (n + 1)) :
    (companionOf a b).C.toMatrix 1 (n + 1) 0 i =
      aeval ((companionOf a b).A.toMatrix (n + 1) (n + 1)) (∑ j ∈ Finset.range (n + 1),
        C (b.getD (n + 1 - j) 0 - b.getD 0 0 * a.getD (n + 1 - j) 0) * X ^ j : K[X]) 0 i := by
  have hn : a.length - 1 = n + 1 := by omega
  rw [map_sum, Matrix.sum_apply, Finset.sum_eq_single (i : Nat)]
  · simp only [map_mul, aeval_C, map_pow, aeval_X, Algebra.algebraMap_eq_smul_one, smul_mul_assoc,
      one_mul, Matrix.smul_apply, smul_eq_mul]
    rw [companionOf_firstRow ha i i.isLt, if_pos rfl, mul_one]
    simp only [companionOf, hn, Grid.toMatrix_ofFn]
  · intro j hj hij
    simp only [map_mul, aeval_C, map_pow, aeval_X, Algebra.algebraMap_eq_smul_one, smul_mul_assoc,
      one_mul, Matrix.smul_apply, smul_eq_mul]
    rw [companionOf_firstRow ha j (Finset.mem_range.1 hj), if_neg (Ne.symm hij), mul_zero]
  · intro hi
    exact absurd (Finset.mem_range.2 i.isLt) hi

/-- A companion matrix is a zero of its polynomial. -/
theorem companionOf_aeval (ha : a.length = n + 1) (hone : a.getD 0 0 = 1) :
    aeval ((companionOf a b).A.toMatrix n n) (polynomial a) = 0 := by
  have hcharpoly : ((companionOf a b).A.toMatrix n n).charpoly = polynomial a := by
    refine charpoly_of_det ?_
    have hdet := det_pencil_companionOf (b := b) (RatFunc.C (K := K)) ha hone RatFunc.X
    rw [Matrices.pencil] at hdet
    rw [hdet, polynomial, map_valueAt, RatFunc.algebraMap_X, List.map_map]
    congr 2
  rw [← hcharpoly]
  exact Matrix.aeval_self_charpoly _

theorem companionOf_observable (ha : a.length = n + 1) (hb : b.length = n + 1)
    (hone : a.getD 0 0 = 1) (hcoprime : IsCoprime (polynomial b) (polynomial a)) :
    Observable ((companionOf a b).C.toMatrix 1 n) ((companionOf a b).A.toMatrix n n) := by
  intro v hv
  cases n with
  | zero => exact Subsingleton.elim v 0
  | succ n =>
    have hremainder := hcoprime.add_mul_left_left (-C (b.getD 0 0))
    rw [polynomial_remainder ha hb hone] at hremainder
    set A := (companionOf a b).A.toMatrix (n + 1) (n + 1) with hA
    set γ : K[X] := ∑ j ∈ Finset.range (n + 1),
      C (b.getD (n + 1 - j) 0 - b.getD 0 0 * a.getD (n + 1 - j) 0) * X ^ j with hγ
    have hcomm : Commute A (aeval A γ) := by
      simpa using (Commute.all X γ).map (aeval A)
    -- the rows that `v` is seen through are those of `γ(A)`
    have hseen : aeval A γ *ᵥ v = 0 := by
      ext k
      have hk := congrFun (hv k k.isLt) 0
      have hrow : (aeval A γ *ᵥ v) k =
          (((companionOf a b).C.toMatrix 1 (n + 1) * A ^ (k : Nat)) *ᵥ v) 0 := by
        simp only [Matrix.mulVec, dotProduct]
        refine Finset.sum_congr rfl fun i _ => ?_
        rw [← row_of_commute ha hcomm, Matrix.mul_apply, Matrix.mul_apply]
        congr 1
        exact Finset.sum_congr rfl fun l _ => by rw [companionOf_C ha]
      rw [hrow]
      exact hk
    obtain ⟨u, w, huw⟩ := hremainder
    have hinverse : aeval A u * aeval A γ = 1 := by
      have hone' := congrArg (aeval A) huw
      rwa [map_add, map_mul, map_mul, companionOf_aeval ha hone, mul_zero, add_zero, map_one]
        at hone'
    calc v = (aeval A u * aeval A γ) *ᵥ v := by rw [hinverse, Matrix.one_mulVec]
      _ = aeval A u *ᵥ (aeval A γ *ᵥ v) := (Matrix.mulVec_mulVec ..).symm
      _ = 0 := by rw [hseen, Matrix.mulVec_zero]

end CompanionForm

/-! ## Quotients without common factors -/

section Quotient

variable [Coefficient K] [Exact K]

/-- A quotient that is accepted is realized by two lists of one length, whose polynomials are those
of denominator and numerator divided by the leading coefficient. -/
theorem companion_polynomials {num den : List K} {ms : Matrices K}
    (h : companion num den = .ok ms) :
    ∃ (lead : K) (a b : List K), ms = companionOf a b ∧ lead ≠ 0 ∧
      a.length = ms.A.height + 1 ∧ b.length = ms.A.height + 1 ∧ a.getD 0 0 = 1 ∧
      polynomial a = polynomial den * C lead⁻¹ ∧ polynomial b = polynomial num * C lead⁻¹ := by
  obtain ⟨-, -, lead, lower, hden, hle, rfl⟩ := companion_eq_ok_iff.1 h
  have hlead : lead ≠ 0 := ne_zero_of_stripLeadingZeros hden
  have hheight (b : List K) : (companionOf ((lead :: lower).map (· / lead)) b).A.height =
      lower.length := by
    simp [companionOf]
  refine ⟨lead, _, _, rfl, hlead, ?_, ?_, ?_, ?_, ?_⟩
  · rw [hheight, List.length_map, List.length_cons]
  · rw [hheight, length_filledUp lead hle]
  · simp [div_self hlead]
  · rw [polynomial, valueAt_map_map_div, ← hden, valueAt_map_stripLeadingZeros, polynomial]
  · rw [polynomial, valueAt_map_filledUp, polynomial]

theorem companion_controllable {num den : List K} {ms : Matrices K}
    (h : companion num den = .ok ms) :
    Controllable (ms.A.toMatrix ms.A.height ms.A.height) (ms.B.toMatrix ms.A.height 1) := by
  obtain ⟨lead, a, b, hms, -, ha, -, -, -, -⟩ := companion_polynomials h
  have hcontrollable := companionOf_controllable (b := b) ha
  rwa [← hms] at hcontrollable

/-- Without a common factor of numerator and denominator no state is hidden from the output. -/
theorem companion_observable {num den : List K} {ms : Matrices K} (h : companion num den = .ok ms)
    (hcoprime : IsCoprime (polynomial num) (polynomial den)) :
    Observable (ms.C.toMatrix 1 ms.A.height) (ms.A.toMatrix ms.A.height ms.A.height) := by
  obtain ⟨lead, a, b, hms, hlead, ha, hb, hone, hden, hnum⟩ := companion_polynomials h
  have hunit : IsUnit (C lead⁻¹) := isUnit_C.2 (inv_ne_zero hlead).isUnit
  have hobservable := companionOf_observable ha hb hone (by
    rw [hnum, hden]
    exact (isCoprime_mul_unit_right hunit _ _).2 hcoprime)
  rwa [← hms] at hobservable

end Quotient

/-! ## Controllers -/

/-- A product of linear factors has no factor in common with what does not vanish at its roots. -/
theorem isCoprime_prod {p : K[X]} {roots : List K} (h : ∀ r ∈ roots, p.eval r ≠ 0) :
    IsCoprime p (roots.map fun r => X - C r).prod := by
  induction roots with
  | nil => exact isCoprime_one_right
  | cons r roots ih =>
    rw [List.map_cons, List.prod_cons]
    refine IsCoprime.mul_right ?_ (ih fun r' hr' => h r' (List.mem_cons_of_mem r hr'))
    have hr : ¬X - C r ∣ p := fun hdvd => h r List.mem_cons_self (dvd_iff_isRoot.1 hdvd)
    exact ((irreducible_X_sub_C r).coprime_iff_not_dvd.2 hr).symm

namespace Terms

/-- The poles of the active terms. -/
def poles (terms : Terms) (t : K) : List K :=
  (if terms.hasIntegral then [0] else []) ++ if terms.hasDerivative then [-1 / t] else []

/-- The coefficient of the highest power in the denominator. -/
def leading (terms : Terms) (t : K) : K := if terms.hasDerivative then t else 1

theorem leading_ne_zero {terms : Terms} {t : K} (ht : terms.hasDerivative = true → t ≠ 0) :
    terms.leading t ≠ 0 := by
  unfold leading
  split
  · rename_i hd
    exact ht hd
  · exact one_ne_zero

theorem polynomial_den {terms : Terms} {kp ki kd t : K}
    (ht : terms.hasDerivative = true → t ≠ 0) :
    polynomial (terms.quotient kp ki kd t).2 =
      ((terms.poles t).map fun r => X - C r).prod * C (terms.leading t) := by
  have hpole (h : t ≠ 0) : C t * C (-1 / t) = -1 := by
    rw [← C_mul, mul_div_cancel₀ _ h, C_neg, C_1]
  cases terms <;> simp only [quotient, polynomial, poles, leading, valueAt, hasIntegral,
    hasDerivative, List.map_cons, List.map_nil, List.foldl_cons, List.foldl_nil, if_true,
    List.nil_append, List.cons_append, List.append_nil, List.prod_cons, List.prod_nil, map_one,
    map_zero, Bool.false_eq_true, if_false]
  case p => ring
  case i => ring
  case d => linear_combination hpole (ht rfl)
  case pi => ring
  case pd => linear_combination hpole (ht rfl)
  case id => linear_combination X * hpole (ht rfl)
  case pid => linear_combination X * hpole (ht rfl)

theorem valueAt_num_zero {terms : Terms} (h : terms.hasIntegral = true) (kp ki kd t : K) :
    valueAt (terms.quotient kp ki kd t).1 0 = ki := by
  cases terms with
  | p | d | pd => cases h
  | i | pi | id | pid => simp [quotient, valueAt]

/-- Where the filter of the derivative term has its pole, only that term is left. -/
theorem valueAt_num_pole {terms : Terms} (h : terms.hasDerivative = true) {t r : K}
    (hr : t * r + 1 = 0) (kp ki kd : K) :
    valueAt (terms.quotient kp ki kd t).1 r = kd * r * if terms.hasIntegral then r else 1 := by
  cases terms <;> simp only [quotient, valueAt, hasIntegral, List.foldl_cons, List.foldl_nil,
    if_true, Bool.false_eq_true, if_false]
  case p => cases h
  case i => cases h
  case d => ring
  case pi => cases h
  case pd => linear_combination kp * hr
  case id => linear_combination ki * hr
  case pid => linear_combination (kp * r + ki) * hr

/-- No zero of the numerator is a pole, so that no term cancels another one. -/
theorem isCoprime_quotient {terms : Terms} {kp ki kd t : K}
    (ht : terms.hasDerivative = true → t ≠ 0) (hki : terms.hasIntegral = true → ki ≠ 0)
    (hkd : terms.hasDerivative = true → kd ≠ 0) :
    IsCoprime (polynomial (terms.quotient kp ki kd t).1)
      (polynomial (terms.quotient kp ki kd t).2) := by
  have hunit : IsUnit (C (terms.leading t)) := isUnit_C.2 (leading_ne_zero ht).isUnit
  rw [polynomial_den ht]
  refine (isCoprime_mul_unit_right_right hunit _ _).2 (isCoprime_prod fun r hr => ?_)
  rw [eval_polynomial]
  rcases List.mem_append.1 hr with hr | hr
  · obtain ⟨hi, hr⟩ := List.mem_ite_nil_right.1 hr
    rw [List.mem_singleton.1 hr, valueAt_num_zero hi]
    exact hki hi
  · obtain ⟨hd, hr⟩ := List.mem_ite_nil_right.1 hr
    obtain rfl := List.mem_singleton.1 hr
    have hzero : t * (-1 / t) + 1 = 0 := by
      rw [mul_div_cancel₀ _ (ht hd), neg_add_cancel]
    have hne : -1 / t ≠ 0 := div_ne_zero (neg_ne_zero.2 one_ne_zero) (ht hd)
    rw [valueAt_num_pole hd hzero]
    refine mul_ne_zero (mul_ne_zero (hkd hd) hne) ?_
    split
    · exact hne
    · exact one_ne_zero

end Terms

end

/-! ## Realizations -/

section Controller

variable {K : Type} [Field K] [Coefficient K]

theorem realizeQuotient_eq_ok {num den : List K} {x0 : Option (List K)} {u0 : Option K}
    {m : StateSpace K} (h : realizeQuotient num den x0 u0 = .ok m) :
    companion num den = .ok m.matrices := by
  rw [realizeQuotient] at h
  cases hcompanion : companion num den with
  | error e =>
    rw [hcompanion] at h
    cases h
  | ok ms =>
    rw [hcompanion] at h
    obtain ⟨-, -, -, -, -, -, hms, -, -⟩ := StateSpace.ofMatrices?_eq_ok_iff.1 h
    rw [hms]

variable [LinearOrder K] [IsStrictOrderedRing K] [OrderedExact K]

theorem OrderedExact.ne_zero_of_isActive {x : K} (h : Coefficient.isActive x = true) : x ≠ 0 := by
  have hlt := (OrderedExact.isActive_iff x).1 h
  have hpos : (0 : K) < 1 / 10 ^ 12 := by positivity
  exact abs_pos.1 (hpos.trans hlt)

/-- What is realized of a controller is the companion form of its active terms, which have no factor
in common. -/
theorem ControllerForm.realize_eq_ok {f : ControllerForm K} {m : StateSpace K}
    (h : (Description.controller f).realize = .ok m) :
    ∃ num den, companion num den = .ok m.matrices ∧
      IsCoprime (polynomial num) (polynomial den) := by
  rw [realize_eq] at h
  cases hterms : Terms.ofGains f.kp f.ki f.kd with
  | error e =>
    rw [hterms] at h
    cases h
  | ok terms =>
    rw [hterms] at h
    by_cases ht : (terms.hasDerivative && !Coefficient.isPositive f.t) = true
    · cases (if_pos ht).symm.trans h
    · obtain ⟨-, hi, hd⟩ := Terms.ofGains_eq_ok_iff.1 hterms
      refine ⟨_, _, realizeQuotient_eq_ok ((if_neg ht).symm.trans h),
        Terms.isCoprime_quotient (fun hderivative => ?_) (fun hintegral => ?_)
          (fun hderivative => ?_)⟩
      · rw [hderivative, Bool.true_and, Bool.not_eq_true', Bool.not_eq_false,
          OrderedExact.isPositive_iff] at ht
        exact ht.ne'
      · exact OrderedExact.ne_zero_of_isActive (hi.trans hintegral)
      · exact OrderedExact.ne_zero_of_isActive (hd.trans hderivative)

end Controller

/-- The companion form of every quotient that is accepted is controllable, over every field. Every
controller that is realized is observable as well, and so no realization of it has fewer states. -/
theorem realizations_irredundant :
    (∀ {K : Type} [Field K] [Coefficient K] [Exact K] (num den : List K) (ms : Matrices K),
      companion num den = .ok ms →
        Controllable (ms.A.toMatrix ms.A.height ms.A.height) (ms.B.toMatrix ms.A.height 1)) ∧
    ∀ {K : Type} [Field K] [LinearOrder K] [IsStrictOrderedRing K] [Coefficient K]
      [OrderedExact K] (f : ControllerForm K) (m : StateSpace K),
      (Description.controller f).realize = .ok m →
        m.nu = 1 ∧ m.ny = 1 ∧
        Controllable (m.A.toMatrix m.nx m.nx) (m.B.toMatrix m.nx m.nu) ∧
        Observable (m.C.toMatrix m.ny m.nx) (m.A.toMatrix m.nx m.nx) ∧
        Minimal (m.A.toMatrix m.nx m.nx) (m.B.toMatrix m.nx m.nu) (m.C.toMatrix m.ny m.nx) := by
  refine ⟨fun num den ms h => companion_controllable h, ?_⟩
  intro K _ _ _ _ _ f m h
  obtain ⟨num, den, hcompanion, hcoprime⟩ := ControllerForm.realize_eq_ok h
  obtain ⟨-, -, -, -, -, hBcols, hCheight, -⟩ := companion_shapes hcompanion
  have hnu : m.nu = 1 := hBcols
  have hny : m.ny = 1 := hCheight
  have hcontrollable := companion_controllable hcompanion
  have hobservable := companion_observable hcompanion hcoprime
  refine ⟨hnu, hny, ?_⟩
  rw [hnu, hny]
  exact ⟨hcontrollable, hobservable, .of_controllable_of_observable hcontrollable hobservable⟩

/-- A quotient with a common factor, and a controller whose coefficient `kp T + kd` vanishes. -/
theorem realizations_irredundant_cancelling :
    let f : ControllerForm ℚ := ⟨1, 3, -1 / 2, 1 / 2, none, none⟩
    (∃ ms : Matrices ℚ, companion [1, 1] [1, 3, 2] = .ok ms ∧
      Controllable (ms.A.toMatrix ms.A.height ms.A.height) (ms.B.toMatrix ms.A.height 1)) ∧
    f.kp * f.t + f.kd = 0 ∧
    ∃ m, (Description.controller f).realize = .ok m ∧ m.nx = 2 ∧
      Controllable (m.A.toMatrix m.nx m.nx) (m.B.toMatrix m.nx m.nu) ∧
      Observable (m.C.toMatrix m.ny m.nx) (m.A.toMatrix m.nx m.nx) ∧
      Minimal (m.A.toMatrix m.nx m.nx) (m.B.toMatrix m.nx m.nu) (m.C.toMatrix m.ny m.nx) := by
  intro f
  have hterms : Terms.ofGains f.kp f.ki f.kd = .ok .pid := by decide +kernel
  obtain ⟨m, hm, hnx, -⟩ := ControllerForm.realize_ok (f := f) (fun _ _ _ h => nomatch h) hterms
    (by decide +kernel)
  obtain ⟨hcontrollable, hminimal⟩ := realizations_irredundant
  obtain ⟨-, -, hirredundant⟩ := hminimal f m hm
  exact ⟨⟨_, rfl, hcontrollable [1, 1] [1, 3, 2] _ rfl⟩, by norm_num [f], m, hm, hnx, hirredundant⟩

end Model
end LtiUnit
