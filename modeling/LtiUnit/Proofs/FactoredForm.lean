import LtiUnit.Proofs.Quotient
import Mathlib.FieldTheory.RatFunc.AsPolynomial
import Mathlib.LinearAlgebra.Matrix.Charpoly.Basic
import Mathlib.RingTheory.SimpleRing.Principal

/-!
# LtiUnit.Proofs.FactoredForm

The realization of zeros, poles and a gain responds `gain · ∏ (s - z) / ∏ (s - p)`.

The coefficients of a product of linear factors are worked out one factor at a time, each coefficient
passing on to the next what the root takes from it (`timesRoot`). So that they can be compared with
the polynomial, and the pencil with the characteristic polynomial, a list of coefficients is read at
the indeterminate as well as at numbers.

* `valueAt_ofRoots` — the value of the expanded product is the product of the values.
* `ofRoots_eq_coeff` — the list is that of the coefficients of `∏ (X - r)`.
* `zeroPoleGain_realize` — when a factored form has a realization, and what it is.
-/

namespace LtiUnit
namespace Model

open Polynomial

/-! ## Products of linear factors -/

section Coefficients

variable {α : Type} [Zero α] [One α] [Add α] [Sub α] [Mul α]

omit [One α] in
theorem length_timesRoot (r carry : α) (p : List α) :
    (timesRoot r carry p).length = p.length + 1 := by
  induction p generalizing carry with
  | nil => rfl
  | cons c p ih => rw [timesRoot, List.length_cons, ih, List.length_cons]

theorem ofRoots_concat (roots : List α) (r : α) :
    ofRoots (roots ++ [r]) = timesRoot r 0 (ofRoots roots) := by
  rw [ofRoots, List.foldl_append]
  rfl

/-- The leading coefficient stays one, and each root adds a coefficient. -/
theorem exists_ofRoots_eq (hone : (0 : α) + 1 = 1) (roots : List α) :
    ∃ lower, ofRoots roots = 1 :: lower ∧ lower.length = roots.length := by
  induction roots using List.reverseRecOn with
  | nil => exact ⟨[], rfl, rfl⟩
  | append_singleton roots r ih =>
    obtain ⟨lower, hroots, hlower⟩ := ih
    refine ⟨timesRoot r (0 - 1 * r) lower, ?_, ?_⟩
    · rw [ofRoots_concat, hroots, timesRoot, hone]
    · rw [length_timesRoot, hlower, List.length_append, List.length_singleton]

end Coefficients

section Roots

variable {R S : Type} [CommRing R] [CommRing S]

/-- The carry is added to the coefficient of the highest power. -/
theorem valueAt_timesRoot (r carry : R) (p : List R) (s : R) :
    valueAt (timesRoot r carry p) s = carry * s ^ p.length + (s - r) * valueAt p s := by
  induction p generalizing carry with
  | nil => simp [timesRoot, valueAt]
  | cons c p ih =>
    rw [timesRoot, valueAt_cons, length_timesRoot, ih, valueAt_cons, List.length_cons, pow_succ]
    ring

theorem map_timesRoot (φ : R →+* S) (r carry : R) (p : List R) :
    (timesRoot r carry p).map φ = timesRoot (φ r) (φ carry) (p.map φ) := by
  induction p generalizing carry with
  | nil => rfl
  | cons c p ih =>
    rw [timesRoot, List.map_cons, ih, List.map_cons, timesRoot, map_add, map_sub, map_mul, map_zero]

theorem length_ofRoots (roots : List R) : (ofRoots roots).length = roots.length + 1 := by
  obtain ⟨lower, hroots, hlower⟩ := exists_ofRoots_eq (zero_add 1) roots
  rw [hroots, List.length_cons, hlower]

theorem head?_ofRoots (roots : List R) : (ofRoots roots).head? = some 1 := by
  obtain ⟨lower, hroots, -⟩ := exists_ofRoots_eq (zero_add 1) roots
  rw [hroots, List.head?_cons]

theorem map_ofRoots (φ : R →+* S) (roots : List R) :
    (ofRoots roots).map φ = ofRoots (roots.map φ) := by
  induction roots using List.reverseRecOn with
  | nil => simp [ofRoots]
  | append_singleton roots r ih =>
    rw [ofRoots_concat, map_timesRoot, ih, map_zero, List.map_append, List.map_singleton,
      ofRoots_concat]

theorem valueAt_ofRoots (roots : List R) (s : R) :
    valueAt (ofRoots roots) s = (roots.map fun r => s - r).prod := by
  induction roots using List.reverseRecOn with
  | nil => simp [ofRoots, valueAt]
  | append_singleton roots r ih =>
    rw [ofRoots_concat, valueAt_timesRoot, ih, List.map_append, List.prod_append]
    simp
    ring

theorem valueAt_map_ofRoots (φ : R →+* S) (roots : List R) (s : S) :
    valueAt ((ofRoots roots).map φ) s = (roots.map fun r => s - φ r).prod := by
  rw [map_ofRoots, valueAt_ofRoots, List.map_map]
  rfl

/-- At the indeterminate a list of coefficients has its polynomial for its value. -/
theorem coeff_valueAt_X (p : List R) {j : Nat} (hj : j < p.length) :
    (valueAt (p.map C) (X : R[X])).coeff j = p.getD (p.length - 1 - j) 0 := by
  simp only [valueAt_eq_sum, List.length_map, getD_map, finsetSum_coeff, coeff_C_mul_X_pow]
  rw [Finset.sum_ite_eq, if_pos (Finset.mem_range.2 hj)]

theorem ofRoots_eq_coeff (roots : List R) :
    ofRoots roots = (List.range (roots.length + 1)).map fun i =>
      (roots.map fun r => X - C r).prod.coeff (roots.length - i) := by
  refine List.ext_getElem (by simp [length_ofRoots]) fun i hi _ => ?_
  rw [length_ofRoots] at hi
  have hcoeff := coeff_valueAt_X (ofRoots roots) (j := roots.length - i)
    (by rw [length_ofRoots]; omega)
  rw [valueAt_map_ofRoots, length_ofRoots, show roots.length + 1 - 1 - (roots.length - i) = i by omega]
    at hcoeff
  rw [List.getElem_map, List.getElem_range, hcoeff, List.getD_eq_getElem]

/-- The order of the roots makes no difference. -/
theorem ofRoots_perm {roots roots' : List R} (h : roots.Perm roots') :
    ofRoots roots = ofRoots roots' := by
  rw [ofRoots_eq_coeff, ofRoots_eq_coeff, h.length_eq, (h.map _).prod_eq]

end Roots

/-! ## Characteristic polynomials -/

section Field

variable {K : Type} [Field K]

/-- A characteristic polynomial is known by its value at the indeterminate, in a field. -/
theorem charpoly_of_det {n : Nat} {A : Matrix (Fin n) (Fin n) K} {p : K[X]}
    (h : ((RatFunc.X : RatFunc K) • 1 - A.map RatFunc.C).det = algebraMap K[X] (RatFunc K) p) :
    A.charpoly = p := by
  refine RatFunc.algebraMap_injective K ?_
  rw [Matrix.charpoly, RingHom.map_det, ← h]
  congr 1
  ext i j
  by_cases hij : i = j <;> simp [hij]

/-! ## Realizations -/

variable [Coefficient K] [Exact K]

theorem realizeFactors_eq (zeros poles : List K) (gain : K) (x0 : Option (List K))
    (u0 : Option K) :
    realizeFactors zeros poles gain x0 u0 =
      realizeQuotient ((ofRoots zeros).map (· * gain)) (ofRoots poles) x0 u0 := by
  simp only [realizeFactors, allFinite_eq_true, Exact.isFinite_eq, Bool.not_true,
    Bool.false_eq_true, if_false]

theorem stripToOne_zeroGain (zeros : List K) :
    stripToOne ((ofRoots zeros).map (· * (0 : K))) = [0] := by
  refine stripToOne_of_zeros fun c hc => ?_
  obtain ⟨d, -, rfl⟩ := List.mem_map.1 hc
  exact mul_zero d

/-- The leading coefficient of the numerator is the gain. -/
theorem length_stripToOne_scaled (zeros : List K) {gain : K} (hgain : gain ≠ 0) :
    (stripToOne ((ofRoots zeros).map (· * gain))).length = zeros.length + 1 := by
  obtain ⟨lower, hzeros, hlower⟩ := exists_ofRoots_eq (zero_add 1) zeros
  rw [hzeros, List.map_cons, one_mul, stripToOne_cons hgain, List.length_cons, List.length_map,
    hlower]

/-- With more zeros than poles a factored form is rejected for the degrees of its quotient. -/
theorem realizeFactors_improper {zeros poles : List K} {gain : K} (hgain : gain ≠ 0)
    (hlt : poles.length < zeros.length) (x0 : Option (List K)) (u0 : Option K) :
    realizeFactors zeros poles gain x0 u0 = .error (.improper zeros.length poles.length) := by
  obtain ⟨lower, hpoles, hlower⟩ := exists_ofRoots_eq (zero_add 1) poles
  have hlength := length_stripToOne_scaled zeros hgain
  have hden : stripLeadingZeros (ofRoots poles) = 1 :: lower := by
    rw [hpoles, stripLeadingZeros_cons one_ne_zero]
  have hcompanion := companion_of_improper ((ofRoots zeros).map (· * gain)) hden (by omega)
  rw [hlength, Nat.add_sub_cancel, hlower] at hcompanion
  rw [realizeFactors_eq, realizeQuotient, hcompanion]
  rfl

/-- The pencil of the realization has the product over the poles for its determinant. -/
theorem realizeFactors_ok {zeros poles : List K} {gain : K} {x0 : Option (List K)}
    (u0 : Option K) (hproper : gain = 0 ∨ zeros.length ≤ poles.length)
    (hx : ∀ x, x0 = some x → x.length = poles.length) :
    ∃ m : StateSpace K, realizeFactors zeros poles gain x0 u0 = .ok m ∧ m.nx = poles.length ∧
      m.nu = 1 ∧ m.ny = 1 ∧
      (∀ {L : Type} [Field L] (φ : K →+* L) (s : L),
        (m.matrices.pencil φ m.nx s).det = (poles.map fun p => s - φ p).prod) ∧
      ∀ {L : Type} [Field L] (φ : K →+* L) (s : L), (∀ p ∈ poles, s ≠ φ p) →
        (m.matrices.pencil φ m.nx s).det ≠ 0 ∧
          ∀ i j, m.matrices.transfer φ m.nx m.ny m.nu s i j =
            φ gain * (zeros.map fun z => s - φ z).prod / (poles.map fun p => s - φ p).prod := by
  obtain ⟨lower, hpoles, hlower⟩ := exists_ofRoots_eq (zero_add 1) poles
  have hden : stripLeadingZeros (ofRoots poles) = 1 :: lower := by
    rw [hpoles, stripLeadingZeros_cons one_ne_zero]
  have hnum : (stripToOne ((ofRoots zeros).map (· * gain))).length ≤ lower.length + 1 := by
    by_cases hgain : gain = 0
    · rw [hgain, stripToOne_zeroGain]
      exact Nat.le_add_left ..
    · rw [length_stripToOne_scaled zeros hgain]
      exact Nat.succ_le_succ (hlower.symm ▸ hproper.resolve_left hgain)
  obtain ⟨m, hm, hnx, hnu, hny, hdet, htransfer⟩ :=
    realizeQuotient_ok u0 hden hnum fun x h => (hx x h).trans hlower.symm
  rw [← realizeFactors_eq] at hm
  refine ⟨m, hm, hnx.trans hlower, hnu, hny, fun φ s => ?_, fun {L} _ φ s hs => ?_⟩
  · rw [hdet, valueAt_map_ofRoots, map_one, div_one]
  · have hvalue : valueAt (((ofRoots zeros).map (· * gain)).map φ) s =
        φ gain * (zeros.map fun z => s - φ z).prod := by
      have hmap : ((ofRoots zeros).map (· * gain)).map φ =
          ((ofRoots zeros).map φ).map (· * φ gain) := by
        simp [List.map_map, Function.comp_def]
      rw [hmap, valueAt_map_mul, valueAt_map_ofRoots, mul_comm]
    have hregular := htransfer φ s
    rw [hvalue, valueAt_map_ofRoots] at hregular
    refine hregular (List.prod_ne_zero fun hzero => ?_)
    obtain ⟨p, hp, hsp⟩ := List.mem_map.1 hzero
    exact hs p hp (sub_eq_zero.1 hsp)

/-- The coefficients worked out from roots are those of the product of the linear factors. A factored
form whose start states are as many as its poles has a realization unless it has more zeros than
poles and a gain other than zero. The poles are then the roots of the characteristic polynomial,
where the point is no pole the transfer function is the gain times the product over the zeros
divided by the product over the poles, and the order of zeros and poles makes no difference. -/
theorem FactoredForm.zeroPoleGain_realize (f : FactoredForm K)
    (hx : ∀ x, f.x0 = some x → x.length = f.poles.length) :
    (∀ roots : List K, (ofRoots roots).length = roots.length + 1 ∧
      (ofRoots roots).head? = some 1 ∧
      ofRoots roots = (List.range (roots.length + 1)).map fun i =>
        (roots.map fun r => X - C r).prod.coeff (roots.length - i)) ∧
    ((∃ m, (Description.zeroPoleGain f).realize = .ok m) ↔
      f.gain = 0 ∨ f.zeros.length ≤ f.poles.length) ∧
    (∀ m, (Description.zeroPoleGain f).realize = .ok m →
      m.nx = f.poles.length ∧ m.nu = 1 ∧ m.ny = 1 ∧
      (m.matrices.A.toMatrix m.nx m.nx).charpoly = (f.poles.map fun p => X - C p).prod ∧
      ∀ {L : Type} [Field L] (φ : K →+* L) (s : L), (∀ p ∈ f.poles, s ≠ φ p) →
        (m.matrices.pencil φ m.nx s).det ≠ 0 ∧
          ∀ i j, m.matrices.transfer φ m.nx m.ny m.nu s i j =
            φ f.gain * (f.zeros.map fun z => s - φ z).prod /
              (f.poles.map fun p => s - φ p).prod) ∧
    ∀ zeros poles, zeros.Perm f.zeros → poles.Perm f.poles →
      (Description.zeroPoleGain { f with zeros := zeros, poles := poles }).realize =
        (Description.zeroPoleGain f).realize := by
  have hrealize : (Description.zeroPoleGain f).realize =
      realizeFactors f.zeros f.poles f.gain f.x0 f.u0 := rfl
  have hproper (hm : ∃ m, (Description.zeroPoleGain f).realize = .ok m) :
      f.gain = 0 ∨ f.zeros.length ≤ f.poles.length := by
    by_contra hnot
    rw [not_or, not_le] at hnot
    obtain ⟨m, hm⟩ := hm
    rw [hrealize, realizeFactors_improper hnot.1 hnot.2] at hm
    cases hm
  refine ⟨fun roots => ⟨length_ofRoots roots, head?_ofRoots roots, ofRoots_eq_coeff roots⟩,
    ⟨hproper, fun h => ?_⟩, fun m hm => ?_, fun zeros poles hzeros hpoles => ?_⟩
  · obtain ⟨m, hm, -⟩ := realizeFactors_ok f.u0 h hx
    exact ⟨m, hm⟩
  · obtain ⟨m', hm', hnx, hnu, hny, hdet, htransfer⟩ :=
      realizeFactors_ok f.u0 (hproper ⟨m, hm⟩) hx
    cases hm.symm.trans hm'
    refine ⟨hnx, hnu, hny, charpoly_of_det ?_, htransfer⟩
    refine (hdet RatFunc.C RatFunc.X).trans ?_
    rw [map_list_prod, List.map_map]
    simp [Function.comp_def]
  · rw [hrealize]
    show realizeFactors zeros poles f.gain f.x0 f.u0 = _
    rw [realizeFactors_eq, realizeFactors_eq, ofRoots_perm hzeros, ofRoots_perm hpoles]

end Field

/-- A zero at the origin, two poles and a start state for each. -/
theorem zeroPoleGain_realize_origin :
    let f : FactoredForm ℚ := ⟨[0], [-1, -2], 3, some [1, 0], none⟩
    (∀ x, f.x0 = some x → x.length = f.poles.length) ∧
      ∃ m, (Description.zeroPoleGain f).realize = .ok m ∧ m.nx = 2 ∧ m.nu = 1 ∧ m.ny = 1 ∧
        (m.matrices.A.toMatrix m.nx m.nx).charpoly = (X - C (-1)) * (X - C (-2)) ∧
        ∀ i j, m.matrices.transfer (RingHom.id ℚ) m.nx m.ny m.nu 1 i j = 1 / 2 := by
  intro f
  have hx : ∀ x, f.x0 = some x → x.length = f.poles.length := by
    intro x hx
    cases hx
    rfl
  obtain ⟨-, hiff, hok, -⟩ := f.zeroPoleGain_realize hx
  obtain ⟨m, hm⟩ := hiff.2 (.inr (by decide))
  obtain ⟨hnx, hnu, hny, hcharpoly, htransfer⟩ := hok m hm
  obtain ⟨-, hvalue⟩ := htransfer (RingHom.id ℚ) 1 (by
    intro p hp
    simp only [f, List.mem_cons, List.not_mem_nil, or_false] at hp
    rcases hp with rfl | rfl <;> norm_num)
  refine ⟨hx, m, hm, hnx, hnu, hny, ?_, fun i j => ?_⟩
  · rw [hcharpoly]
    simp [f]
  · rw [hvalue i j]
    norm_num [f]

end Model
end LtiUnit
