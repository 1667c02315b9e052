import LtiUnit.Proofs.Companion
import Mathlib.Algebra.BigOperators.Fin
import Mathlib.Algebra.BigOperators.Field
import Mathlib.Algebra.Order.Ring.Rat
import Mathlib.Data.List.GetD
import Mathlib.Data.List.TakeWhile
import Mathlib.Tactic.Ring

/-!
# LtiUnit.Proofs.Polynomial

What a list of coefficients, highest degree first, stands for: the function that `valueAt` computes
by Horner's rule. `valueAt_eq_sum` is its sum of powers; leading zeros do not change it
(`valueAt_map_stripLeadingZeros`), and neither does padding on the left (`valueAt_replicate_append`).

Numbers are exact here: elements of a field that answer the questions of `Coefficient` without
error (`Exact`).
-/

namespace LtiUnit
namespace Model

/-- Numbers of a field without rounding: all are finite, and only zero counts as zero. -/
class Exact (K : Type) [Field K] [Coefficient K] : Prop where
  isFinite_eq : ∀ x : K, Coefficient.isFinite x = true
  isZero_iff : ∀ x : K, Coefficient.isZero x = true ↔ x = 0

instance : Coefficient ℚ where
  isFinite _ := true
  isZero x := x == 0
  isActive x := decide (1 / 10 ^ 12 < |x|)
  isPositive x := decide (0 < x)

instance : Exact ℚ where
  isFinite_eq _ := rfl
  isZero_iff x := by simp [Coefficient.isZero]

/-- The value of a polynomial at `s`. -/
def valueAt {α : Type} [Zero α] [Add α] [Mul α] (p : List α) (s : α) : α :=
  p.foldl (fun v c => v * s + c) 0

section Ring

variable {R : Type} [CommRing R]

@[simp] theorem valueAt_nil (s : R) : valueAt [] s = 0 := rfl

/-- A coefficient at the end shifts all others up by one degree. -/
theorem valueAt_concat (p : List R) (c s : R) : valueAt (p ++ [c]) s = valueAt p s * s + c := by
  simp [valueAt]

/-- A coefficient in front belongs to the highest power. -/
theorem valueAt_cons (c : R) (p : List R) (s : R) :
    valueAt (c :: p) s = c * s ^ p.length + valueAt p s := by
  induction p using List.reverseRecOn with
  | nil => simp [valueAt]
  | append_singleton p d ih =>
    rw [← List.cons_append, valueAt_concat, valueAt_concat, ih, List.length_append]
    simp only [List.length_singleton, pow_succ]
    ring

theorem valueAt_eq_sum (p : List R) (s : R) :
    valueAt p s = ∑ j ∈ Finset.range p.length, p.getD (p.length - 1 - j) 0 * s ^ j := by
  induction p with
  | nil => simp
  | cons c p ih =>
    rw [valueAt_cons, ih, List.length_cons, Finset.sum_range_succ]
    rw [Nat.add_sub_cancel, Nat.sub_self, List.getD_cons_zero, add_comm]
    congr 1
    refine Finset.sum_congr rfl fun j hj => ?_
    have hj : j < p.length := Finset.mem_range.1 hj
    rw [show p.length - j = (p.length - 1 - j) + 1 by omega, List.getD_cons_succ]

/-- Zeros in front change nothing. -/
theorem valueAt_replicate_append (k : Nat) (p : List R) (s : R) :
    valueAt (List.replicate k 0 ++ p) s = valueAt p s := by
  induction k with
  | zero => rfl
  | succ k ih => rw [List.replicate_succ, List.cons_append, valueAt_cons, ih]; simp

theorem valueAt_map_mul (p : List R) (c s : R) :
    valueAt (p.map (· * c)) s = valueAt p s * c := by
  induction p with
  | nil => simp
  | cons d p ih => rw [List.map_cons, valueAt_cons, valueAt_cons, ih, List.length_map]; ring

theorem getD_map {S : Type} [CommRing S] (φ : R →+* S) (p : List R) (i : Nat) :
    (p.map φ).getD i 0 = φ (p.getD i 0) := by
  simpa only [map_zero] using List.getD_map (l := p) (d := (0 : R)) (n := i) φ

end Ring

variable {K R : Type} [Field K] [CommRing R]

theorem valueAt_map_map_div (φ : K →+* R) (p : List K) (c : K) (s : R) :
    valueAt ((p.map (· / c)).map φ) s = valueAt (p.map φ) s * φ c⁻¹ := by
  have hmap : (p.map (· / c)).map φ = (p.map φ).map (· * φ c⁻¹) := by
    simp [List.map_map, Function.comp_def, div_eq_mul_inv]
  rw [hmap, valueAt_map_mul]

section Stripping

variable [Coefficient K]

variable [Exact K]

theorem isZero_eq_false {x : K} (h : x ≠ 0) : Coefficient.isZero x = false :=
  Bool.eq_false_iff.2 fun hx => h ((Exact.isZero_iff x).1 hx)

theorem stripLeadingZeros_cons {c : K} (hc : c ≠ 0) (p : List K) :
    stripLeadingZeros (c :: p) = c :: p := by
  rw [stripLeadingZeros, List.dropWhile_cons, if_neg (by simp [isZero_eq_false hc])]

theorem stripToOne_cons {c : K} (hc : c ≠ 0) (p : List K) : stripToOne (c :: p) = c :: p := by
  rw [stripToOne, stripLeadingZeros_cons hc]

theorem stripToOne_of_zeros {p : List K} (h : ∀ c ∈ p, c = 0) : stripToOne p = [0] := by
  have hp : stripLeadingZeros p = [] :=
    List.dropWhile_eq_nil_iff.2 fun c hc => (Exact.isZero_iff c).2 (h c hc)
  rw [stripToOne, hp]

theorem valueAt_map_stripLeadingZeros (φ : K →+* R) (p : List K) (s : R) :
    valueAt ((stripLeadingZeros p).map φ) s = valueAt (p.map φ) s := by
  induction p with
  | nil => rfl
  | cons c p ih =>
    rw [stripLeadingZeros] at ih ⊢
    by_cases hc : c = 0
    · rw [List.dropWhile_cons, if_pos ((Exact.isZero_iff c).2 hc), ih, List.map_cons, valueAt_cons,
        hc, map_zero, zero_mul, zero_add]
    · rw [List.dropWhile_cons, if_neg (by simp [isZero_eq_false hc])]

theorem valueAt_map_stripToOne (φ : K →+* R) (p : List K) (s : R) :
    valueAt ((stripToOne p).map φ) s = valueAt (p.map φ) s := by
  rw [← valueAt_map_stripLeadingZeros φ p, stripToOne]
  cases stripLeadingZeros p with
  | nil => simp [valueAt]
  | cons c p => rfl

/-- The numerator of the companion form is that of the quotient, divided by the coefficient. -/
theorem valueAt_map_filledUp (φ : K →+* R) (num : List K) (lead : K) (lower : List K) (s : R) :
    valueAt ((filledUp num lead lower).map φ) s = valueAt (num.map φ) s * φ lead⁻¹ := by
  rw [filledUp, List.map_append, List.map_replicate, map_zero, valueAt_replicate_append,
    valueAt_map_map_div, valueAt_map_stripToOne]

/-- What is left begins with a coefficient that counts. -/
theorem ne_zero_of_stripLeadingZeros {p lower : List K} {lead : K}
    (h : stripLeadingZeros p = lead :: lower) : lead ≠ 0 := by
  induction p with
  | nil => cases h
  | cons c p ih =>
    rw [stripLeadingZeros, List.dropWhile_cons] at h
    split at h
    · exact ih h
    · rename_i hc
      cases h
      exact fun h0 => hc ((Exact.isZero_iff lead).2 h0)

end Stripping

end Model
end LtiUnit
