import LtiUnit.Proofs.Completion
import LtiUnit.Proofs.TransferFunction

/-!
# LtiUnit.Proofs.Quotient

The realization of a proper quotient, read at points of any field over that of its coefficients, so
that a point may be complex.

* `companionOf_transfer` — the companion form responds the quotient where its denominator does not
  vanish.
* `realizeQuotient_ok` — a proper quotient has a realization, whose determinant and transfer
  function are those of the quotient.
-/

namespace LtiUnit
namespace Model

open Matrix

/-! ## Transfer functions over a larger field -/

section Extension

variable {K L : Type} [Field K] [Field L] (φ : K →+* L)

namespace Matrices

/-- `s 1 - A` over a larger field. -/
def pencil (ms : Matrices K) (n : Nat) (s : L) : Matrix (Fin n) (Fin n) L :=
  s • 1 - (ms.A.toMatrix n n).map φ

/-- `C (s 1 - A)⁻¹ B + D` over a larger field. -/
noncomputable def transfer (ms : Matrices K) (n outputs inputs : Nat) (s : L) :
    Matrix (Fin outputs) (Fin inputs) L :=
  (ms.C.toMatrix outputs n).map φ * (ms.pencil φ n s)⁻¹ * (ms.B.toMatrix n inputs).map φ +
    (ms.D.toMatrix outputs inputs).map φ

end Matrices

theorem Grid.map_toMatrix_ofFn (m n : Nat) (f : Nat → Nat → K) :
    ((Grid.ofFn m n f).toMatrix m n).map φ = (Grid.ofFn m n fun i j => φ (f i j)).toMatrix m n := by
  ext i j
  rw [Matrix.map_apply, Grid.toMatrix_ofFn, Grid.toMatrix_ofFn]

section

variable {a b : List K} {n : Nat}

theorem map_companionOf_A (ha : a.length = n + 1) :
    ((companionOf a b).A.toMatrix n n).map φ =
      (companionOf (a.map φ) (b.map φ)).A.toMatrix n n := by
  have hn : a.length - 1 = n := by omega
  simp only [companionOf, List.length_map, hn, Grid.map_toMatrix_ofFn, getD_map, apply_ite φ,
    map_neg, map_one, map_zero]

theorem map_companionOf_B (ha : a.length = n + 1) :
    ((companionOf a b).B.toMatrix n 1).map φ =
      (companionOf (a.map φ) (b.map φ)).B.toMatrix n 1 := by
  have hn : a.length - 1 = n := by omega
  simp only [companionOf, List.length_map, hn, Grid.map_toMatrix_ofFn, apply_ite φ, map_one,
    map_zero]

theorem map_companionOf_C (ha : a.length = n + 1) :
    ((companionOf a b).C.toMatrix 1 n).map φ =
      (companionOf (a.map φ) (b.map φ)).C.toMatrix 1 n := by
  have hn : a.length - 1 = n := by omega
  simp only [companionOf, List.length_map, hn, Grid.map_toMatrix_ofFn, getD_map, map_sub, map_mul]

theorem map_companionOf_D :
    ((companionOf a b).D.toMatrix 1 1).map φ =
      (companionOf (a.map φ) (b.map φ)).D.toMatrix 1 1 := by
  simp only [companionOf, Grid.map_toMatrix_ofFn, getD_map]

theorem det_pencil_companionOf (ha : a.length = n + 1) (hone : a.getD 0 0 = 1) (s : L) :
    ((companionOf a b).pencil φ n s).det = valueAt (a.map φ) s := by
  rw [Matrices.pencil, map_companionOf_A φ ha]
  exact companionOf_det (by rw [List.length_map, ha]) (by rw [getD_map, hone, map_one]) s

/-- Where the denominator does not vanish the companion form responds the quotient. -/
theorem companionOf_transfer {num den : List K} {lead : K} (ha : a.length = n + 1)
    (hb : b.length = n + 1) (hone : a.getD 0 0 = 1) (hlead : lead ≠ 0)
    (hden : ∀ s : L, valueAt (a.map φ) s = valueAt (den.map φ) s / φ lead)
    (hnum : ∀ s : L, valueAt (b.map φ) s = valueAt (num.map φ) s / φ lead)
    {s : L} (hs : valueAt (den.map φ) s ≠ 0) :
    ((companionOf a b).pencil φ n s).det ≠ 0 ∧
      (companionOf a b).transfer φ n 1 1 s 0 0 =
        valueAt (num.map φ) s / valueAt (den.map φ) s := by
  have hlead' : φ lead ≠ 0 := (map_ne_zero φ).2 hlead
  have hone' : (a.map φ).getD 0 0 = 1 := by rw [getD_map, hone, map_one]
  have hrealizes : Realizes (companionOf (a.map φ) (b.map φ)) n (φ lead) (num.map φ) (den.map φ) :=
    companionOf_realizes (by rw [List.length_map, ha]) (by rw [List.length_map, hb]) hone' hlead'
      hden hnum
  rw [Matrices.transfer, Matrices.pencil, map_companionOf_A φ ha, map_companionOf_B φ ha,
    map_companionOf_C φ ha, map_companionOf_D φ]
  refine ⟨?_, hrealizes.transfer s hs⟩
  rw [hrealizes.det s]
  exact div_ne_zero hs hlead'

end

end Extension

/-! ## Proper quotients -/

section Quotient

variable {K : Type} [Field K] [Coefficient K] [Exact K]

theorem allFinite_eq_true (xs : List K) : allFinite xs = true :=
  List.all_eq_true.2 fun x _ => Exact.isFinite_eq x

omit [Exact K] in
theorem length_stripToOne_le {p : List K} (hp : p ≠ []) : (stripToOne p).length ≤ p.length := by
  unfold stripToOne
  split
  · exact List.length_pos_iff.2 hp
  · exact (List.dropWhile_sublist _).length_le

theorem companion_of_improper (num : List K) {den lower : List K} {lead : K}
    (hden : stripLeadingZeros den = lead :: lower)
    (hnum : lower.length + 1 < (stripToOne num).length) :
    companion num den = .error (.improper ((stripToOne num).length - 1) lower.length) := by
  refine (Rejects.improper ?_ ?_ ?_ ?_ ?_).companion
  · exact fun c _ => Exact.isFinite_eq c
  · exact fun c _ => Exact.isFinite_eq c
  · exact hasDegreeOrZero_iff.2 (by omega)
  · exact hasDegree_iff.2 ⟨lead, lower, hden, rfl⟩
  · omega

/-- A quotient whose numerator is of no higher degree has a realization, with one state for each
degree of the denominator, the denominator divided by its leading coefficient as the determinant of
its pencil, and the quotient as its transfer function. -/
theorem realizeQuotient_ok {num den lower : List K} {lead : K} {x0 : Option (List K)}
    (u0 : Option K) (hden : stripLeadingZeros den = lead :: lower)
    (hnum : (stripToOne num).length ≤ lower.length + 1)
    (hx : ∀ x, x0 = some x → x.length = lower.length) :
    ∃ m : StateSpace K, realizeQuotient num den x0 u0 = .ok m ∧ m.nx = lower.length ∧ m.nu = 1 ∧
      m.ny = 1 ∧
      (∀ {L : Type} [Field L] (φ : K →+* L) (s : L),
        (m.matrices.pencil φ m.nx s).det = valueAt (den.map φ) s / φ lead) ∧
      ∀ {L : Type} [Field L] (φ : K →+* L) (s : L), valueAt (den.map φ) s ≠ 0 →
        (m.matrices.pencil φ m.nx s).det ≠ 0 ∧
          ∀ i j, m.matrices.transfer φ m.nx m.ny m.nu s i j =
            valueAt (num.map φ) s / valueAt (den.map φ) s := by
  have hlead : lead ≠ 0 := ne_zero_of_stripLeadingZeros hden
  let a := (lead :: lower).map (· / lead)
  let b := filledUp num lead lower
  have hcompanion : companion num den = .ok (companionOf a b) :=
    companion_of_le (fun c _ => Exact.isFinite_eq c) (fun c _ => Exact.isFinite_eq c) hden hnum
  have hb : b.length = lower.length + 1 := length_filledUp lead hnum
  have ha : a.length = lower.length + 1 := by simp [a]
  have hn : a.length - 1 = lower.length := by omega
  obtain ⟨m, hm⟩ : ∃ m, StateSpace.ofMatrices? (companionOf a b) x0 (u0.map ([·])) = .ok m := by
    refine StateSpace.exists_ofMatrices? ?_ ?_ ?_ (fun _ => allFinite_eq_true _)
      (allFinite_eq_true _) (allFinite_eq_true _)
    · constructor <;> simp [companionOf]
    · cases x0 with
      | none => simp
      | some x => simp [companionOf, hx x rfl, hn]
    · cases u0 <;> simp [companionOf]
  obtain ⟨-, -, -, -, -, -, hmatrices, -, -⟩ := StateSpace.ofMatrices?_eq_ok_iff.1 hm
  have hnx : m.nx = lower.length := by
    have : m.nx = (companionOf a b).A.height := by rw [← hmatrices]; rfl
    rw [this, companionOf, Grid.height_ofFn, hn]
  have hnu : m.nu = 1 := by
    have : m.nu = (companionOf a b).B.cols := by rw [← hmatrices]; rfl
    rw [this, companionOf, Grid.cols_ofFn]
  have hny : m.ny = 1 := by
    have : m.ny = (companionOf a b).C.height := by rw [← hmatrices]; rfl
    rw [this, companionOf, Grid.height_ofFn]
  have hone : a.getD 0 0 = 1 := by simp [a, div_self hlead]
  have hvalueA {L : Type} [Field L] (φ : K →+* L) (s : L) :
      valueAt (a.map φ) s = valueAt (den.map φ) s / φ lead := by
    rw [valueAt_map_map_div, ← hden, valueAt_map_stripLeadingZeros, map_inv₀, div_eq_mul_inv]
  have hvalueB {L : Type} [Field L] (φ : K →+* L) (s : L) :
      valueAt (b.map φ) s = valueAt (num.map φ) s / φ lead := by
    rw [valueAt_map_filledUp, map_inv₀, div_eq_mul_inv]
  refine ⟨m, ?_, hnx, hnu, hny, ?_, ?_⟩
  · rw [realizeQuotient, hcompanion]
    exact hm
  · intro L _ φ s
    rw [hmatrices, hnx, det_pencil_companionOf φ ha hone, hvalueA]
  · intro L _ φ s hs
    rw [hmatrices, hnx, hnu, hny]
    obtain ⟨hdet, htransfer⟩ :=
      companionOf_transfer φ ha hb hone hlead (hvalueA φ) (hvalueB φ) hs
    refine ⟨hdet, fun i j => ?_⟩
    rw [Subsingleton.elim i 0, Subsingleton.elim j 0]
    exact htransfer

end Quotient

end Model
end LtiUnit
