import LtiUnit.Proofs.Quotient

/-!
# LtiUnit.Proofs.Controller

The realization of a PID controller has the transfer function of exactly its active terms.

The numbers of the controller are exact and ordered (`OrderedExact`); the point `s` at which the
transfer function is read is taken from any field over them, so that it may be complex.

* `Terms.quotient_eq_response` — each of the seven quotients is the sum of the active terms.
* `controller_realize` — when a controller has a realization, and what it responds.
-/

namespace LtiUnit
namespace Model

open Matrix

/-- Numbers of an ordered field without rounding; a gain is active above `10 ^ (-12)`. -/
class OrderedExact (K : Type) [Field K] [LinearOrder K] [Coefficient K] : Prop extends Exact K where
  isActive_iff : ∀ x : K, Coefficient.isActive x = true ↔ 1 / 10 ^ 12 < |x|
  isPositive_iff : ∀ x : K, Coefficient.isPositive x = true ↔ 0 < x

instance : OrderedExact ℚ where
  isActive_iff _ := decide_eq_true_iff
  isPositive_iff _ := decide_eq_true_iff

/-! ## Controllers -/

namespace Terms

def hasProportional : Terms → Bool
  | .p | .pi | .pd | .pid => true
  | .i | .d | .id => false

def hasIntegral : Terms → Bool
  | .i | .pi | .id | .pid => true
  | .p | .d | .pd => false

/-- The sum of the active terms at `s`. -/
def response {L : Type} [Field L] (terms : Terms) (kp ki kd t s : L) : L :=
  (if terms.hasProportional then kp else 0) + (if terms.hasIntegral then ki / s else 0) +
    (if terms.hasDerivative then kd * s / (t * s + 1) else 0)

theorem ofGains_eq_ok_iff {K : Type} [Coefficient K] {kp ki kd : K} {terms : Terms} :
    ofGains kp ki kd = .ok terms ↔
      Coefficient.isActive kp = terms.hasProportional ∧
        Coefficient.isActive ki = terms.hasIntegral ∧
        Coefficient.isActive kd = terms.hasDerivative := by
  unfold ofGains
  cases Coefficient.isActive kp <;> cases Coefficient.isActive ki <;>
    cases Coefficient.isActive kd <;> cases terms <;>
    simp [hasProportional, hasIntegral, hasDerivative]

theorem ofGains_eq_error_iff {K : Type} [Coefficient K] {kp ki kd : K} :
    (∃ e, ofGains kp ki kd = .error e) ↔
      ¬Coefficient.isActive kp = true ∧ ¬Coefficient.isActive ki = true ∧
        ¬Coefficient.isActive kd = true := by
  unfold ofGains
  cases Coefficient.isActive kp <;> cases Coefficient.isActive ki <;>
    cases Coefficient.isActive kd <;> simp

section

variable {L : Type} [Field L] {kp ki kd t s : L}

/-- The denominator vanishes only where an active term has no value. -/
theorem valueAt_quotient_den_ne_zero {terms : Terms} (hs : terms.hasIntegral = true → s ≠ 0)
    (ht : terms.hasDerivative = true → t * s + 1 ≠ 0) :
    valueAt (terms.quotient kp ki kd t).2 s ≠ 0 := by
  cases terms with
  | p => simp [quotient, valueAt]
  | i => simpa [quotient, valueAt] using hs rfl
  | d => simpa [quotient, valueAt] using ht rfl
  | pi => simpa [quotient, valueAt] using hs rfl
  | pd => simpa [quotient, valueAt] using ht rfl
  | id => simpa [quotient, valueAt] using And.intro (ht rfl) (hs rfl)
  | pid => simpa [quotient, valueAt] using And.intro (ht rfl) (hs rfl)

/-- The quotient of each selection of terms is the sum of the terms selected. -/
theorem quotient_eq_response {terms : Terms} (hs : terms.hasIntegral = true → s ≠ 0)
    (ht : terms.hasDerivative = true → t * s + 1 ≠ 0) :
    valueAt (terms.quotient kp ki kd t).1 s / valueAt (terms.quotient kp ki kd t).2 s =
      terms.response kp ki kd t s := by
  rw [div_eq_iff (valueAt_quotient_den_ne_zero hs ht)]
  have hi (h : terms.hasIntegral = true) : ki / s * s = ki := div_mul_cancel₀ ki (hs h)
  have hd (h : terms.hasDerivative = true) : kd * s / (t * s + 1) * (t * s + 1) = kd * s :=
    div_mul_cancel₀ (kd * s) (ht h)
  cases terms <;> simp only [quotient, response, valueAt, hasProportional, hasIntegral,
    hasDerivative, List.foldl_cons, List.foldl_nil, if_true, Bool.false_eq_true, if_false]
  case p => ring
  case i => linear_combination -hi rfl
  case d => linear_combination -hd rfl
  case pi => linear_combination -hi rfl
  case pd => linear_combination -hd rfl
  case id => linear_combination -(t * s + 1) * hi rfl - s * hd rfl
  case pid => linear_combination -(t * s + 1) * hi rfl - s * hd rfl

theorem map_quotient {K : Type} [Field K] (φ : K →+* L) (terms : Terms) (kp ki kd t : K) :
    (terms.quotient kp ki kd t).1.map φ = (terms.quotient (φ kp) (φ ki) (φ kd) (φ t)).1 ∧
      (terms.quotient kp ki kd t).2.map φ = (terms.quotient (φ kp) (φ ki) (φ kd) (φ t)).2 := by
  cases terms <;> simp [quotient]

end

section

variable {K : Type} [Field K] [Coefficient K] [Exact K]

/-- The denominator has the degree of the state count. -/
theorem stripLeadingZeros_den (terms : Terms) (kp ki kd : K) {t : K}
    (ht : terms.hasDerivative = true → t ≠ 0) :
    ∃ lead lower, stripLeadingZeros (terms.quotient kp ki kd t).2 = lead :: lower ∧
      lower.length = terms.stateCount := by
  have hone : (1 : K) ≠ 0 := one_ne_zero
  cases terms with
  | p | i | pi => exact ⟨_, _, stripLeadingZeros_cons hone _, rfl⟩
  | d | pd | id | pid => exact ⟨_, _, stripLeadingZeros_cons (ht rfl) _, rfl⟩

omit [Exact K] in
theorem length_num_le (terms : Terms) (kp ki kd t : K) :
    (stripToOne (terms.quotient kp ki kd t).1).length ≤ terms.stateCount + 1 := by
  have hne : (terms.quotient kp ki kd t).1 ≠ [] := by cases terms <;> exact List.cons_ne_nil _ _
  have hlength : (terms.quotient kp ki kd t).1.length ≤ terms.stateCount + 1 := by
    cases terms <;> simp [quotient, stateCount]
  exact (length_stripToOne_le hne).trans hlength

end

end Terms

namespace ControllerForm

variable {K : Type} [Field K] [Coefficient K]

/-- Start values that are given have the length of the state vector. -/
def StartFits (f : ControllerForm K) : Prop :=
  ∀ terms x, Terms.ofGains f.kp f.ki f.kd = .ok terms → f.x0 = some x →
    x.length = terms.stateCount

section

variable [Exact K] {f : ControllerForm K}

theorem realize_eq :
    (Description.controller f).realize =
      (Terms.ofGains f.kp f.ki f.kd >>= fun terms =>
        if (terms.hasDerivative && !Coefficient.isPositive f.t) = true then
          .error (.timeConstant f.t)
        else
          realizeQuotient (terms.quotient f.kp f.ki f.kd f.t).1
            (terms.quotient f.kp f.ki f.kd f.t).2 f.x0 f.u0) := by
  have hfinite := Exact.isFinite_eq (K := K)
  simp only [Description.realize, realizeController, hfinite, Bool.not_true, Bool.false_eq_true,
    if_false]
  rfl

end

variable [LinearOrder K] {L : Type} [Field L]

/-- The sum of the active terms at a point of a larger field. -/
def response (f : ControllerForm K) (φ : K →+* L) (s : L) : L :=
  (if 1 / 10 ^ 12 < |f.kp| then φ f.kp else 0) +
    (if 1 / 10 ^ 12 < |f.ki| then φ f.ki / s else 0) +
    (if 1 / 10 ^ 12 < |f.kd| then φ f.kd * s / (φ f.t * s + 1) else 0)

/-- No gain is active, or the derivative term has no positive filter time constant. -/
def Unrealizable (f : ControllerForm K) : Prop :=
  (|f.kp| ≤ 1 / 10 ^ 12 ∧ |f.ki| ≤ 1 / 10 ^ 12 ∧ |f.kd| ≤ 1 / 10 ^ 12) ∨
    (1 / 10 ^ 12 < |f.kd| ∧ f.t ≤ 0)

section

variable [OrderedExact K] {f : ControllerForm K} {terms : Terms}

theorem unrealizable_iff :
    f.Unrealizable ↔ (∃ e, Terms.ofGains f.kp f.ki f.kd = .error e) ∨
      (Coefficient.isActive f.kd = true ∧ ¬Coefficient.isPositive f.t = true) := by
  simp only [Unrealizable, Terms.ofGains_eq_error_iff, OrderedExact.isActive_iff,
    OrderedExact.isPositive_iff, not_lt]

theorem response_eq (hterms : Terms.ofGains f.kp f.ki f.kd = .ok terms) (φ : K →+* L) (s : L) :
    f.response φ s = terms.response (φ f.kp) (φ f.ki) (φ f.kd) (φ f.t) s := by
  obtain ⟨hp, hi, hd⟩ := Terms.ofGains_eq_ok_iff.1 hterms
  simp only [response, Terms.response, ← hp, ← hi, ← hd, OrderedExact.isActive_iff]

/-- The point is no pole of an active term. -/
theorem value_of_terms (hterms : Terms.ofGains f.kp f.ki f.kd = .ok terms)
    (ht : terms.hasDerivative = true → f.t ≠ 0) (φ : K →+* L) {s : L}
    (hki : 1 / 10 ^ 12 < |f.ki| → s ≠ 0) (hkd : 1 / 10 ^ 12 < |f.kd| → s ≠ -1 / φ f.t) :
    (terms.hasIntegral = true → s ≠ 0) ∧ (terms.hasDerivative = true → φ f.t * s + 1 ≠ 0) := by
  obtain ⟨-, hi, hd⟩ := Terms.ofGains_eq_ok_iff.1 hterms
  rw [← hi, OrderedExact.isActive_iff]
  refine ⟨hki, fun hderivative hzero => ?_⟩
  have hactive := (OrderedExact.isActive_iff f.kd).1 (hd.trans hderivative)
  have hφ : φ f.t ≠ 0 := (map_ne_zero φ).2 (ht hderivative)
  apply hkd hactive
  rw [eq_div_iff hφ]
  linear_combination hzero

theorem realize_ok (hx : f.StartFits) (hterms : Terms.ofGains f.kp f.ki f.kd = .ok terms)
    (ht : ¬(terms.hasDerivative && !Coefficient.isPositive f.t) = true) :
    ∃ m, (Description.controller f).realize = .ok m ∧ m.nx = terms.stateCount ∧ m.nu = 1 ∧
      m.ny = 1 ∧
      ∀ {L : Type} [Field L] (φ : K →+* L) (s : L),
        (1 / 10 ^ 12 < |f.ki| → s ≠ 0) → (1 / 10 ^ 12 < |f.kd| → s ≠ -1 / φ f.t) →
        (m.matrices.pencil φ m.nx s).det ≠ 0 ∧
          ∀ i j, m.matrices.transfer φ m.nx m.ny m.nu s i j = f.response φ s := by
  have hpositive : terms.hasDerivative = true → f.t ≠ 0 := by
    intro hderivative hzero
    rw [hderivative, Bool.true_and, Bool.not_eq_true', Bool.not_eq_false,
      OrderedExact.isPositive_iff, hzero] at ht
    exact lt_irrefl 0 ht
  obtain ⟨lead, lower, hden, hlower⟩ :=
    terms.stripLeadingZeros_den f.kp f.ki f.kd hpositive
  obtain ⟨m, hm, hnx, hnu, hny, -, htransfer⟩ := realizeQuotient_ok f.u0 hden
    (by rw [hlower]; exact terms.length_num_le f.kp f.ki f.kd f.t)
    (fun x h => (hx terms x hterms h).trans hlower.symm)
  refine ⟨m, ?_, hnx.trans hlower, hnu, hny, ?_⟩
  · rw [realize_eq, hterms]
    exact (if_neg ht).trans hm
  · intro L _ φ s hki hkd
    obtain ⟨hs, hts⟩ := value_of_terms hterms hpositive φ hki hkd
    obtain ⟨hnum, hden⟩ := terms.map_quotient φ f.kp f.ki f.kd f.t
    have hregular := htransfer φ s
    rw [hnum, hden, Terms.quotient_eq_response hs hts, ← response_eq hterms] at hregular
    exact hregular (Terms.valueAt_quotient_den_ne_zero hs hts)

end

/-- A controller has a realization unless no gain is active or the derivative term has no positive
filter time constant. The realization has one input, one output and the states that its terms
predict, and its transfer function is the sum of the active terms. -/
theorem controller_realize [OrderedExact K] (f : ControllerForm K) (hx : f.StartFits) :
    ((∃ e, (Description.controller f).realize = .error e) ↔ f.Unrealizable) ∧
      ∀ m, (Description.controller f).realize = .ok m →
        m.nu = 1 ∧ m.ny = 1 ∧
          (∃ terms, Terms.ofGains f.kp f.ki f.kd = .ok terms ∧ m.nx = terms.stateCount) ∧
          ∀ {L : Type} [Field L] (φ : K →+* L) (s : L),
            (1 / 10 ^ 12 < |f.ki| → s ≠ 0) → (1 / 10 ^ 12 < |f.kd| → s ≠ -1 / φ f.t) →
            (m.matrices.pencil φ m.nx s).det ≠ 0 ∧
              ∀ i j, m.matrices.transfer φ m.nx m.ny m.nu s i j = f.response φ s := by
  rw [unrealizable_iff]
  cases hterms : Terms.ofGains f.kp f.ki f.kd with
  | error e =>
    have hrealize : (Description.controller f).realize = .error e := by
      rw [realize_eq, hterms]
      rfl
    rw [hrealize]
    exact ⟨⟨fun _ => .inl ⟨e, rfl⟩, fun _ => ⟨e, rfl⟩⟩, fun m hm => nomatch hm⟩
  | ok terms =>
    have hd := (Terms.ofGains_eq_ok_iff.1 hterms).2.2
    by_cases ht : (terms.hasDerivative && !Coefficient.isPositive f.t) = true
    · have hrealize : (Description.controller f).realize = .error (.timeConstant f.t) := by
        rw [realize_eq, hterms]
        exact if_pos ht
      rw [Bool.and_eq_true, Bool.not_eq_true', ← Bool.not_eq_true] at ht
      rw [hrealize, hd]
      exact ⟨⟨fun _ => .inr ht, fun _ => ⟨_, rfl⟩⟩, fun m hm => nomatch hm⟩
    · obtain ⟨m, hm, hnx, hnu, hny, htransfer⟩ := realize_ok hx hterms ht
      rw [hm, hd]
      rw [Bool.and_eq_true, Bool.not_eq_true', ← Bool.not_eq_true] at ht
      constructor
      · constructor
        · rintro ⟨e, he⟩
          cases he
        · rintro (⟨e, he⟩ | h)
          · cases he
          · exact absurd h ht
      · intro m' hm'
        cases hm'
        exact ⟨hnu, hny, ⟨terms, rfl, hnx⟩, htransfer⟩

/-- All three terms, with start values: `2 + 3 / s + s / 2 / (s / 10 + 1)` at `s = 1`. -/
theorem controller_realize_pid :
    (⟨2, 3, 1 / 2, 1 / 10, some [1, 0], none⟩ : ControllerForm ℚ).StartFits ∧
      ∃ m, (Description.controller
          (⟨2, 3, 1 / 2, 1 / 10, some [1, 0], none⟩ : ControllerForm ℚ)).realize = .ok m ∧
        m.nu = 1 ∧ m.ny = 1 ∧ m.nx = 2 ∧
        ∀ i j, m.matrices.transfer (RingHom.id ℚ) m.nx m.ny m.nu 1 i j = 60 / 11 := by
  let f : ControllerForm ℚ := ⟨2, 3, 1 / 2, 1 / 10, some [1, 0], none⟩
  have hterms : Terms.ofGains f.kp f.ki f.kd = .ok .pid := by decide +kernel
  have hx : f.StartFits := by
    intro terms x hterms' hx
    cases hterms.symm.trans hterms'
    cases hx
    rfl
  have hrealizable : ¬f.Unrealizable := by
    norm_num [Unrealizable, f, abs_of_pos]
  obtain ⟨herror, hok⟩ := controller_realize f hx
  refine ⟨hx, ?_⟩
  cases hm : (Description.controller f).realize with
  | error e => exact absurd (herror.1 ⟨e, hm⟩) hrealizable
  | ok m =>
    obtain ⟨hnu, hny, ⟨terms, hterms', hnx⟩, htransfer⟩ := hok m hm
    cases hterms.symm.trans hterms'
    refine ⟨m, rfl, hnu, hny, hnx, ?_⟩
    obtain ⟨-, hvalue⟩ :=
      htransfer (RingHom.id ℚ) 1 (fun _ => one_ne_zero) (fun _ => by norm_num [f])
    intro i j
    rw [hvalue i j]
    norm_num [ControllerForm.response, f, abs_of_pos]

end ControllerForm

end Model
end LtiUnit
