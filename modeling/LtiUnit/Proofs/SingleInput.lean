import LtiUnit.Proofs.FactoredForm
import LtiUnit.Proofs.FloatBits
import LtiUnit.Proofs.Minimality

/-!
# LtiUnit.Proofs.SingleInput

What transfer functions, factored forms and controllers have in common: they are reduced to one
quotient (`Reduces`), which is realized in companion form. The start states are then the only thing
whose length can be wrong.

* `ofMatrices?_cases` — what can be wrong with matrices whose dimensions agree.
* `realize_eq_shape_iff` — the one mismatch of dimensions that the three forms have.
* `companion_map_mul` — a common factor of numerator and denominator makes no difference.
* `singleInput_realize` — what the forms accept, and what does not matter to them.
-/

namespace LtiUnit
namespace Model

variable {α : Type} [Coefficient α]

/-! ## Start values -/

/-- The quantities that are looked at once the dimensions of a model are known to agree. -/
def Quantity.OfModel : Quantity → Prop
  | .matrix _ | .x0 | .u0 => True
  | _ => False

namespace StateSpace

/-- A model, or the name of something in it that is not finite. -/
def Settled (r : Except (ModelError α) (StateSpace α)) : Prop :=
  (∃ m, r = .ok m) ∨ ∃ what : Quantity, what.OfModel ∧ r = .error (.nonFinite what)

theorem Settled.dite {p : Prop} [Decidable p] {r : p → Except (ModelError α) (StateSpace α)}
    {what : Quantity} (hwhat : what.OfModel) (hr : ∀ h, Settled (r h)) :
    Settled (if h : p then r h else .error (.nonFinite what)) := by
  by_cases h : p
  · rw [dif_pos h]
    exact hr h
  · rw [dif_neg h]
    exact .inr ⟨what, hwhat, rfl⟩

variable [Zero α]

/-- Matrices whose dimensions agree leave the length of the start states to be checked. -/
theorem ofMatrices?_cases {ms : Matrices α} (hagree : ms.Agree) (x0 : Option (List α))
    {u0 : Option (List α)} (hu : (u0.getD (List.replicate ms.B.cols 0)).length = ms.B.cols) :
    (∃ x, x0 = some x ∧ x.length ≠ ms.A.height ∧
      ofMatrices? ms x0 u0 = .error (.shape .x0Length ms.A.height x.length)) ∨
    (∀ x, x0 = some x → x.length = ms.A.height) ∧ Settled (ofMatrices? ms x0 u0) := by
  unfold ofMatrices?
  dsimp only
  rw [dif_pos hagree.aSquare, dif_pos hagree.bRows, dif_pos hagree.cColumns, dif_pos hagree.dRows,
    dif_pos hagree.dColumns]
  by_cases hx : (x0.getD (List.replicate ms.A.height 0)).length = ms.A.height
  · refine .inr ⟨fun x h => ?_, ?_⟩
    · rw [h] at hx
      exact hx
    · rw [dif_pos hx, dif_pos hu]
      refine .dite trivial fun _ => .dite trivial fun _ => .dite trivial fun _ => ?_
      exact .dite trivial fun _ => .dite trivial fun _ => .dite trivial fun _ => .inl ⟨_, rfl⟩
  · cases x0 with
    | none => exact absurd List.length_replicate hx
    | some x => exact .inl ⟨x, rfl, hx, dif_neg hx⟩

end StateSpace

/-! ## Quotients -/

/-- The rejections that are about numerator and denominator. -/
def ModelError.OfQuotient : ModelError α → Prop
  | .nonFinite .numerator | .nonFinite .denominator | .emptyDenominator | .improper _ _ => True
  | _ => False

section Quotient

variable [Zero α]

omit [Zero α] in
theorem Rejects.ofQuotient [Zero α] {num den : List α} {e : ModelError α}
    (h : Rejects num den e) : e.OfQuotient := by
  cases h <;> trivial

variable [One α] [Neg α] [Sub α] [Mul α] [Div α] {num den : List α} {x0 : Option (List α)}
  {u0 : Option α}

theorem companion_agree {ms : Matrices α} (h : companion num den = .ok ms) : ms.Agree := by
  obtain ⟨n, -, hA, hA', hB, hB', hC, hC', hD, hD'⟩ := companion_shapes h
  constructor <;> simp only [hA, hA', hB, hB', hC, hC', hD, hD']

theorem realizeQuotient_of_rejects {e : ModelError α} (h : Rejects num den e) :
    realizeQuotient num den x0 u0 = .error e := by
  rw [realizeQuotient, h.companion]
  rfl

/-- What is accepted as a quotient is rejected for the length of the start states, or for a value
that is not finite. -/
theorem realizeQuotient_cases {ms : Matrices α} (h : companion num den = .ok ms)
    (x0 : Option (List α)) (u0 : Option α) :
    (∃ x, x0 = some x ∧ x.length ≠ ms.A.height ∧
      realizeQuotient num den x0 u0 = .error (.shape .x0Length ms.A.height x.length)) ∨
    (∀ x, x0 = some x → x.length = ms.A.height) ∧
      StateSpace.Settled (realizeQuotient num den x0 u0) := by
  obtain ⟨n, -, -, -, -, hcols, -⟩ := companion_shapes h
  have hu : ((u0.map ([·])).getD (List.replicate ms.B.cols 0)).length = ms.B.cols := by
    cases u0 with
    | none => exact List.length_replicate
    | some u => exact hcols.symm
  have hrealize : realizeQuotient num den x0 u0 =
      StateSpace.ofMatrices? ms x0 (u0.map ([·])) := by
    rw [realizeQuotient, h]
    rfl
  rw [hrealize]
  exact StateSpace.ofMatrices?_cases (companion_agree h) x0 hu

theorem realizeQuotient_eq_error_iff {e : ModelError α} (he : e.OfQuotient) :
    realizeQuotient num den x0 u0 = .error e ↔ Rejects num den e := by
  refine ⟨fun h => ?_, realizeQuotient_of_rejects⟩
  cases hcompanion : companion num den with
  | error e' =>
    have hrejects := companion_eq_error_iff.1 hcompanion
    cases h.symm.trans (realizeQuotient_of_rejects hrejects)
    exact hrejects
  | ok ms =>
    obtain ⟨x, -, -, hshape⟩ | ⟨-, ⟨m, hm⟩ | ⟨what, hwhat, hfinite⟩⟩ :=
      realizeQuotient_cases hcompanion x0 u0
    · cases h.symm.trans hshape
      cases he
    · cases h.symm.trans hm
    · cases h.symm.trans hfinite
      cases what <;> first | exact False.elim hwhat | exact False.elim he

theorem realizeQuotient_eq_shape_iff {what : Dimension} {expected actual : Nat} :
    realizeQuotient num den x0 u0 = .error (.shape what expected actual) ↔
      what = .x0Length ∧ (¬∃ e, Rejects num den e) ∧ HasDegree den expected ∧
        ∃ x, x0 = some x ∧ x.length = actual ∧ actual ≠ expected := by
  cases hcompanion : companion num den with
  | error e =>
    have hrejects := companion_eq_error_iff.1 hcompanion
    constructor
    · intro h
      cases h.symm.trans (realizeQuotient_of_rejects hrejects)
      exact hrejects.ofQuotient.elim
    · rintro ⟨-, hnot, -⟩
      exact absurd ⟨e, hrejects⟩ hnot
  | ok ms =>
    obtain ⟨n, hn, hheight, -⟩ := companion_shapes hcompanion
    have hnot : ¬∃ e, Rejects num den e := by
      rintro ⟨e, he⟩
      cases hcompanion.symm.trans he.companion
    rw [← hheight] at hn
    obtain ⟨x, rfl, hx, hshape⟩ | ⟨hx, ⟨m, hm⟩ | ⟨quantity, -, hfinite⟩⟩ :=
      realizeQuotient_cases hcompanion x0 u0
    · rw [hshape]
      constructor
      · intro h
        cases h
        exact ⟨rfl, hnot, hn, x, rfl, rfl, hx⟩
      · rintro ⟨rfl, -, hexpected, x', hx', rfl, -⟩
        cases hx'
        rw [hn.unique hexpected]
    · rw [hm]
      constructor
      · intro h
        cases h
      · rintro ⟨-, -, hexpected, x, rfl, rfl, hne⟩
        exact absurd ((hx x rfl).trans (hn.unique hexpected)) hne
    · rw [hfinite]
      constructor
      · intro h
        cases h
      · rintro ⟨-, -, hexpected, x, rfl, rfl, hne⟩
        exact absurd ((hx x rfl).trans (hn.unique hexpected)) hne

theorem realizeQuotient_zeros_append {zeros zeros' : List α}
    (hzeros : ∀ c ∈ zeros, Coefficient.isFinite c = true ∧ Coefficient.isZero c = true)
    (hzeros' : ∀ c ∈ zeros', Coefficient.isFinite c = true ∧ Coefficient.isZero c = true) :
    realizeQuotient (zeros ++ num) (zeros' ++ den) x0 u0 = realizeQuotient num den x0 u0 := by
  rw [realizeQuotient, companion_zeros_append num den hzeros hzeros', realizeQuotient]

end Quotient

/-! ## Descriptions -/

namespace Description

/-- The quotient that a description with one input and one output is reduced to, and the start
values. Roots, gains and time constant have to be finite, a gain has to be active and a derivative
term needs a positive time constant. -/
inductive Reduces [Zero α] [One α] [Add α] [Sub α] [Mul α] :
    Description α → List α → List α → Option (List α) → Option α → Prop where
  | transferFunction (f : QuotientForm α) :
      Reduces (.transferFunction f) f.num f.den f.x0 f.u0
  | zeroPoleGain (f : FactoredForm α) (hzeros : allFinite f.zeros = true)
      (hpoles : allFinite f.poles = true) (hgain : Coefficient.isFinite f.gain = true) :
      Reduces (.zeroPoleGain f) ((ofRoots f.zeros).map (· * f.gain)) (ofRoots f.poles) f.x0 f.u0
  | controller (f : ControllerForm α) {terms : Terms}
      (hfinite : allFinite [f.kp, f.ki, f.kd, f.t] = true)
      (hterms : Terms.ofGains f.kp f.ki f.kd = .ok terms)
      (ht : terms.hasDerivative = true → Coefficient.isPositive f.t = true) :
      Reduces (.controller f) (terms.quotient f.kp f.ki f.kd f.t).1
        (terms.quotient f.kp f.ki f.kd f.t).2 f.x0 f.u0

variable [Zero α] [One α] [Neg α] [Add α] [Sub α] [Mul α] [Div α] {d : Description α}

omit [Zero α] [One α] [Neg α] [Add α] [Sub α] [Mul α] [Div α] in
theorem ofGains_eq_error {kp ki kd : α} {e : ModelError α}
    (h : Terms.ofGains kp ki kd = .error e) : e = .noActiveGain := by
  unfold Terms.ofGains at h
  split at h <;> cases h
  rfl

/-- Past the check for finite values a controller is rejected for its gains or its time constant. -/
theorem realizeController_of_finite {f : ControllerForm α}
    (hfinite : allFinite [f.kp, f.ki, f.kd, f.t] = true) :
    (Description.controller f).realize =
      (Terms.ofGains f.kp f.ki f.kd >>= fun terms =>
        if terms.hasDerivative && !Coefficient.isPositive f.t then .error (.timeConstant f.t)
        else
          realizeQuotient (terms.quotient f.kp f.ki f.kd f.t).1
            (terms.quotient f.kp f.ki f.kd f.t).2 f.x0 f.u0) := by
  simp only [allFinite, List.all_cons, List.all_nil, Bool.and_true, Bool.and_eq_true] at hfinite
  obtain ⟨hkp, hki, hkd, ht⟩ := hfinite
  simp only [realize, realizeController, hkp, hki, hkd, ht, Bool.not_true, Bool.false_eq_true,
    if_false]
  rfl

theorem realizeController_of_not_finite {f : ControllerForm α}
    (hfinite : ¬allFinite [f.kp, f.ki, f.kd, f.t] = true) :
    ∃ what, (Description.controller f).realize = .error (.nonFinite what) := by
  simp only [realize, realizeController]
  split
  · exact ⟨_, rfl⟩
  split
  · exact ⟨_, rfl⟩
  split
  · exact ⟨_, rfl⟩
  split
  · exact ⟨_, rfl⟩
  · refine absurd ?_ hfinite
    simp_all [allFinite]

theorem Reduces.realize {num den : List α} {x0 : Option (List α)} {u0 : Option α}
    (h : d.Reduces num den x0 u0) : d.realize = realizeQuotient num den x0 u0 := by
  cases h with
  | transferFunction f => rfl
  | zeroPoleGain f hzeros hpoles hgain =>
    simp only [Description.realize, realizeFactors, hzeros, hpoles, hgain, Bool.not_true,
      Bool.false_eq_true, if_false]
  | controller f hfinite hterms ht =>
    rw [realizeController_of_finite hfinite, hterms]
    refine if_neg fun hguard => ?_
    rw [Bool.and_eq_true, Bool.not_eq_true'] at hguard
    cases (ht hguard.1).symm.trans hguard.2

/-- What is not reduced to a quotient is rejected for something else than its dimensions. -/
theorem reduces_or_error (hd : ∀ f, d ≠ .stateSpace f) :
    (∃ num den x0 u0, d.Reduces num den x0 u0) ∨
      ∃ e, d.realize = .error e ∧ ∀ what expected actual, e ≠ .shape what expected actual := by
  cases d with
  | stateSpace f => exact absurd rfl (hd f)
  | transferFunction f => exact .inl ⟨_, _, _, _, .transferFunction f⟩
  | zeroPoleGain f =>
    simp only [realize, realizeFactors]
    cases hzeros : allFinite f.zeros with
    | false => exact .inr ⟨_, rfl, by simp⟩
    | true =>
      cases hpoles : allFinite f.poles with
      | false => exact .inr ⟨_, rfl, by simp⟩
      | true =>
        cases hgain : Coefficient.isFinite f.gain with
        | false => exact .inr ⟨_, rfl, by simp⟩
        | true => exact .inl ⟨_, _, _, _, .zeroPoleGain f hzeros hpoles hgain⟩
  | controller f =>
    by_cases hfinite : allFinite [f.kp, f.ki, f.kd, f.t] = true
    · rw [realizeController_of_finite hfinite]
      cases hterms : Terms.ofGains f.kp f.ki f.kd with
      | error e =>
        cases ofGains_eq_error hterms
        exact .inr ⟨_, rfl, by simp⟩
      | ok terms =>
        by_cases ht : (terms.hasDerivative && !Coefficient.isPositive f.t) = true
        · exact .inr ⟨_, if_pos ht, by simp⟩
        · refine .inl ⟨_, _, _, _, .controller f hfinite hterms fun hderivative => ?_⟩
          simpa [hderivative] using ht
    · obtain ⟨what, hwhat⟩ := realizeController_of_not_finite hfinite
      exact .inr ⟨_, hwhat, by simp⟩

/-- The one mismatch of dimensions that a description of one input and one output can have. -/
theorem realize_eq_shape_iff (hd : ∀ f, d ≠ .stateSpace f) {what : Dimension}
    {expected actual : Nat} :
    d.realize = .error (.shape what expected actual) ↔
      what = .x0Length ∧ ∃ num den x0 u0, d.Reduces num den x0 u0 ∧ (¬∃ e, Rejects num den e) ∧
        HasDegree den expected ∧ ∃ x, x0 = some x ∧ x.length = actual ∧ actual ≠ expected := by
  constructor
  · intro h
    obtain ⟨num, den, x0, u0, hreduces⟩ | ⟨e, he, hshape⟩ := reduces_or_error hd
    · rw [hreduces.realize] at h
      obtain ⟨hwhat, hrest⟩ := realizeQuotient_eq_shape_iff.1 h
      exact ⟨hwhat, num, den, x0, u0, hreduces, hrest⟩
    · cases h.symm.trans he
      exact absurd rfl (hshape what expected actual)
  · rintro ⟨hwhat, num, den, x0, u0, hreduces, hrest⟩
    rw [hreduces.realize]
    exact realizeQuotient_eq_shape_iff.2 ⟨hwhat, hrest⟩

end Description

/-! ## A common factor -/

section Exact

variable {K : Type} [Field K] [Coefficient K] [Exact K] {c : K}

theorem stripLeadingZeros_map_mul (hc : c ≠ 0) (p : List K) :
    stripLeadingZeros (p.map (c * ·)) = (stripLeadingZeros p).map (c * ·) := by
  have hzero : (Coefficient.isZero ∘ (c * ·) : K → Bool) = Coefficient.isZero := by
    funext x
    rw [Function.comp_apply, Bool.eq_iff_iff, Exact.isZero_iff, Exact.isZero_iff, mul_eq_zero,
      or_iff_right hc]
  rw [stripLeadingZeros, List.dropWhile_map, hzero, stripLeadingZeros]

theorem stripToOne_map_mul (hc : c ≠ 0) (p : List K) :
    stripToOne (p.map (c * ·)) = (stripToOne p).map (c * ·) := by
  rw [stripToOne, stripLeadingZeros_map_mul hc, stripToOne]
  cases stripLeadingZeros p with
  | nil => simp
  | cons x p => rfl

theorem companion_map_mul (hc : c ≠ 0) (num den : List K) :
    companion (num.map (c * ·)) (den.map (c * ·)) = companion num den := by
  have hmap (lead : K) (p : List K) :
      (p.map (c * ·)).map (· / (c * lead)) = p.map (· / lead) := by
    rw [List.map_map]
    refine List.map_congr_left fun x _ => ?_
    exact mul_div_mul_left x lead hc
  rw [companion, companion, stripLeadingZeros_map_mul hc, stripToOne_map_mul hc]
  simp only [allFinite_eq_true, Bool.not_true, Bool.false_eq_true, if_false]
  cases stripLeadingZeros den with
  | nil => rfl
  | cons lead lower =>
    simp only [List.map_cons, List.length_map, mul_div_mul_left _ lead hc, hmap]

end Exact

/-! ## Doubles -/

theorem float_isZero_of_pos {x : Float} (h : Coefficient.isPositive x = true) :
    Coefficient.isZero x = false := by
  have hlt : (0 : Float).toModel.unpack.lt x.toModel.unpack = true :=
    of_decide_eq_true (of_decide_eq_true h)
  show x.toModel.unpack.beq (0 : Float).toModel.unpack = false
  rw [Number.unpack_zero] at hlt ⊢
  cases hx : x.toModel.unpack with
  | zero s =>
    rw [hx] at hlt
    cases hlt
  | notANumber => rfl
  | infinity s => cases s <;> rfl
  | finite s m e hm => cases s <;> rfl

theorem float_of_zero {x : Float} (h : x = 0 ∨ x = -0) :
    Coefficient.isFinite x = true ∧ Coefficient.isZero x = true := by
  rcases h with rfl | rfl
  · exact ⟨rfl, rfl⟩
  · exact ⟨rfl, rfl⟩

theorem hasDegree_poles (f : FactoredForm Float) : HasDegree (ofRoots f.poles) f.poles.length := by
  obtain ⟨lower, hpoles, hlower⟩ := exists_ofRoots_eq (show (0 : Float) + 1 = 1 from rfl) f.poles
  rw [hpoles, ← hlower]
  exact hasDegree_cons rfl lower

theorem hasDegree_den {terms : Terms} (kp ki kd : Float) {t : Float}
    (ht : terms.hasDerivative = true → Coefficient.isPositive t = true) :
    HasDegree (terms.quotient kp ki kd t).2 terms.stateCount := by
  cases terms with
  | p | i | pi => exact hasDegree_cons rfl _
  | d | pd | id | pid => exact hasDegree_cons (float_isZero_of_pos (ht rfl)) _

/-- The companion form is worked out within the bounds of every list. A quotient of doubles is
rejected for what `Rejects` says, and has otherwise a companion form with one state for each degree
of the denominator. Transfer functions, factored forms and controllers have no mismatch of
dimensions but that of start states that are not as many. Zeros in front of the coefficients make
no difference, and for exact numbers neither does a common factor. -/
theorem singleInput_realize :
    (∀ num den : List Float, companion? num den = some (companion num den)) ∧
    (∀ (num den : List Float) (x0 : Option (List Float)) (u0 : Option Float)
      (e : ModelError Float), e.OfQuotient →
        (realizeQuotient num den x0 u0 = .error e ↔ Rejects num den e)) ∧
    (∀ num den : List Float, (¬∃ e, Rejects num den e) →
      ∃ ms n, companion num den = .ok ms ∧ HasDegree den n ∧ ms.A.height = n ∧ ms.A.cols = n ∧
        ms.B.height = n ∧ ms.B.cols = 1 ∧ ms.C.height = 1 ∧ ms.C.cols = n ∧ ms.D.height = 1 ∧
        ms.D.cols = 1) ∧
    (∀ d : Description Float, (∀ f, d ≠ .stateSpace f) →
      ∀ (what : Dimension) (expected actual : Nat),
        d.realize = .error (.shape what expected actual) ↔
          what = .x0Length ∧ ∃ num den x0 u0, d.Reduces num den x0 u0 ∧
            (¬∃ e, Rejects num den e) ∧ HasDegree den expected ∧
            ∃ x, x0 = some x ∧ x.length = actual ∧ actual ≠ expected) ∧
    (∀ (f : FactoredForm Float) (num den : List Float) (x0 : Option (List Float))
      (u0 : Option Float), (Description.zeroPoleGain f).Reduces num den x0 u0 →
        HasDegree den f.poles.length) ∧
    (∀ (f : ControllerForm Float) (num den : List Float) (x0 : Option (List Float))
      (u0 : Option Float), (Description.controller f).Reduces num den x0 u0 →
        ∃ terms, Terms.ofGains f.kp f.ki f.kd = .ok terms ∧ HasDegree den terms.stateCount) ∧
    (∀ (f : QuotientForm Float) (zeros zeros' : List Float), (∀ z ∈ zeros, z = 0 ∨ z = -0) →
      (∀ z ∈ zeros', z = 0 ∨ z = -0) →
        (Description.transferFunction
          { f with num := zeros ++ f.num, den := zeros' ++ f.den }).realize =
            (Description.transferFunction f).realize) ∧
    ∀ {K : Type} [Field K] [Coefficient K] [Exact K] (f : QuotientForm K) (c : K), c ≠ 0 →
      (Description.transferFunction
        { f with num := f.num.map (c * ·), den := f.den.map (c * ·) }).realize =
          (Description.transferFunction f).realize := by
  refine ⟨companion?_eq, fun num den x0 u0 e he => realizeQuotient_eq_error_iff he, ?_,
    fun d hd what expected actual => Description.realize_eq_shape_iff hd, ?_, ?_, ?_, ?_⟩
  · intro num den hnot
    cases hcompanion : companion num den with
    | error e => exact absurd ⟨e, companion_eq_error_iff.1 hcompanion⟩ hnot
    | ok ms =>
      obtain ⟨n, hn, hshapes⟩ := companion_shapes hcompanion
      exact ⟨ms, n, rfl, hn, hshapes⟩
  · intro f num den x0 u0 h
    cases h
    exact hasDegree_poles f
  · intro f num den x0 u0 h
    cases h with
    | controller f hfinite hterms ht => exact ⟨_, hterms, hasDegree_den f.kp f.ki f.kd ht⟩
  · intro f zeros zeros' hzeros hzeros'
    exact realizeQuotient_zeros_append (fun z hz => float_of_zero (hzeros z hz))
      fun z hz => float_of_zero (hzeros' z hz)
  · intro K _ _ _ f c hc
    simp only [Description.realize, realizeQuotient, companion_map_mul hc]

/-- A quotient with one start state too many, the same one behind further zeros, two poles, two
gains, a denominator of zeros, and a common factor. -/
theorem singleInput_realize_second_order :
    let f : QuotientForm Float := ⟨[1], [0, 1, 2, 1], some [0, 0, 0], none⟩
    let g : QuotientForm ℚ := ⟨[1, 1], [1, 2, 1], none, some 1⟩
    (∃ ms n, companion f.num f.den = .ok ms ∧ HasDegree f.den n ∧ ms.A.height = n) ∧
    (Description.transferFunction f).realize = .error (.shape .x0Length 2 3) ∧
    HasDegree (ofRoots [(-1 : Float), -2]) 2 ∧
    HasDegree (Terms.pi.quotient (1 : Float) 2 0 0).2 1 ∧
    (Description.transferFunction
      { f with num := [0, -0] ++ f.num, den := [-0] ++ f.den }).realize =
        (Description.transferFunction f).realize ∧
    realizeQuotient ([1] : List Float) [0, -0] none none = .error .emptyDenominator ∧
    (Description.transferFunction
      { g with num := g.num.map (2 * ·), den := g.den.map (2 * ·) }).realize =
        (Description.transferFunction g).realize := by
  intro f g
  obtain ⟨-, hrejects, hok, hshape, hpoles, hgains, hzeros, hfactor⟩ := singleInput_realize
  have haccepted : ¬∃ e, Rejects f.num f.den e := by
    rintro ⟨e, he⟩
    obtain ⟨ms, hms⟩ : ∃ ms, companion f.num f.den = .ok ms := ⟨_, rfl⟩
    cases hms.symm.trans he.companion
  have hden : HasDegree f.den 2 :=
    ⟨[0], 1, [2, 1], rfl, fun c hc => by rw [List.mem_singleton.1 hc]; rfl, rfl, rfl⟩
  have hnegative : ∀ z ∈ [(0 : Float), -0], z = 0 ∨ z = -0 := by simp
  refine ⟨?_, ?_, hpoles ⟨[], [-1, -2], 3, none, none⟩ _ _ _ _ (.zeroPoleGain _ rfl rfl rfl), ?_,
    hzeros f [0, -0] [-0] hnegative (by simp), ?_, hfactor g 2 two_ne_zero⟩
  · obtain ⟨ms, n, hms, hn, hheight, -⟩ := hok f.num f.den haccepted
    exact ⟨ms, n, hms, hn, hheight⟩
  · exact (hshape (.transferFunction f) (fun _ => nofun) .x0Length 2 3).2
      ⟨rfl, _, _, _, _, .transferFunction f, haccepted, hden, _, rfl, rfl, by decide⟩
  · have hpi : Terms.ofGains (1 : Float) 2 0 = .ok .pi := by decide
    obtain ⟨terms, hterms, hdegree⟩ := hgains ⟨1, 2, 0, 0, none, none⟩ _ _ _ _
      (.controller _ rfl hpi nofun)
    cases hpi.symm.trans hterms
    exact hdegree
  · refine (hrejects [1] [0, -0] none none .emptyDenominator trivial).2
      (.emptyDenominator ?_ ?_ fun z hz => (float_of_zero (hnegative z hz)).2)
    · intro c hc
      rw [List.mem_singleton.1 hc]
      rfl
    · exact fun z hz => (float_of_zero (hnegative z hz)).1

end Model
end LtiUnit
