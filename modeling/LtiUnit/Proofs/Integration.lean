import LtiUnit.Proofs.Equations
import Mathlib.Algebra.BigOperators.Fin
import Mathlib.Data.Matrix.Mul

/-!
# LtiUnit.Proofs.Integration

Integration over a communication step, seen from the vectors in the registers.

* `stateIn_eulerStep`, `derivativeIn_eulerStep` — a substep of the routine, which goes
  through the registers one by one, is a substep of forward Euler on the whole state.
* `integrates_of_holds` — the routine takes so many of them that none is longer than the step size.
* `source_integrates` — the text of a unit has such a routine.
-/

namespace LtiUnit
namespace Source

open Program
open Model (StateSpace)

namespace System

variable (m : System) (r : Nat → ℚ)

/-- The state in the registers. -/
def stateIn : Fin m.layout.nx → ℚ := fun i => r (m.layout.base .state + i)

/-- The derivatives in the registers. -/
def derivativeIn : Fin m.layout.nx → ℚ := fun i => r (m.layout.base .derivative + i)

/-- The input in the registers. -/
def inputIn : Fin m.layout.nu → ℚ := fun i => r (m.layout.base .input + i)

def stateMatrix : Matrix (Fin m.layout.nx) (Fin m.layout.nx) ℚ := .of fun i j => m.A i j

def inputMatrix : Matrix (Fin m.layout.nx) (Fin m.layout.nu) ℚ := .of fun i j => m.B i j

/-- The slope of the state: `A x + B u`. -/
def slope (u : Fin m.layout.nu → ℚ) (x : Fin m.layout.nx → ℚ) : Fin m.layout.nx → ℚ :=
  m.stateMatrix.mulVec x + m.inputMatrix.mulVec u

/-- A substep of forward Euler: `x + dt (A x + B u)`. -/
def euler (dt : ℚ) (u : Fin m.layout.nu → ℚ) (x : Fin m.layout.nx → ℚ) : Fin m.layout.nx → ℚ :=
  x + dt • m.slope u x

end System

/-- The routine of a program for the states, called for a communication step `h` on the registers
`r`, leaves the registers `r'`, by `n` substeps of length `dt`. -/
structure Program.Integrates (p : Program) (m : System) (h dt : ℚ) (n : Nat)
    (r r' : Nat → ℚ) : Prop where
  call : Comes (p.call · "updateStates" [.component, .number h] r) (r', none)
  /-- At the end of its body, `k` has counted the substeps. -/
  counted : ∃ f arguments i, p.routine "updateStates" = some f ∧
    bind f.params [.component, .number h] = some arguments ∧
    Comes (p.execAll · f.body ⟨r, arguments⟩) (integration r' h dt n (some (.count n)) i, none)
  state : m.stateIn r' = (m.euler dt (m.inputIn r))^[n] (m.stateIn r)
  /-- The derivatives are those of the state before the last substep. -/
  derivative : m.derivativeIn r' =
    m.slope (m.inputIn r) ((m.euler dt (m.inputIn r))^[n - 1] (m.stateIn r))
  unchanged : ∀ b ∉ [Block.derivative, .state], ∀ i < m.layout.size b,
    r' (m.layout.base b + i) = r (m.layout.base b + i)

section Substeps

variable {m : System} {step h : ℚ}

theorem derivative_eq_slope (r : Nat → ℚ) (i : Fin m.layout.nx) :
    m.derivative r i = m.slope (m.inputIn r) (m.stateIn r) i := by
  have hproduct {n : Nat} (row : Nat → ℚ) (v : Nat → ℚ) :
      ∑ j ∈ Finset.range n, row j * v j = ∑ j : Fin n, row j * v j := Finset.sum_range _
  rw [System.derivative, System.product, System.product, hproduct, hproduct]
  rfl

theorem inputIn_iterate (dt : ℚ) (n : Nat) (r : Nat → ℚ) :
    m.inputIn ((m.eulerStep dt)^[n] r) = m.inputIn r := by
  funext i
  have hframe := modifiesOnly_iterate (modifiesOnly_eulerStep (m := m) dt) n r
  exact hframe.kept (b := .input) (by decide) i.isLt

/-- All derivatives are taken before the first state is moved. -/
theorem derivativeIn_eulerStep (dt : ℚ) (r : Nat → ℚ) :
    m.derivativeIn (m.eulerStep dt r) = m.slope (m.inputIn r) (m.stateIn r) := by
  funext i
  have hfilled : m.derivativeIn (m.eulerStep dt r) i = m.derivative r i := by
    rw [System.derivativeIn, System.eulerStep, System.moved]
    exact fill_before (b := .derivative) (c := .state) (by decide) i.isLt
  rw [hfilled, derivative_eq_slope]

theorem stateIn_eulerStep (dt : ℚ) (r : Nat → ℚ) :
    m.stateIn (m.eulerStep dt r) = m.euler dt (m.inputIn r) (m.stateIn r) := by
  funext i
  have hmoved : m.stateIn (m.eulerStep dt r) i = m.stateIn r i + dt * m.derivative r i := by
    rw [System.stateIn, System.eulerStep, System.moved, fill_at i.isLt]
    rfl
  rw [hmoved, derivative_eq_slope]
  rfl

theorem stateIn_iterate (dt : ℚ) (n : Nat) (r : Nat → ℚ) :
    m.stateIn ((m.eulerStep dt)^[n] r) = (m.euler dt (m.inputIn r))^[n] (m.stateIn r) := by
  induction n with
  | zero => rfl
  | succ n ih =>
    -- the input that the next substep reads is still the first one
    rw [Function.iterate_succ_apply', Function.iterate_succ_apply', stateIn_eulerStep,
      inputIn_iterate, ih]

theorem derivativeIn_iterate (dt : ℚ) {n : Nat} (hn : 0 < n) (r : Nat → ℚ) :
    m.derivativeIn ((m.eulerStep dt)^[n] r) =
      m.slope (m.inputIn r) ((m.euler dt (m.inputIn r))^[n - 1] (m.stateIn r)) := by
  obtain ⟨k, rfl⟩ := Nat.exists_eq_add_of_lt hn
  rw [Nat.zero_add, Function.iterate_succ_apply', derivativeIn_eulerStep, inputIn_iterate,
    stateIn_iterate, Nat.add_sub_cancel]

/-! ## The length of a substep -/

theorem substeps_pos (step h : ℚ) : 0 < substeps step h :=
  Nat.lt_of_lt_of_le (by decide : 0 < leastSubsteps) (Nat.le_max_left _ _)

/-- The substeps fill the communication step. -/
theorem substeps_mul_length (step h : ℚ) : substeps step h * (h / substeps step h) = h :=
  mul_div_cancel₀ h (Nat.cast_ne_zero.2 (Nat.ne_of_gt (substeps_pos step h)))

theorem substep_le (hstep : 0 < step) : h / substeps step h ≤ step := by
  have hmany : h / step ≤ substeps step h :=
    (Nat.le_ceil _).trans (Nat.cast_le.2 (Nat.le_max_right _ _))
  rw [div_le_iff₀ hstep] at hmany
  rw [div_le_iff₀ (Nat.cast_pos.2 (substeps_pos step h)), mul_comm]
  exact hmany

theorem integrates_of_holds {p : Program} (hp : p.Holds m) (hs : p.Supplies m.layout)
    (hc : p.Paces step) (hnx : 0 < m.layout.nx) (hstep : 0 < step) (hh : -step < h)
    (r : Nat → ℚ) :
    p.Integrates m h (h / substeps step h) (substeps step h) r
      ((m.eulerStep (h / substeps step h))^[substeps step h] r) where
  call := runs_updateStates hp hs hc hnx hstep hh r
  counted := by
    have hroutine := hs.updateStates
    rw [if_pos hnx] at hroutine
    obtain ⟨i, hbody⟩ := comes_integration hp hs hc hnx hstep hh r
    exact ⟨_, _, i, hroutine, rfl, hbody⟩
  state := stateIn_iterate _ _ r
  derivative := derivativeIn_iterate _ (substeps_pos step h) r
  unchanged := fun _ hb _ hi =>
    (modifiesOnly_iterate (modifiesOnly_eulerStep _) _ r).kept hb hi

end Substeps

/-! ## The text of a unit -/

section Unit

variable (m : StateSpace Float) (id : Identity) {step : Float}

/-- Over a communication step `h`, the routine in the text of a unit with states takes as many
substeps as fill `h`, at least a hundred and none of them longer than the step size. -/
theorem source_integrates (hnx : 0 < m.nx) (hvalid : Render.validStepSize step = true) :
    ∃ text p, Render.source m m.layout id step = .ok text ∧
      Program.ofText? Literal.worth text = some (p, max m.layout.registerCount 1) ∧
      0 < Number.exact step ∧
      ∀ h > 0, ∀ r, ∃ n dt r', n = max 100 ⌈h / Number.exact step⌉₊ ∧ dt = h / n ∧
        n * dt = h ∧ dt ≤ Number.exact step ∧
        p.Integrates (systemOf Number.exact m) h dt n r r' := by
  obtain ⟨hfinite, hpos⟩ : step.isFinite = true ∧ 0 < step := by
    simpa [Render.validStepSize] using hvalid
  have hstep := Number.exact_pos hfinite hpos
  have hlayout : Render.checkLayout m m.layout = .ok () := if_pos rfl
  refine ⟨Render.textOf (Render.sourceLines m id step), programOf Literal.worth m id step, ?_,
    ofText?_source _ m id step, hstep, fun h hh r => ?_⟩
  · rw [Render.source, hlayout, hvalid]
    rfl
  · have hholds := holds_programOf m id step Literal.worth_zero fun x _ => Literal.worth_of x
    have hruns := integrates_of_holds hholds (supplies_programOf m id step)
      (paces_programOf m id hfinite hpos) hnx hstep (h := h) (by linarith) r
    exact ⟨_, _, _, rfl, rfl, substeps_mul_length _ h, substep_le hstep, hruns⟩

theorem source_integrates_lag :
    0 < StateSpace.lag.nx ∧ Render.validStepSize 0.01 = true ∧
      ∃ text p, Render.source StateSpace.lag StateSpace.lag.layout ⟨"lag", by decide, ⟨⟨0⟩, 0⟩⟩
          0.01 = .ok text ∧
        Program.ofText? Literal.worth text = some (p, 6) ∧
        0 < Number.exact 0.01 ∧
        ∀ h > 0, ∀ r, ∃ n dt r', n = max 100 ⌈h / Number.exact 0.01⌉₊ ∧ dt = h / n ∧
          n * dt = h ∧ dt ≤ Number.exact 0.01 ∧
          p.Integrates (systemOf Number.exact StateSpace.lag) h dt n r r' :=
  have hnx : 0 < StateSpace.lag.nx := by decide +kernel
  have h : Render.validStepSize 0.01 = true := by decide +kernel
  ⟨hnx, h, source_integrates StateSpace.lag ⟨"lag", by decide, ⟨⟨0⟩, 0⟩⟩ hnx h⟩

end Unit

end Source
end LtiUnit
