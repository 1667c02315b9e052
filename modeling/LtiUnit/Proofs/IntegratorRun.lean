import LtiUnit.Proofs.HookRuns
import Mathlib.Logic.Function.Iterate
import Mathlib.Tactic.Linarith

/-!
# LtiUnit.Proofs.IntegratorRun

The routine that integrates over a communication step, run on any registers.

* `runs_updateStates` — it takes as many substeps of forward Euler as `substeps` says.
-/

namespace LtiUnit
namespace Source

open Program

/-- A program with the macros that pace its integration: the longest substep, and the least number
of substeps. -/
structure Program.Paces (p : Program) (step : ℚ) : Prop where
  stepSize : ∃ c, p.expansion "STEP_SIZE" = some (.real c) ∧ p.worth c = step
  leastSubsteps : p.expansion "EULER_SUBSTEPS" = some (.natural leastSubsteps)

/-- The number of substeps over `h`: the least one for which none is longer than `step`. -/
def substeps (step h : ℚ) : Nat := max leastSubsteps ⌈h / step⌉₊

/-- The registers after the derivatives have been updated and `j` states moved along them. -/
def System.moved (m : System) (dt : ℚ) (r : Nat → ℚ) (j : Nat) : Nat → ℚ :=
  fill (m.layout.base .state) j
    (fun i => r (m.layout.base .state + i) + dt * m.derivative r i)
    (fill (m.layout.base .derivative) m.layout.nx (m.derivative r) r)

/-- One substep of forward Euler. The derivatives are left in their registers. -/
def System.eulerStep (m : System) (dt : ℚ) (r : Nat → ℚ) : Nat → ℚ := m.moved dt r m.layout.nx

section Integrator

variable {p : Program} {m : System} {r : Nat → ℚ} {step h dt : ℚ} {n : Nat}

/-- The state of the integration, with the counters of its loops. -/
def integration (r : Nat → ℚ) (h dt : ℚ) (n : Nat) (k i : Option Value) : State :=
  ⟨r, [⟨.real, "dt", some (.number dt)⟩, ⟨.size, "k", k⟩, ⟨.size, "i", i⟩,
    ⟨.size, "n", some (.count n)⟩, instanceLocal, ⟨.real, "h", some (.number h)⟩]⟩

theorem moved_state {j : Nat} (hj : j < m.layout.nx) :
    m.moved dt r j (m.layout.base .state + j) = r (m.layout.base .state + j) := by
  rw [System.moved, fill_apart (.inr (Nat.le_refl _)), fill_apart]
  exact m.layout.blocks_apart (b := .state) (c := .derivative) (by decide) hj

theorem moved_derivative {j : Nat} (hj : j < m.layout.nx) :
    m.moved dt r j (m.layout.base .derivative + j) = m.derivative r j := by
  rw [System.moved, fill_apart, fill_at hj]
  rw [Layout.base_state, Layout.base_derivative]
  omega

/-- The register of round `j`, through the table of a block. -/
theorem eval_placed (r : Nat → ℚ) (dt : ℚ) {b : Block} {j : Nat} {k : Option Value} (hp : p.Holds m)
    (hb : b ∈ [Block.state, .derivative, .output]) (hj : j < m.layout.size b) :
    p.eval (integration r h dt n k (some (.count j)))
        (Hooks.register (Hooks.ofI ("vrs_" ++ b.name))) =
      some (.number (r (m.layout.base b + j))) ∧
    ∀ q, p.store (integration r h dt n k (some (.count j)))
        (Hooks.register (Hooks.ofI ("vrs_" ++ b.name))) (.number q) =
      some (integration (fill (m.layout.base b + j) 1 (fun _ => q) r) h dt n k
        (some (.count j))) := by
  have hi := hp.plain "i" (by decide)
  have hcomp := hp.plain "comp" (by decide)
  obtain ⟨hplain, -⟩ := plain_tables b hb
  have hlocal : "vrs_" ++ b.name ∉ ["dt", "k", "i", "n", "comp", "h"] := by
    have hall : ∀ b ∈ [Block.state, .derivative, .output],
        "vrs_" ++ b.name ∉ ["dt", "k", "i", "n", "comp", "h"] := by decide
    exact hall b hb
  have htable := hp.references b hb (by omega)
  have hplace : (m.layout.registers b)[j]? = some (m.layout.base b + j) := by
    rw [Layout.registers_eq, List.getElem?_map, List.getElem?_range hj]
    rfl
  have hroom : m.layout.base b + j < p.registerCount := by
    rw [hp.registerCount]
    exact m.layout.lt_registerCount hj
  generalize "vrs_" ++ b.name = table at hplain hlocal htable ⊢
  have hindex : p.eval (integration r h dt n k (some (.count j))) (Hooks.ofI table) =
      some (.count (m.layout.base b + j)) := by
    simp only [List.mem_cons, List.not_mem_nil, or_false, not_or] at hlocal
    simp [eval, evalBy, nameValue, hi, hp.plain table hplain, variableValue, integration,
      instanceLocal, Hooks.ofI, element, htable, hplace, Ne.symm hlocal.1, Ne.symm hlocal.2.1,
      Ne.symm hlocal.2.2.1, Ne.symm hlocal.2.2.2.1, Ne.symm hlocal.2.2.2.2.1,
      Ne.symm hlocal.2.2.2.2.2]
  have hregisters : p.eval (integration r h dt n k (some (.count j)))
      (.member (.name "comp") "r") = some (.registers 0) := by
    simp [eval, evalBy, nameValue, hcomp, variableValue, integration, instanceLocal]
  constructor
  · refine eval_entry hregisters hindex ?_
    rw [element, Nat.zero_add, if_pos hroom]
    rfl
  · intro q
    simp [store, Hooks.register, hindex, hregisters, hroom, Value.number?]
    rfl

/-- The loop over the states: each is moved along its derivative. -/
theorem comes_moveStates (hp : p.Holds m) (k i : Option Value) :
    Comes (p.exec · (.count "i" false (.name "NX")
        [.accumulate (Hooks.register (Hooks.ofI "vrs_x"))
          (.expr (.binary .multiply (.name "dt") (Hooks.register (Hooks.ofI "vrs_der"))))])
        (integration (m.moved dt r 0) h dt n k i))
      (integration (m.eulerStep dt r) h dt n k (some (.count m.layout.nx)), none) := by
  have hi := hp.plain "i" (by decide)
  have hdt := hp.plain "dt" (by decide)
  refine comes_count (fun j => integration (m.moved dt r j) h dt n k (some (.count j))) ?_ ?_ ?_ ?_
  · simp [store, hi, setLocal, Value.as, integration]
  · intro j _
    simp [eval, evalBy, nameValue, hi, variableValue, integration]
  · intro j _
    simp [eval, evalBy, nameValue, hp.nx]
  · intro j hj
    have hstep : p.eval (integration (m.moved dt r j) h dt n k (some (.count j))) (.name "dt") =
        some (.number dt) := by
      simp [eval, evalBy, nameValue, hdt, variableValue, integration]
    obtain ⟨hstate, hstore⟩ := eval_placed (m.moved dt r j) dt (b := .state) (h := h)
      (n := n) (k := k) hp (by decide) hj
    obtain ⟨hderivative, -⟩ := eval_placed (m.moved dt r j) dt (b := .derivative)
      (h := h) (n := n) (k := k) hp (by decide) hj
    rw [moved_state hj] at hstate
    rw [moved_derivative hj] at hderivative
    have hmoved : fill (m.layout.base .state + j) 1
        (fun _ => r (m.layout.base .state + j) + dt * m.derivative r j) (m.moved dt r j) =
          m.moved dt r (j + 1) := fill_succ rfl
    refine ⟨integration (m.moved dt r (j + 1)) h dt n k (some (.count j)),
      comes_cons (comes_accumulate (v := .number (dt * m.derivative r j)) (comes_expr ?_)
        hstate rfl ?_) comes_nil, ?_, ?_⟩
    · exact eval_binary hstep hderivative rfl
    · rw [← hmoved]
      exact hstore _
    · simp [eval, evalBy, nameValue, hi, variableValue, integration, State.leave]
    · simp [store, hi, setLocal, Value.as, integration, State.leave]

/-- The loop over the substeps. -/
theorem comes_substeps (dt : ℚ) (hp : p.Holds m) (hs : p.Supplies m.layout)
    (hnx : 0 < m.layout.nx) :
    ∃ i, Comes (p.exec · (.count "k" false (.name "n")
        [Hooks.run "updateDerivatives",
         .count "i" false (.name "NX")
          [.accumulate (Hooks.register (Hooks.ofI "vrs_x"))
            (.expr (.binary .multiply (.name "dt") (Hooks.register (Hooks.ofI "vrs_der"))))]])
        (integration r h dt n none none))
      (integration ((m.eulerStep dt)^[n] r) h dt n (some (.count n)) i, none) := by
  have hk := hp.plain "k" (by decide)
  have hn := hp.plain "n" (by decide)
  have hcomp := hp.plain "comp" (by decide)
  -- the inner counter has no value before the first substep
  refine ⟨_, comes_count (fun k => integration ((m.eulerStep dt)^[k] r) h dt n (some (.count k))
    (if k = 0 then none else some (.count m.layout.nx))) ?_ ?_ ?_ ?_⟩
  · simp [store, hk, setLocal, Value.as, integration]
  · intro k _
    simp [eval, evalBy, nameValue, hk, variableValue, integration]
  · intro k _
    simp [eval, evalBy, nameValue, hn, variableValue, integration]
  · intro k _
    have hinstance : p.eval (integration ((m.eulerStep dt)^[k] r) h dt n (some (.count k))
        (if k = 0 then none else some (.count m.layout.nx))) (.name "comp") = some .component := by
      simp [eval, evalBy, nameValue, hcomp, variableValue, integration, instanceLocal]
    have hcall := runs_updateDerivatives (r := (m.eulerStep dt)^[k] r) hp hs hnx
    refine ⟨integration (m.eulerStep dt ((m.eulerStep dt)^[k] r)) h dt n (some (.count k))
      (some (.count m.layout.nx)), comes_cons (comes_procedure [.component] ?_ hcall)
      (comes_cons (comes_moveStates hp _ _) comes_nil), ?_, ?_⟩
    · simp [hinstance]
    · simp [eval, evalBy, nameValue, hk, variableValue, integration, State.leave]
    · simp [store, hk, setLocal, Value.as, integration, State.leave, Function.iterate_succ_apply']

/-! ## The number of substeps -/

/-- As many substeps as fit into `h`, and one more if they do not fill it. -/
theorem ceil_eq (hstep : 0 < step) : ⌈h / step⌉₊ =
    if (⌊h / step⌋₊ : ℚ) * step < h then ⌊h / step⌋₊ + 1 else ⌊h / step⌋₊ := by
  split_ifs with hshort
  · have hlt := (lt_div_iff₀ hstep).2 hshort
    exact Nat.le_antisymm (Nat.ceil_le_floor_add_one _) (Nat.lt_ceil.2 hlt)
  · have hle := (div_le_iff₀ hstep).2 (not_lt.1 hshort)
    exact Nat.le_antisymm (Nat.ceil_le.2 hle) (Nat.floor_le_ceil _)

/-- The state while the substeps are being counted. -/
def counting (r : Nat → ℚ) (h : ℚ) (n : Nat) : State :=
  ⟨r, [⟨.real, "dt", none⟩, ⟨.size, "k", none⟩, ⟨.size, "i", none⟩,
    ⟨.size, "n", some (.count n)⟩, instanceLocal, ⟨.real, "h", some (.number h)⟩]⟩

section Counting

variable {rest : List (Stmt Literal)} {last : State × Option Value}

theorem eval_stepSize (hc : p.Paces step) (s : State) :
    p.eval s (.name "STEP_SIZE") = some (.number step) := by
  obtain ⟨c, hexpansion, hworth⟩ := hc.stepSize
  simp [eval, evalBy, nameValue, hexpansion, hworth]

theorem eval_counting (hp : p.Holds m) :
    p.eval (counting r h n) (.name "n") = some (.count n) ∧
      p.eval (counting r h n) (.name "h") = some (.number h) := by
  have hn := hp.plain "n" (by decide)
  have hh := hp.plain "h" (by decide)
  simp [eval, evalBy, nameValue, hn, hh, variableValue, counting, instanceLocal]

theorem store_counting (hp : p.Holds m) (n' : Nat) :
    p.store (counting r h n) (.name "n") (.count n') = some (counting r h n') := by
  have hn := hp.plain "n" (by decide)
  simp [store, hn, setLocal, Value.as, counting]

/-- One more substep is counted if the others do not fill the communication step. -/
theorem comes_fillUp (hp : p.Holds m) (hc : p.Paces step)
    (hrest : Comes (p.execAll · rest
      (counting r h (if (n : ℚ) * step < h then n + 1 else n))) last) :
    Comes (p.execAll · (.when
      (.binary .less (.binary .multiply (.cast .real (.name "n")) (.name "STEP_SIZE")) (.name "h"))
      (.increment "n") :: rest) (counting r h n)) last := by
  obtain ⟨hn, hh⟩ := eval_counting (r := r) (h := h) (n := n) hp
  have hcast : p.eval (counting r h n) (.cast .real (.name "n")) = some (.number n) :=
    eval_cast hn rfl
  have htest : p.eval (counting r h n)
      (.binary .less (.binary .multiply (.cast .real (.name "n")) (.name "STEP_SIZE"))
        (.name "h")) = some (.count (if (n : ℚ) * step < h then 1 else 0)) :=
    eval_binary (eval_binary hcast (eval_stepSize hc _) rfl) hh rfl
  refine comes_cons ?_ hrest
  split_ifs with hshort
  · rw [if_pos hshort] at htest
    exact comes_when htest rfl (comes_increment hn rfl (store_counting hp (n + 1)))
  · rw [if_neg hshort] at htest
    exact comes_unless htest rfl

/-- There are at least the least number of substeps. -/
theorem comes_atLeast (hp : p.Holds m) (hc : p.Paces step)
    (hrest : Comes (p.execAll · rest (counting r h (max leastSubsteps n))) last) :
    Comes (p.execAll · (.when (.binary .less (.name "n") (.name "EULER_SUBSTEPS"))
      (.assign (.name "n") (.expr (.name "EULER_SUBSTEPS"))) :: rest) (counting r h n)) last := by
  obtain ⟨hn, -⟩ := eval_counting (r := r) (h := h) (n := n) hp
  have hleast : p.eval (counting r h n) (.name "EULER_SUBSTEPS") =
      some (.count leastSubsteps) := by
    simp [eval, evalBy, nameValue, hc.leastSubsteps]
  have htest : p.eval (counting r h n) (.binary .less (.name "n") (.name "EULER_SUBSTEPS")) =
      some (.count (if n < leastSubsteps then 1 else 0)) := eval_binary hn hleast rfl
  refine comes_cons ?_ hrest
  by_cases hfew : n < leastSubsteps
  · rw [if_pos hfew] at htest
    rw [Nat.max_eq_left (Nat.le_of_lt hfew)]
    exact comes_when htest rfl (comes_assign (comes_expr hleast) (store_counting hp _))
  · rw [if_neg hfew] at htest
    rw [Nat.max_eq_right (Nat.le_of_not_lt hfew)]
    exact comes_unless htest rfl

end Counting

/-- The first count of substeps: those that fit, without the last one if it does not. -/
theorem eval_firstCount (hp : p.Holds m) (hc : p.Paces step) (hstep : 0 < step) (hh : -step < h) :
    p.eval ⟨r, [instanceLocal, ⟨.real, "h", some (.number h)⟩]⟩
        (.cast .size (.paren (.binary .divide (.name "h") (.name "STEP_SIZE")))) =
      some (.count ⌊h / step⌋₊) := by
  have hplain := hp.plain "h" (by decide)
  have hname : p.eval ⟨r, [instanceLocal, ⟨.real, "h", some (.number h)⟩]⟩ (.name "h") =
      some (.number h) := by
    simp [eval, evalBy, nameValue, hplain, variableValue, instanceLocal]
  have hquotient : p.operate .divide (.number h) (.number step) = some (.number (h / step)) := by
    simp [operate, Value.number?, Operator.onNumbers, ne_of_gt hstep]
  have hdefined : -1 < h / step := by
    rw [lt_div_iff₀ hstep]
    linarith
  have hdivide := eval_binary hname (eval_stepSize hc _) hquotient
  exact eval_cast (e := .paren _) hdivide (if_pos hdefined)

/-- The body of the routine goes through as many rounds as `substeps` says, which its outer counter
has reached in the end. -/
theorem comes_integration (hp : p.Holds m) (hs : p.Supplies m.layout) (hc : p.Paces step)
    (hnx : 0 < m.layout.nx) (hstep : 0 < step) (hh : -step < h) (r : Nat → ℚ) :
    ∃ i, Comes (p.execAll · (Hooks.updateStates : Function Literal).body
        ⟨r, [instanceLocal, ⟨.real, "h", some (.number h)⟩]⟩)
      (integration ((m.eulerStep (h / substeps step h))^[substeps step h] r) h
        (h / substeps step h) (substeps step h) (some (.count (substeps step h))) i, none) := by
  have hsome : (substeps step h : ℚ) ≠ 0 := by
    have : leastSubsteps ≤ substeps step h := Nat.le_max_left _ _
    have : 0 < leastSubsteps := by decide
    exact Nat.cast_ne_zero.2 (by omega)
  have hdt := hp.plain "dt" (by decide)
  have hassign : Comes (p.exec · (.assign (.name "dt")
      (.expr (.binary .divide (.name "h") (.cast .real (.name "n")))))
      (counting r h (substeps step h)))
      (integration r h (h / substeps step h) (substeps step h) none none, none) := by
    obtain ⟨hn, hname⟩ := eval_counting (r := r) (h := h) (n := substeps step h) hp
    have hquotient : p.operate .divide (.number h) (.number (substeps step h)) =
        some (.number (h / substeps step h)) := by
      simp [operate, Value.number?, Operator.onNumbers, hsome]
    refine comes_assign (comes_expr (eval_binary hname (eval_cast hn rfl) hquotient)) ?_
    simp [store, hdt, setLocal, Value.as, Value.number?, counting, integration]
  obtain ⟨i, hloop⟩ := comes_substeps (h / substeps step h) (r := r) (h := h)
    (n := substeps step h) hp hs hnx
  have hcounted : max leastSubsteps (if (⌊h / step⌋₊ : ℚ) * step < h then ⌊h / step⌋₊ + 1
      else ⌊h / step⌋₊) = substeps step h := by
    rw [substeps, ceil_eq hstep]
  refine ⟨i, comes_cons (comes_define (eval_firstCount hp hc hstep hh) rfl)
    (comes_cons (comes_declare _) (comes_cons (comes_declare _) ?_))⟩
  refine comes_fillUp (n := ⌊h / step⌋₊) hp hc (comes_atLeast hp hc ?_)
  rw [hcounted]
  exact comes_cons hassign (comes_cons hloop comes_nil)

/-- Over a communication step, the states take substeps of forward Euler. -/
theorem runs_updateStates (hp : p.Holds m) (hs : p.Supplies m.layout) (hc : p.Paces step)
    (hnx : 0 < m.layout.nx) (hstep : 0 < step) (hh : -step < h) (r : Nat → ℚ) :
    Comes (p.call · "updateStates" [.component, .number h] r)
      ((m.eulerStep (h / substeps step h))^[substeps step h] r, none) := by
  have hroutine := hs.updateStates
  rw [if_pos hnx] at hroutine
  have hbind : bind (Hooks.updateStates : Function Literal).params [.component, .number h] =
      some [instanceLocal, ⟨.real, "h", some (.number h)⟩] := rfl
  obtain ⟨i, hbody⟩ := comes_integration hp hs hc hnx hstep hh r
  exact comes_call hroutine hbind hbody rfl

end Integrator

end Source
end LtiUnit
