import LtiUnit.Proofs.IntegratorRun
import LtiUnit.Proofs.SpelledNumber
import LtiUnit.Proofs.UnitProgram

/-!
# LtiUnit.Proofs.Equations

The routines in the text of a unit compute the equations of its model.

* `Program.Computes` — what is said of the routines, one by one, for all registers.
* `computes_of_holds` — a program does so if it has the macros, tables and routines of the model.
* `source_computes` — the text of the unit is such a program, with the exact values of the doubles
  it was written for.
-/

namespace LtiUnit
namespace Source

open Model (StateSpace)
open Text (decimal?)

/-! ## Registers that are left alone -/

/-- Registers outside of some blocks are the same before and after. -/
def ModifiesOnly (l : Layout) (bs : List Block) (r r' : Nat → ℚ) : Prop :=
  ∀ k, (∀ b ∈ bs, k < l.base b ∨ l.base b + l.size b ≤ k) → r' k = r k

section Modified

variable {l : Layout} {bs cs : List Block} {b : Block} {r r' r'' f : Nat → ℚ}

theorem modifiesOnly_fill : ModifiesOnly l [b] r (fill (l.base b) (l.size b) f r) :=
  fun _ hk => fill_apart (hk b (List.mem_singleton.2 rfl))

theorem ModifiesOnly.trans (h : ModifiesOnly l bs r r') (h' : ModifiesOnly l cs r' r'') :
    ModifiesOnly l (bs ++ cs) r r'' := by
  intro k hk
  rw [List.forall_mem_append] at hk
  rw [h' k hk.2, h k hk.1]

theorem ModifiesOnly.mono (h : ModifiesOnly l bs r r') (hbs : bs ⊆ cs) :
    ModifiesOnly l cs r r' :=
  fun k hk => h k fun b hb => hk b (hbs hb)

theorem modifiesOnly_iterate {step : (Nat → ℚ) → Nat → ℚ}
    (h : ∀ r, ModifiesOnly l bs r (step r)) (n : Nat) (r : Nat → ℚ) :
    ModifiesOnly l bs r (step^[n] r) := by
  induction n with
  | zero => exact fun _ _ => rfl
  | succ n ih =>
    rw [Function.iterate_succ_apply']
    exact (ih.trans (h _)).mono (List.append_subset.2 ⟨fun _ => id, fun _ => id⟩)

theorem ModifiesOnly.kept (h : ModifiesOnly l bs r r') (hb : b ∉ bs) {i : Nat}
    (hi : i < l.size b) : r' (l.base b + i) = r (l.base b + i) := by
  refine h _ fun c hc => l.blocks_apart (fun hbc => ?_) hi
  exact hb (hbc ▸ hc)

end Modified

/-! ## Equations -/

/-- The routines of a program compute the equations of a system, on any registers. Its calls come to
an end, and so they only touch registers that are there and elements that the tables have. -/
structure Program.Computes (p : Program) (m : System) (step : ℚ) : Prop where
  registerCount : p.registerCount = m.layout.registerCount
  stateRoutines : ∀ f ∈ ["updateDerivatives", "updateStates", "copyX0toX", "resetX"],
    (p.routine f).isSome ↔ 0 < m.layout.nx
  inputRoutines : ∀ f ∈ ["copyU0toU", "resetU"], (p.routine f).isSome ↔ 0 < m.layout.nu
  routines : ∀ f ∈ ["updateOutputs", "evaluate"], (p.routine f).isSome
  updateDerivatives : 0 < m.layout.nx → ∀ r, ∃ r', p.Runs "updateDerivatives" r r' ∧
    ModifiesOnly m.layout [.derivative] r r' ∧
    ∀ i < m.layout.nx, r' (m.layout.base .derivative + i) = m.derivative r i
  updateOutputs : ∀ r, ∃ r', p.Runs "updateOutputs" r r' ∧
    ModifiesOnly m.layout [.output] r r' ∧
    ∀ i < m.layout.ny, r' (m.layout.base .output + i) = m.output r i
  evaluate : ∀ r, ∃ r', p.Runs "evaluate" r r' ∧
    ModifiesOnly m.layout [.derivative, .output] r r' ∧
    (∀ i < m.layout.nx, r' (m.layout.base .derivative + i) = m.derivative r' i) ∧
    ∀ i < m.layout.ny, r' (m.layout.base .output + i) = m.output r' i
  copyX0toX : 0 < m.layout.nx → ∀ r, ∃ r', p.Runs "copyX0toX" r r' ∧
    ModifiesOnly m.layout [.state] r r' ∧
    ∀ i < m.layout.nx, r' (m.layout.base .state + i) = r (m.layout.base .stateStart + i)
  copyU0toU : 0 < m.layout.nu → ∀ r, ∃ r', p.Runs "copyU0toU" r r' ∧
    ModifiesOnly m.layout [.input] r r' ∧
    ∀ i < m.layout.nu, r' (m.layout.base .input + i) = r (m.layout.base .inputStart + i)
  resetX : 0 < m.layout.nx → ∀ r, ∃ r', p.Runs "resetX" r r' ∧
    ModifiesOnly m.layout [.stateStart, .state] r r' ∧
    ∀ i < m.layout.nx, r' (m.layout.base .stateStart + i) = m.x0 i ∧
      r' (m.layout.base .state + i) = m.x0 i
  resetU : 0 < m.layout.nu → ∀ r, ∃ r', p.Runs "resetU" r r' ∧
    ModifiesOnly m.layout [.inputStart, .input] r r' ∧
    ∀ i < m.layout.nu, r' (m.layout.base .inputStart + i) = m.u0 i ∧
      r' (m.layout.base .input + i) = m.u0 i
  /-- Steps back by as much as a substep cannot be counted, so C has nothing to say of them. -/
  updateStates : 0 < m.layout.nx → ∀ h, -step < h → ∀ r, ∃ r',
    Comes (p.call · "updateStates" [.component, .number h] r) (r', none) ∧
    ModifiesOnly m.layout [.derivative, .state] r r'

section Equations

variable {p : Program} {m : System} {step : ℚ} {r r' : Nat → ℚ}

theorem product_congr {b : Block} {bs : List Block} (h : ModifiesOnly m.layout bs r r')
    (hb : b ∉ bs) (row : Nat → ℚ) : m.product r' row b = m.product r row b :=
  Finset.sum_congr rfl fun j hj => by rw [h.kept hb (Finset.mem_range.1 hj)]

theorem derivative_congr {bs : List Block} (h : ModifiesOnly m.layout bs r r')
    (hstate : .state ∉ bs) (hinput : .input ∉ bs) (i : Nat) :
    m.derivative r' i = m.derivative r i := by
  rw [System.derivative, product_congr h hstate, product_congr h hinput]
  rfl

theorem output_congr {bs : List Block} (h : ModifiesOnly m.layout bs r r')
    (hstate : .state ∉ bs) (hinput : .input ∉ bs) (i : Nat) : m.output r' i = m.output r i := by
  rw [System.output, product_congr h hstate, product_congr h hinput]
  rfl

theorem modifiesOnly_eulerStep (dt : ℚ) (r : Nat → ℚ) :
    ModifiesOnly m.layout [.derivative, .state] r (m.eulerStep dt r) := by
  have hderivatives : ModifiesOnly m.layout [.derivative] r
      (fill (m.layout.base .derivative) m.layout.nx (m.derivative r) r) := modifiesOnly_fill
  rw [System.eulerStep, System.moved]
  exact hderivatives.trans (modifiesOnly_fill (b := .state))

/-- A block that was filled before another one. -/
theorem fill_before {l : Layout} {b c : Block} (hbc : b ≠ c) {f g : Nat → ℚ} {i : Nat}
    (hi : i < l.size b) :
    fill (l.base c) (l.size c) g (fill (l.base b) (l.size b) f r) (l.base b + i) = f i := by
  rw [fill_apart (l.blocks_apart hbc hi), fill_at hi]

theorem computes_of_holds (hp : p.Holds m) (hs : p.Supplies m.layout) (hc : p.Paces step)
    (hstep : 0 < step) : p.Computes m step where
  registerCount := hp.registerCount
  stateRoutines := by simp [hs.updateDerivatives, hs.updateStates, hs.copyX0toX, hs.resetX]
  inputRoutines := by simp [hs.copyU0toU, hs.resetU]
  routines := by simp [hs.updateOutputs, hs.evaluate]
  updateDerivatives := fun hnx _ => ⟨_, runs_updateDerivatives hp hs hnx,
    modifiesOnly_fill (b := .derivative), fun _ hi => fill_at hi⟩
  updateOutputs := fun _ => ⟨_, runs_updateOutputs hp hs, modifiesOnly_fill (b := .output),
    fun _ hi => fill_at hi⟩
  evaluate := by
    intro r
    have hderivatives : ModifiesOnly m.layout [.derivative] r
        (fill (m.layout.base .derivative) m.layout.nx (m.derivative r) r) := modifiesOnly_fill
    have hframe : ModifiesOnly m.layout [.derivative, .output] r
        (fill (m.layout.base .output) m.layout.ny (m.output r)
          (fill (m.layout.base .derivative) m.layout.nx (m.derivative r) r)) :=
      hderivatives.trans modifiesOnly_fill
    refine ⟨_, runs_evaluate hp hs, hframe, fun i hi => ?_, fun i hi => ?_⟩
    · rw [derivative_congr hframe (by decide) (by decide)]
      exact fill_before (b := .derivative) (c := .output) (by decide) hi
    · rw [output_congr hframe (by decide) (by decide)]
      exact fill_at hi
  copyX0toX := fun hnx _ => ⟨_, runs_copyX0toX hp hs hnx, modifiesOnly_fill (b := .state),
    fun _ hi => fill_at hi⟩
  copyU0toU := fun hnu _ => ⟨_, runs_copyU0toU hp hs hnu, modifiesOnly_fill (b := .input),
    fun _ hi => fill_at hi⟩
  resetX := fun hnx _ => ⟨_, runs_resetX hp hs hnx,
    (modifiesOnly_fill (b := .stateStart)).trans (modifiesOnly_fill (b := .state)),
    fun _ hi => ⟨fill_before (b := .stateStart) (c := .state) (by decide) hi, fill_at hi⟩⟩
  resetU := fun hnu _ => ⟨_, runs_resetU hp hs hnu,
    (modifiesOnly_fill (b := .inputStart)).trans (modifiesOnly_fill (b := .input)),
    fun _ hi => ⟨fill_before (b := .inputStart) (c := .input) (by decide) hi, fill_at hi⟩⟩
  updateStates := fun hnx _ hh r => ⟨_, runs_updateStates hp hs hc hnx hstep hh r,
    modifiesOnly_iterate (modifiesOnly_eulerStep _) _ r⟩

end Equations

/-! ## The text of a unit -/

section Unit

variable (m : StateSpace Float) (id : Identity) {step : Float}

theorem under_STEP_SIZE (step : Float) :
    under "STEP_SIZE" (macros (Render.textOf (Render.sourceLines m id step))) =
      [[Number.Spelling.literal.text step]] := by
  have hblocks := under_blockMacros "STEP_SIZE" (by rintro ⟨⟩ <;> decide) m.layout
  have hopening : under "STEP_SIZE" ((opening m.layout id step).flatMap (Item.macros ·)) =
      [words (Number.Spelling.literal.text step).toList] := by
    simp [under, opening, origin, Item.macros, Expr.text]
  rw [macros_source, macros_unit, under_append, hopening, hblocks, words_literal]
  rfl

theorem under_EULER_SUBSTEPS (step : Float) :
    under "EULER_SUBSTEPS" (macros (Render.textOf (Render.sourceLines m id step))) =
      [[toString leastSubsteps]] := by
  refine under_size m id step (by rintro ⟨⟩ <;> decide) ?_
  simp [under, opening, origin, Item.macros, Expr.text]

theorem appendDigits?_eq_none {cs : List Char} (h : ∃ c ∈ cs, Number.digitValue? 10 c = none)
    (n : Nat) : Number.appendDigits? 10 n cs = none := by
  induction cs generalizing n with
  | nil => simp at h
  | cons c cs ih =>
    rw [Number.appendDigits?]
    rcases hc : Number.digitValue? 10 c with _ | d
    · rfl
    · refine ih ?_ _
      obtain ⟨c', hmem, hc'⟩ := h
      rcases List.mem_cons.1 hmem with rfl | hmem
      · rw [hc] at hc'
        cases hc'
      · exact ⟨c', hmem, hc'⟩

/-- A step size is read as the constant that it is written as. -/
theorem expansion?_literal (hfinite : step.isFinite = true) (hpos : 0 < step) :
    expansion? [Number.Spelling.literal.text step] = some (.real (.of step)) := by
  obtain ⟨hdigit, hmark⟩ := Number.positive_literal hfinite hpos
  have hoffset : offset? [Number.Spelling.literal.text step] = none := by
    unfold offset?
    split
    · rename_i heq
      simp at heq
    · rfl
  have hnatural : decimal? (Number.Spelling.literal.text step) = none := by
    rw [decimal?, Number.ofDigits?, appendDigits?_eq_none hmark, ite_self]
  simp only [expansion?, hoffset, constant, hnatural]
  exact if_pos hdigit

/-- What a constant stands for: the double nearest to it. -/
def Literal.worth (c : Literal) : ℚ := Number.spelledValue c.text.toList

theorem Literal.worth_of (x : Float) : (Literal.of x).worth = Number.exact x :=
  Number.spelledValue_literal x

theorem Literal.worth_zero : Literal.worth 0 = 0 := by
  have hspelled : (0 : Literal) = .of 0 := by decide +kernel
  rw [hspelled, worth_of]
  decide +kernel

theorem paces_programOf (hfinite : step.isFinite = true) (hpos : 0 < step) :
    (programOf Literal.worth m id step).Paces (Number.exact step) where
  stepSize := ⟨.of step, expansion_programOf m id step (under_STEP_SIZE m id step)
    (expansion?_literal hfinite hpos), Literal.worth_of step⟩
  leastSubsteps := expansion_programOf m id step (under_EULER_SUBSTEPS m id step)
    (expansion?_toString _)

/-- The text of a unit is a program on as many registers as it declares, of which one is there even
if none is used, and its routines compute the equations of the model. -/
theorem source_computes (h : Render.validStepSize step = true) :
    ∃ text p, Render.source m m.layout id step = .ok text ∧
      Program.ofText? Literal.worth text = some (p, max m.layout.registerCount 1) ∧
      p.Computes (systemOf Number.exact m) (Number.exact step) := by
  have hlayout : Render.checkLayout m m.layout = .ok () := if_pos rfl
  obtain ⟨hfinite, hpos⟩ : step.isFinite = true ∧ 0 < step := by
    simpa [Render.validStepSize] using h
  refine ⟨Render.textOf (Render.sourceLines m id step), programOf Literal.worth m id step, ?_,
    ofText?_source _ m id step, ?_⟩
  · rw [Render.source, hlayout, h]
    rfl
  · have hholds := holds_programOf m id step Literal.worth_zero fun x _ => Literal.worth_of x
    exact computes_of_holds hholds (supplies_programOf m id step)
      (paces_programOf m id hfinite hpos) (Number.exact_pos hfinite hpos)

theorem source_computes_lag :
    Render.validStepSize 0.01 = true ∧
      ∃ text p, Render.source StateSpace.lag StateSpace.lag.layout ⟨"lag", by decide, ⟨⟨0⟩, 0⟩⟩
          0.01 = .ok text ∧
        Program.ofText? Literal.worth text = some (p, 6) ∧
        p.Computes (systemOf Number.exact StateSpace.lag) (Number.exact 0.01) :=
  have h : Render.validStepSize 0.01 = true := by decide +kernel
  ⟨h, source_computes StateSpace.lag ⟨"lag", by decide, ⟨⟨0⟩, 0⟩⟩ h⟩

end Unit

end Source
end LtiUnit
