import LtiUnit.Proofs.Interpreter
import LtiUnit.Proofs.Registers
import LtiUnit.Source.Unit
import Mathlib.Algebra.BigOperators.Group.Finset.Basic

/-!
# LtiUnit.Proofs.HookRuns

The routines of a unit, run on any registers.
-/

namespace LtiUnit
namespace Source

open Program

/-- A model in exact numbers: `x' = A x + B u`, `y = C x + D u`, and where it starts. -/
structure System where
  layout : Layout
  A : Nat → Nat → ℚ
  B : Nat → Nat → ℚ
  C : Nat → Nat → ℚ
  D : Nat → Nat → ℚ
  x0 : Nat → ℚ
  u0 : Nat → ℚ

namespace System

variable (m : System) (r : Nat → ℚ)

/-- The product of a row with a block of registers. -/
def product (row : Nat → ℚ) (b : Block) : ℚ :=
  ∑ j ∈ Finset.range (m.layout.size b), row j * r (m.layout.base b + j)

def derivative (i : Nat) : ℚ := m.product r (m.A i) .state + m.product r (m.B i) .input

def output (i : Nat) : ℚ := m.product r (m.C i) .state + m.product r (m.D i) .input

end System

def vectorTable (n : Nat) (f : Nat → ℚ) : Value := .reals ((List.range n).map f)

def matrixTable (rows cols : Nat) (f : Nat → Nat → ℚ) : Value :=
  .matrix ((List.range rows).map fun i => (List.range cols).map (f i))

/-- The names in the routines that stand for variables and tables. -/
def plainNames : List String :=
  ["comp", "i", "k", "n", "h", "dt", "ret", "v1", "v2", "der_i", "y_i", "vrs_x", "vrs_der", "vrs_y",
   "A", "B", "C", "D", "x0_reset", "u0_reset"]

/-- A program with the macros and the tables of a system, of which those of no use are left out. -/
structure Program.Holds (p : Program) (m : System) : Prop where
  registerCount : p.registerCount = m.layout.registerCount
  zero : p.worth 0 = 0
  plain : ∀ x ∈ plainNames, p.expansion x = none
  nx : p.expansion "NX" = some (.natural m.layout.nx)
  nu : p.expansion "NU" = some (.natural m.layout.nu)
  ny : p.expansion "NY" = some (.natural m.layout.ny)
  block : ∀ b, 0 < m.layout.size b →
    p.expansion (blockMacro b) = some (blockPointer (m.layout.base b))
  references : ∀ b ∈ [Block.state, .derivative, .output], 0 < m.layout.size b →
    p.table ("vrs_" ++ b.name) = some (.references (m.layout.registers b))
  A : 0 < m.layout.nx → p.table "A" = some (matrixTable m.layout.nx m.layout.nx m.A)
  B : 0 < m.layout.nx → 0 < m.layout.nu →
    p.table "B" = some (matrixTable m.layout.nx m.layout.nu m.B)
  C : 0 < m.layout.nx → 0 < m.layout.ny →
    p.table "C" = some (matrixTable m.layout.ny m.layout.nx m.C)
  D : 0 < m.layout.ny → 0 < m.layout.nu →
    p.table "D" = some (matrixTable m.layout.ny m.layout.nu m.D)
  x0 : 0 < m.layout.nx → p.table "x0_reset" = some (vectorTable m.layout.nx m.x0)
  u0 : 0 < m.layout.nu → p.table "u0_reset" = some (vectorTable m.layout.nu m.u0)

section Runs

variable {p : Program} {m : System} {r : Nat → ℚ}

/-- The variables that the product of a row runs with. -/
def productState (r : Nat → ℚ) (row : List ℚ) (first n k : Nat) (sum : ℚ) : State :=
  ⟨r, [⟨.real, "ret", some (.number sum)⟩, ⟨.size, "i", some (.count k)⟩,
    ⟨.reals, "v1", some (.reals row)⟩, ⟨.reals, "v2", some (.registers first)⟩,
    ⟨.size, "n", some (.count n)⟩]⟩

theorem comes_innerProduct (hp : p.Holds m)
    (hroutine : p.routine "innerProduct" = some Hooks.innerProduct) {row : Nat → ℚ} {first n : Nat}
    (hfirst : first + n ≤ p.registerCount) :
    Comes (p.call · "innerProduct" [.reals ((List.range n).map row), .registers first, .count n] r)
      (r, some (.number (∑ j ∈ Finset.range n, row j * r (first + j)))) := by
  have hi := hp.plain "i" (by decide)
  have hret := hp.plain "ret" (by decide)
  have hn := hp.plain "n" (by decide)
  have hv1 := hp.plain "v1" (by decide)
  have hv2 := hp.plain "v2" (by decide)
  let list := (List.range n).map row
  let states (k : Nat) : State :=
    productState r list first n k (∑ j ∈ Finset.range k, row j * r (first + j))
  have hloop : Comes (p.exec · (.count "i" true (.name "n")
      [.accumulate (.name "ret")
        (.expr (.binary .multiply (Hooks.ofI "v1") (Hooks.ofI "v2")))])
      ⟨r, [⟨.real, "ret", some (.number 0)⟩, ⟨.size, "i", none⟩,
        ⟨.reals, "v1", some (.reals list)⟩, ⟨.reals, "v2", some (.registers first)⟩,
        ⟨.size, "n", some (.count n)⟩]⟩) (states n, none) := by
    refine comes_count states ?_ ?_ ?_ ?_
    · simp [store, hi, setLocal, Value.as, states, productState]
    · intro k _
      simp [eval, evalBy, nameValue, hi, variableValue, states, productState]
    · intro k _
      simp [eval, evalBy, nameValue, hn, variableValue, states, productState]
    · intro k hk
      have hrow : list[k]? = some (row k) := by simp [list, hk]
      have hlt : first + k < p.registerCount := by omega
      refine ⟨productState r list first n k (∑ j ∈ Finset.range (k + 1), row j * r (first + j)),
        comes_cons (comes_accumulate (v := .number (row k * r (first + k))) (comes_expr ?_)
          (w := .number (∑ j ∈ Finset.range k, row j * r (first + j))) ?_ rfl ?_) comes_nil, ?_, ?_⟩
      · simp [eval, evalBy, nameValue, hi, hv1, hv2, variableValue, states, productState, Hooks.ofI,
          element, hrow, hlt, operate, Value.number?, Operator.onNumbers]
      · simp [eval, evalBy, nameValue, hret, variableValue, states, productState]
      · simp [store, hret, setLocal, Value.as, states, productState, Value.number?,
          Finset.sum_range_succ]
      · simp [eval, evalBy, nameValue, hi, variableValue, states, productState, State.leave]
      · simp [store, hi, setLocal, Value.as, states, productState, State.leave]
  have hbind : bind (Hooks.innerProduct : Function Literal).params
      [.reals list, .registers first, .count n] = some [⟨.reals, "v1", some (.reals list)⟩,
        ⟨.reals, "v2", some (.registers first)⟩, ⟨.size, "n", some (.count n)⟩] := rfl
  refine comes_call hroutine hbind (comes_cons (comes_declare _)
    (comes_cons (comes_define (v := .number 0) ?_ rfl) (comes_cons hloop (comes_return
      (comes_give (v := .number (∑ j ∈ Finset.range n, row j * r (first + j))) ?_))))) rfl
  · simp [eval, evalBy, hp.zero]
  · simp [eval, evalBy, nameValue, hret, variableValue, states, productState]

/-! ## Rounds over a block -/

/-- The instance, the parameter of every routine. -/
def instanceLocal : Local := ⟨.component, "comp", some .component⟩

/-- The state between two rounds of a routine. -/
def betweenRounds (r : Nat → ℚ) (k : Nat) : State :=
  ⟨r, [⟨.size, "i", some (.count k)⟩, instanceLocal]⟩

/-- The state in round `k` of a routine, with the number of a register in a variable. -/
def inRound (r : Nat → ℚ) (x : String) (place k : Nat) : State :=
  ⟨r, [⟨.reference, x, some (.count place)⟩, ⟨.size, "i", some (.count k)⟩, instanceLocal]⟩

/-- A name for the number of a register. -/
structure IsPlace (x : String) : Prop where
  plain : x ∈ plainNames
  notI : x ≠ "i"
  notInstance : x ≠ "comp"

section Round

variable {x : String} {place k : Nat}

theorem eval_register (hp : p.Holds m) (hx : IsPlace x) (hplace : place < p.registerCount) :
    p.eval (inRound r x place k) (Hooks.register (.name x)) = some (.number (r place)) := by
  have hcomp := hp.plain "comp" (by decide)
  have hplain := hp.plain x hx.plain
  simp [eval, evalBy, nameValue, hcomp, hplain, variableValue, inRound, instanceLocal,
    Hooks.register, element, hplace, hx.notInstance]

theorem store_register (hp : p.Holds m) (hx : IsPlace x) (hplace : place < p.registerCount)
    (q : ℚ) : p.store (inRound r x place k) (Hooks.register (.name x)) (.number q) =
      some (inRound (fill place 1 (fun _ => q) r) x place k) := by
  have hcomp := hp.plain "comp" (by decide)
  have hplain := hp.plain x hx.plain
  simp [store, eval, evalBy, nameValue, hcomp, hplain, variableValue, inRound, instanceLocal,
    Hooks.register, Value.number?, hplace, hx.notInstance]

/-- The pointer that the macro of a block stands for. -/
theorem eval_block {b : Block} {s : State} (hp : p.Holds m) (hb : 0 < m.layout.size b)
    (hs : s.locals.find? (fun v => v.name == "comp") = some instanceLocal) :
    p.eval s (.name (blockMacro b)) = some (.registers (m.layout.base b)) := by
  have hbase : m.layout.base b ≤ p.registerCount := by
    rw [hp.registerCount]
    exact Nat.le_of_lt (m.layout.lt_registerCount hb)
  simp [eval, evalBy, nameValue, hp.block b hb, blockPointer, variableValue, hs, instanceLocal,
    operate, hbase]

/-- A row of a matrix in the round of its number, times a block. -/
theorem comes_rowProduct (place : Nat) {b : Block} {matrix length : String} {rows : Nat} {f : Nat → Nat → ℚ}
    (hp : p.Holds m) (hroutine : p.routine "innerProduct" = some Hooks.innerProduct)
    (hx : IsPlace x) (hmatrix : matrix ∈ plainNames) (hnotI : matrix ≠ "i")
    (hnotX : matrix ≠ x) (hnotInstance : matrix ≠ "comp")
    (htable : p.table matrix = some (matrixTable rows (m.layout.size b) f)) (hk : k < rows)
    (hlength : p.expansion length = some (.natural (m.layout.size b)))
    (hb : 0 < m.layout.size b) :
    Comes (p.value · (Hooks.rowProduct matrix (blockMacro b) length) (inRound r x place k))
      (inRound r x place k, .number (m.product r (f k) b)) := by
  have hi := hp.plain "i" (by decide)
  have hfirst : m.layout.base b + m.layout.size b ≤ p.registerCount := by
    have := m.layout.lt_registerCount (b := b) (i := m.layout.size b - 1) (by omega)
    rw [hp.registerCount]
    omega
  have hrow : p.eval (inRound r x place k) (Hooks.ofI matrix) =
      some (.reals ((List.range (m.layout.size b)).map (f k))) := by
    simp [eval, evalBy, nameValue, hi, hp.plain matrix hmatrix, variableValue, inRound,
      instanceLocal, Hooks.ofI, element, htable, matrixTable, hk, hx.notI, hnotI.symm, hnotX.symm,
      hnotInstance.symm]
  have hblock : p.eval (inRound r x place k) (.name (blockMacro b)) =
      some (.registers (m.layout.base b)) :=
    eval_block hp hb (by simp [inRound, hx.notInstance, instanceLocal])
  have hcount : p.eval (inRound r x place k) (.name length) = some (.count (m.layout.size b)) := by
    simp [eval, evalBy, nameValue, hlength]
  refine comes_of_call [.reals ((List.range (m.layout.size b)).map (f k)),
    .registers (m.layout.base b), .count (m.layout.size b)] ?_
    (comes_innerProduct hp hroutine hfirst)
  simp [hrow, hblock, hcount]

variable {rhs : Rhs Literal} {q v : ℚ}

/-- The register of the round is set. -/
theorem comes_setRegister (hp : p.Holds m) (hx : IsPlace x) (hplace : place < p.registerCount)
    (h : Comes (p.value · rhs (inRound r x place k)) (inRound r x place k, .number q)) :
    Comes (p.exec · (.assign (Hooks.register (.name x)) rhs) (inRound r x place k))
      (inRound (fill place 1 (fun _ => q) r) x place k, none) :=
  comes_assign h (store_register hp hx hplace q)

/-- The register of the round is added to. -/
theorem comes_addRegister (hp : p.Holds m) (hx : IsPlace x) (hplace : place < p.registerCount)
    (h : Comes (p.value · rhs (inRound (fill place 1 (fun _ => v) r) x place k))
      (inRound (fill place 1 (fun _ => v) r) x place k, .number q)) :
    Comes (p.exec · (.accumulate (Hooks.register (.name x)) rhs)
        (inRound (fill place 1 (fun _ => v) r) x place k))
      (inRound (fill place 1 (fun _ => v + q) r) x place k, none) := by
  have hold : fill place 1 (fun _ => v) r place = v := fill_at (i := 0) (by decide)
  refine comes_accumulate h (eval_register hp hx hplace)
    (?_ : _ = some (.number (v + q))) ?_
  · rw [hold]
    rfl
  · rw [store_register hp hx hplace, fill_fill]

theorem plain_tables : ∀ b ∈ [Block.state, .derivative, .output],
    "vrs_" ++ b.name ∈ plainNames ∧ "vrs_" ++ b.name ≠ "i" ∧ "vrs_" ++ b.name ≠ "comp" := by
  decide

/-- A loop over the registers of a block, each of which is set in its round. -/
theorem comes_sweep (target : Block) {length : String} {steps : List (Stmt Literal)} {f : Nat → ℚ}
    (hp : p.Holds m) (htarget : target ∈ [Block.state, .derivative, .output])
    (hsize : 0 < m.layout.size target)
    (hlength : p.expansion length = some (.natural (m.layout.size target)))
    (hround : ∀ k < m.layout.size target,
      Comes (p.execAll · steps
          (inRound (fill (m.layout.base target) k f r) x (m.layout.base target + k) k))
        (inRound (fill (m.layout.base target) (k + 1) f r) x (m.layout.base target + k) k, none)) :
    Comes (p.exec · (.count "i" false (.name length)
        (.define .reference x (Hooks.ofI ("vrs_" ++ target.name)) :: steps))
        ⟨r, [⟨.size, "i", none⟩, instanceLocal]⟩)
      (betweenRounds (fill (m.layout.base target) (m.layout.size target) f r)
        (m.layout.size target), none) := by
  have hi := hp.plain "i" (by decide)
  obtain ⟨hplain, hnotI, hnotInstance⟩ := plain_tables target htarget
  refine comes_count (fun k => betweenRounds (fill (m.layout.base target) k f r) k) ?_ ?_ ?_ ?_
  · simp [store, hi, setLocal, Value.as, betweenRounds]
  · intro k _
    simp [eval, evalBy, nameValue, hi, variableValue, betweenRounds]
  · intro k _
    simp [eval, evalBy, nameValue, hlength]
  · intro k hk
    have hplace : (m.layout.registers target)[k]? = some (m.layout.base target + k) := by
      rw [Layout.registers_eq, List.getElem?_map, List.getElem?_range hk]
      rfl
    refine ⟨_, comes_cons (comes_define (v := .count (m.layout.base target + k))
      (w := .count (m.layout.base target + k)) ?_ rfl) (hround k hk), ?_, ?_⟩
    · simp [eval, evalBy, nameValue, hi, hp.plain _ hplain, variableValue, betweenRounds,
        instanceLocal, Hooks.ofI, element, hp.references target htarget hsize, hplace, hnotI.symm,
        hnotInstance.symm]
    · simp [eval, evalBy, nameValue, hi, variableValue, betweenRounds, inRound, State.leave]
    · simp [store, hi, setLocal, Value.as, betweenRounds, inRound, State.leave]

end Round

/-! ## The routines -/

/-- The program has the routines of a system, and no others of their names. -/
structure Program.Supplies (p : Program) (l : Layout) : Prop where
  innerProduct : p.routine "innerProduct" =
    if 0 < l.nx ∨ 0 < l.ny ∧ 0 < l.nu then some Hooks.innerProduct else none
  updateDerivatives : p.routine "updateDerivatives" =
    if 0 < l.nx then some (Hooks.updateDerivatives l) else none
  updateStates : p.routine "updateStates" = if 0 < l.nx then some Hooks.updateStates else none
  updateOutputs : p.routine "updateOutputs" = some (Hooks.updateOutputs l)
  copyX0toX : p.routine "copyX0toX" = if 0 < l.nx then some Hooks.copyX0toX else none
  resetX : p.routine "resetX" = if 0 < l.nx then some Hooks.resetX else none
  copyU0toU : p.routine "copyU0toU" = if 0 < l.nu then some Hooks.copyU0toU else none
  resetU : p.routine "resetU" = if 0 < l.nu then some Hooks.resetU else none
  evaluate : p.routine "evaluate" = some (Hooks.evaluate l)
  memcpy : p.routine "memcpy" = none

/-- A routine called on the instance takes some registers to others. -/
def Program.Runs (p : Program) (f : String) (r r' : Nat → ℚ) : Prop :=
  Comes (p.call · f [.component] r) (r', none)

theorem runs_procedure {name : String} {body : List (Stmt Literal)} {s : State}
    (h : p.routine name = some (Hooks.procedure name [Hooks.component] body))
    (hbody : Comes (p.execAll · body ⟨r, [instanceLocal]⟩) (s, none)) : p.Runs name r s.registers :=
  comes_call h rfl hbody rfl

/-- What is filled into one block makes no difference to products with another one. -/
theorem product_fill {b c : Block} (h : b ≠ c) {first n : Nat} (hlow : m.layout.base c ≤ first)
    (hhigh : first + n ≤ m.layout.base c + m.layout.size c) (row f : Nat → ℚ) :
    m.product (fill first n f r) row b = m.product r row b := by
  refine Finset.sum_congr rfl fun j hj => ?_
  have := m.layout.blocks_apart h (Finset.mem_range.1 hj)
  rw [fill_apart (by omega)]

theorem product_empty {b : Block} (h : m.layout.size b = 0) (row : Nat → ℚ) :
    m.product r row b = 0 := by
  rw [System.product, h, Finset.sum_range_zero]

/-- The product of a row is added to the register of the round, unless the block is empty. -/
theorem comes_addProduct {x matrix length : String} {b c : Block} {rows k : Nat}
    {g : Nat → Nat → ℚ} {f : Nat → ℚ} {v : ℚ} {rest : List (Stmt Literal)}
    {last : State × Option Value} (hp : p.Holds m)
    (hroutine : 0 < m.layout.size b → p.routine "innerProduct" = some Hooks.innerProduct)
    (hx : IsPlace x) (hmatrix : matrix ∈ plainNames)
    (hnames : matrix ≠ "i" ∧ matrix ≠ x ∧ matrix ≠ "comp")
    (htable : 0 < m.layout.size b → p.table matrix = some (matrixTable rows (m.layout.size b) g))
    (hlength : p.expansion length = some (.natural (m.layout.size b))) (hbc : b ≠ c)
    (hk : k < m.layout.size c) (hrows : k < rows)
    (hrest : Comes (p.execAll · rest
      (inRound (fill (m.layout.base c + k) 1 (fun _ => v + m.product r (g k) b)
        (fill (m.layout.base c) k f r)) x (m.layout.base c + k) k)) last) :
    Comes (p.execAll · (Hooks.onlyIf (0 < m.layout.size b)
        [.accumulate (Hooks.register (.name x)) (Hooks.rowProduct matrix (blockMacro b) length)] ++
        rest)
      (inRound (fill (m.layout.base c + k) 1 (fun _ => v) (fill (m.layout.base c) k f r)) x
        (m.layout.base c + k) k)) last := by
  by_cases hb : 0 < m.layout.size b
  · rw [Hooks.onlyIf, if_pos (decide_eq_true hb)]
    have hplace : m.layout.base c + k < p.registerCount := by
      rw [hp.registerCount]
      exact m.layout.lt_registerCount hk
    have hproduct := comes_rowProduct (m.layout.base c + k) (b := b)
      (r := fill (m.layout.base c + k) 1 (fun _ => v) (fill (m.layout.base c) k f r)) hp
      (hroutine hb) hx hmatrix hnames.1 hnames.2.1 hnames.2.2 (htable hb) hrows hlength hb
    rw [product_fill hbc (by omega) (by omega), product_fill hbc (Nat.le_refl _) (by omega)]
      at hproduct
    exact comes_cons (comes_addRegister hp hx hplace hproduct) hrest
  · rw [Hooks.onlyIf, if_neg (by simpa using hb), List.nil_append]
    rwa [product_empty (Nat.eq_zero_of_not_pos hb), add_zero] at hrest

theorem runs_updateDerivatives (hp : p.Holds m) (hs : p.Supplies m.layout) (hnx : 0 < m.layout.nx) :
    p.Runs "updateDerivatives" r
      (fill (m.layout.base .derivative) m.layout.nx (m.derivative r) r) := by
  have hproduct : p.routine "innerProduct" = some Hooks.innerProduct := by
    rw [hs.innerProduct, if_pos (.inl hnx)]
  have hroutine := hs.updateDerivatives
  rw [if_pos hnx, Hooks.updateDerivatives, List.cons_append, List.cons_append, List.nil_append,
    ← List.append_nil (Hooks.onlyIf _ _)] at hroutine
  have hx : IsPlace "der_i" := ⟨by decide, by decide, by decide⟩
  refine runs_procedure hroutine (comes_cons (comes_declare _)
    (comes_cons (comes_sweep .derivative hp (by decide) hnx hp.nx ?_) comes_nil))
  intro k hk
  have hplace : m.layout.base .derivative + k < p.registerCount := by
    rw [hp.registerCount]
    exact m.layout.lt_registerCount hk
  have hA := comes_rowProduct (m.layout.base .derivative + k) (b := .state)
    (r := fill (m.layout.base .derivative) k (m.derivative r) r) hp hproduct hx (by decide)
    (by decide) (by decide) (by decide) (hp.A hnx) hk hp.nx hnx
  rw [product_fill (c := .derivative) (by decide) (Nat.le_refl _) (by omega)] at hA
  refine comes_cons (comes_setRegister hp hx hplace hA) ?_
  refine comes_addProduct (b := .input) (c := .derivative) hp (fun _ => hproduct) hx (by decide)
    (by decide) (hp.B hnx) hp.nu (by decide) hk hk ?_
  have hdone : m.product r (m.A k) .state + m.product r (m.B k) .input = m.derivative r k := rfl
  dsimp only
  rw [fill_succ hdone]
  exact comes_nil

theorem runs_updateOutputs (hp : p.Holds m) (hs : p.Supplies m.layout) :
    p.Runs "updateOutputs" r (fill (m.layout.base .output) m.layout.ny (m.output r) r) := by
  by_cases hny : m.layout.ny = 0
  · have hbody : (Hooks.updateOutputs m.layout : Function Literal) =
        Hooks.procedure "updateOutputs" [Hooks.component] [.discard "comp"] := by
      rw [Hooks.updateOutputs, if_pos hny]
    have hcomp := hp.plain "comp" (by decide)
    rw [hny, fill_zero]
    refine runs_procedure (s := ⟨r, [instanceLocal]⟩) (hbody ▸ hs.updateOutputs)
      (comes_cons (comes_discard (v := .component) ?_) comes_nil)
    simp [eval, evalBy, nameValue, hcomp, variableValue, instanceLocal]
  have hny : 0 < m.layout.ny := Nat.pos_of_ne_zero hny
  have hroutine := hs.updateOutputs
  rw [Hooks.updateOutputs, if_neg (Nat.ne_of_gt hny), List.append_assoc, List.cons_append,
    List.cons_append, List.nil_append, ← List.append_nil (Hooks.onlyIf (0 < m.layout.nu) _)]
    at hroutine
  have hx : IsPlace "y_i" := ⟨by decide, by decide, by decide⟩
  refine runs_procedure hroutine (comes_cons (comes_declare _)
    (comes_cons (comes_sweep .output hp (by decide) hny hp.ny ?_) comes_nil))
  intro k hk
  have hplace : m.layout.base .output + k < p.registerCount := by
    rw [hp.registerCount]
    exact m.layout.lt_registerCount hk
  have hzero : Comes (p.value · (.expr (.real 0))
      (inRound (fill (m.layout.base .output) k (m.output r) r) "y_i"
        (m.layout.base .output + k) k))
      (inRound (fill (m.layout.base .output) k (m.output r) r) "y_i"
        (m.layout.base .output + k) k, .number 0) :=
    comes_expr (by simp [eval, evalBy, hp.zero])
  refine comes_cons (comes_setRegister hp hx hplace hzero) ?_
  refine comes_addProduct (b := .state) (c := .output) hp (fun hnx => ?_) hx (by decide)
    (by decide) (fun hnx => hp.C hnx hny) hp.nx (by decide) hk hk ?_
  · rw [hs.innerProduct, if_pos (.inl hnx)]
  refine comes_addProduct (b := .input) (c := .output) hp (fun hnu => ?_) hx (by decide)
    (by decide) (fun hnu => hp.D hny hnu) hp.nu (by decide) hk hk ?_
  · rw [hs.innerProduct, if_pos (.inr ⟨hny, hnu⟩)]
  have hdone : 0 + m.product r (m.C k) .state + m.product r (m.D k) .input = m.output r k := by
    rw [zero_add]
    rfl
  dsimp only
  rw [fill_succ hdone]
  exact comes_nil

/-! ## Copies -/

section Copy

variable {b : Block} {length : String} {rest : List (Stmt Literal)} {last : State × Option Value}

theorem base_add_size_le (hp : p.Holds m) (hb : 0 < m.layout.size b) :
    m.layout.base b + m.layout.size b ≤ p.registerCount := by
  have := m.layout.lt_registerCount (b := b) (i := m.layout.size b - 1) (by omega)
  rw [hp.registerCount]
  omega

theorem comes_copy {source : String} {f : Nat → ℚ} {v : Value} (hp : p.Holds m)
    (hmemcpy : p.routine "memcpy" = none) (hb : 0 < m.layout.size b)
    (hsource : p.eval ⟨r, [instanceLocal]⟩ (.name source) = some v)
    (hlength : p.expansion length = some (.natural (m.layout.size b)))
    (hcopied : p.copied? r (m.layout.base b) (m.layout.size b) v = some f)
    (hrest : Comes (p.execAll · rest
      ⟨fill (m.layout.base b) (m.layout.size b) f r, [instanceLocal]⟩) last) :
    Comes (p.execAll · (Hooks.copy (blockMacro b) source length :: rest) ⟨r, [instanceLocal]⟩)
      last := by
  have htarget : p.eval ⟨r, [instanceLocal]⟩ (.name (blockMacro b)) =
      some (.registers (m.layout.base b)) := eval_block hp hb rfl
  have hbytes : p.eval ⟨r, [instanceLocal]⟩ (.binary .multiply (.name length) (.sizeOf .real)) =
      some (.count (m.layout.size b * realSize)) := by
    simp [eval, evalBy, nameValue, hlength, operate, Operator.onCounts]
  have hsize : 0 < realSize := by decide
  refine comes_cons (comes_procedure [.registers (m.layout.base b), v,
    .count (m.layout.size b * realSize)] ?_ (comes_memcpy hmemcpy ?_)) hrest
  · simp [htarget, hsource, hbytes]
  · simp [copyTo, Nat.mul_div_cancel _ hsize, base_add_size_le hp hb, hcopied]

/-- A block is copied to another one. -/
theorem comes_copyBlock {c : Block} (hp : p.Holds m) (hmemcpy : p.routine "memcpy" = none)
    (hb : 0 < m.layout.size b) (hbc : c ≠ b) (hsize : m.layout.size c = m.layout.size b)
    (hlength : p.expansion length = some (.natural (m.layout.size b)))
    (hrest : Comes (p.execAll · rest ⟨fill (m.layout.base b) (m.layout.size b)
      (fun i => r (m.layout.base c + i)) r, [instanceLocal]⟩) last) :
    Comes (p.execAll · (Hooks.copy (blockMacro b) (blockMacro c) length :: rest)
      ⟨r, [instanceLocal]⟩) last := by
  have hc : 0 < m.layout.size c := hsize ▸ hb
  refine comes_copy hp hmemcpy hb (eval_block hp hc rfl) hlength ?_ hrest
  have hroom := base_add_size_le hp hc
  have hfirst := m.layout.blocks_apart hbc hc
  have hlast := m.layout.blocks_apart hbc (j := m.layout.size c - 1) (by omega)
  rw [copied?, if_pos (by omega)]

/-- A table is copied to a block. -/
theorem comes_copyTable {table : String} {f : Nat → ℚ} (hp : p.Holds m)
    (hmemcpy : p.routine "memcpy" = none) (hb : 0 < m.layout.size b) (hplain : table ∈ plainNames)
    (hcomp : table ≠ "comp") (htable : p.table table = some (vectorTable (m.layout.size b) f))
    (hlength : p.expansion length = some (.natural (m.layout.size b)))
    (hrest : Comes (p.execAll · rest ⟨fill (m.layout.base b) (m.layout.size b) f r,
      [instanceLocal]⟩) last) :
    Comes (p.execAll · (Hooks.copy (blockMacro b) table length :: rest) ⟨r, [instanceLocal]⟩)
      last := by
  have hvalue : p.eval ⟨r, [instanceLocal]⟩ (.name table) =
      some (vectorTable (m.layout.size b) f) := by
    simp [eval, evalBy, nameValue, hp.plain table hplain, variableValue, instanceLocal, htable,
      hcomp.symm]
  have hfill : fill (m.layout.base b) (m.layout.size b)
      (fun i => ((List.range (m.layout.size b)).map f).getD i 0) r =
        fill (m.layout.base b) (m.layout.size b) f r := by
    refine fill_congr fun i hi => ?_
    simp [hi]
  refine comes_copy hp hmemcpy hb hvalue hlength ?_ (by rwa [hfill])
  simp [copied?, vectorTable]

/-- A procedure that calls another one first. -/
theorem comes_run {routine : String} {r' : Nat → ℚ} (hp : p.Holds m) (h : p.Runs routine r r')
    (hrest : Comes (p.execAll · rest ⟨r', [instanceLocal]⟩) last) :
    Comes (p.execAll · (Hooks.run routine :: rest) ⟨r, [instanceLocal]⟩) last := by
  have hcomp := hp.plain "comp" (by decide)
  refine comes_cons (comes_procedure [.component] ?_ h) hrest
  simp [eval, evalBy, nameValue, hcomp, variableValue, instanceLocal]

end Copy

theorem runs_copyX0toX (hp : p.Holds m) (hs : p.Supplies m.layout) (hnx : 0 < m.layout.nx) :
    p.Runs "copyX0toX" r (fill (m.layout.base .state) m.layout.nx
      (fun i => r (m.layout.base .stateStart + i)) r) := by
  have hroutine := hs.copyX0toX
  rw [if_pos hnx] at hroutine
  exact runs_procedure hroutine
    (comes_copyBlock (b := .state) (c := .stateStart) hp hs.memcpy hnx (by decide) rfl hp.nx comes_nil)

theorem runs_copyU0toU (hp : p.Holds m) (hs : p.Supplies m.layout) (hnu : 0 < m.layout.nu) :
    p.Runs "copyU0toU" r (fill (m.layout.base .input) m.layout.nu
      (fun i => r (m.layout.base .inputStart + i)) r) := by
  have hroutine := hs.copyU0toU
  rw [if_pos hnu] at hroutine
  exact runs_procedure hroutine
    (comes_copyBlock (b := .input) (c := .inputStart) hp hs.memcpy hnu (by decide) rfl hp.nu comes_nil)

theorem runs_resetX (hp : p.Holds m) (hs : p.Supplies m.layout) (hnx : 0 < m.layout.nx) :
    p.Runs "resetX" r (fill (m.layout.base .state) m.layout.nx m.x0
      (fill (m.layout.base .stateStart) m.layout.nx m.x0 r)) := by
  have hroutine := hs.resetX
  rw [if_pos hnx] at hroutine
  have hcopy := runs_copyX0toX (r := fill (m.layout.base .stateStart) m.layout.nx m.x0 r) hp hs hnx
  have hread : fill (m.layout.base .state) m.layout.nx
      (fun i => fill (m.layout.base .stateStart) m.layout.nx m.x0 r (m.layout.base .stateStart + i))
      (fill (m.layout.base .stateStart) m.layout.nx m.x0 r) =
        fill (m.layout.base .state) m.layout.nx m.x0
          (fill (m.layout.base .stateStart) m.layout.nx m.x0 r) :=
    fill_congr fun i hi => fill_at hi
  rw [hread] at hcopy
  exact runs_procedure hroutine (comes_copyTable (b := .stateStart) hp hs.memcpy hnx (by decide)
    (by decide) (hp.x0 hnx) hp.nx (comes_run hp hcopy comes_nil))

theorem runs_resetU (hp : p.Holds m) (hs : p.Supplies m.layout) (hnu : 0 < m.layout.nu) :
    p.Runs "resetU" r (fill (m.layout.base .input) m.layout.nu m.u0
      (fill (m.layout.base .inputStart) m.layout.nu m.u0 r)) := by
  have hroutine := hs.resetU
  rw [if_pos hnu] at hroutine
  have hcopy := runs_copyU0toU (r := fill (m.layout.base .inputStart) m.layout.nu m.u0 r) hp hs hnu
  have hread : fill (m.layout.base .input) m.layout.nu
      (fun i => fill (m.layout.base .inputStart) m.layout.nu m.u0 r (m.layout.base .inputStart + i))
      (fill (m.layout.base .inputStart) m.layout.nu m.u0 r) =
        fill (m.layout.base .input) m.layout.nu m.u0
          (fill (m.layout.base .inputStart) m.layout.nu m.u0 r) :=
    fill_congr fun i hi => fill_at hi
  rw [hread] at hcopy
  exact runs_procedure hroutine (comes_copyTable (b := .inputStart) hp hs.memcpy hnu (by decide)
    (by decide) (hp.u0 hnu) hp.nu (comes_run hp hcopy comes_nil))

/-! ## Evaluation -/

theorem comes_optionalRun {n : Nat} {routine : String} {r' : Nat → ℚ}
    {rest : List (Stmt Literal)} {last : State × Option Value} (hp : p.Holds m)
    (h : 0 < n → p.Runs routine r r') (hzero : n = 0 → r' = r)
    (hrest : Comes (p.execAll · rest ⟨r', [instanceLocal]⟩) last) :
    Comes (p.execAll · (Hooks.onlyIf (0 < n) [Hooks.run routine] ++ rest) ⟨r, [instanceLocal]⟩)
      last := by
  by_cases hn : 0 < n
  · rw [Hooks.onlyIf, if_pos (decide_eq_true hn)]
    exact comes_run hp (h hn) hrest
  · rw [hzero (Nat.eq_zero_of_not_pos hn)] at hrest
    rw [Hooks.onlyIf, if_neg (by simpa using hn)]
    exact hrest

theorem runs_evaluate (hp : p.Holds m) (hs : p.Supplies m.layout) :
    p.Runs "evaluate" r (fill (m.layout.base .output) m.layout.ny (m.output r)
      (fill (m.layout.base .derivative) m.layout.nx (m.derivative r) r)) := by
  have hkept (b : Block) (hb : b ≠ .derivative) (row : Nat → ℚ) :
      m.product (fill (m.layout.base .derivative) m.layout.nx (m.derivative r) r) row b =
        m.product r row b :=
    product_fill hb (Nat.le_refl _) (Nat.le_refl _) row _
  have houtput : m.output (fill (m.layout.base .derivative) m.layout.nx (m.derivative r) r) =
      m.output r := by
    funext i
    rw [System.output, hkept .state (by decide), hkept .input (by decide)]
    rfl
  have hsecond := runs_updateOutputs
    (r := fill (m.layout.base .derivative) m.layout.nx (m.derivative r) r) hp hs
  rw [houtput] at hsecond
  have hroutine := hs.evaluate
  rw [Hooks.evaluate, List.append_assoc] at hroutine
  refine runs_procedure (s := ⟨_, [instanceLocal]⟩) hroutine (comes_optionalRun hp
    (runs_updateDerivatives hp hs) (fun hnx => by rw [hnx, fill_zero])
    (comes_optionalRun hp (fun _ => hsecond) (fun hny => by rw [hny, fill_zero]) ?_))
  have hcomp := hp.plain "comp" (by decide)
  cases hempty : m.layout.nx == 0 && m.layout.ny == 0 with
  | false => exact comes_nil
  | true =>
    refine comes_cons (comes_discard (v := .component) ?_) comes_nil
    simp [eval, evalBy, nameValue, hcomp, variableValue, instanceLocal]

end Runs

end Source
end LtiUnit
