import LtiUnit.Command.Value
import LtiUnit.Proofs.Completion
import Mathlib.Tactic.SplitIfs

/-!
# LtiUnit.Proofs.StartValues

Start values that are typed for a model change where it starts and nothing else of it.

A description is its dynamics together with the start values that it carries
(`Description.dynamics`, `states`, `inputs`). The matrices are found from the dynamics, and the
start values come in only when the matrices are checked.

* `realize_eq` — matrices first, start values second, in all four forms.
* `ofMatrices?_fault` — the matrices of a model are rejected for their start values only.
* `withStartValues_eq` — what is typed takes the place of what is carried.
* `startValues_apart` — so it has no influence on the matrices of the model.
-/

namespace LtiUnit
namespace Model

namespace Description

variable {α : Type} {d d' : Description α}

/-- The start values of the states that a description carries. -/
def states : Description α → Option (List α)
  | .stateSpace f => f.x0
  | .transferFunction f => f.x0
  | .zeroPoleGain f => f.x0
  | .controller f => f.x0

/-- The start values of the inputs; that of a single input is a list of one. -/
def inputs : Description α → Option (List α)
  | .stateSpace f => f.u0
  | .transferFunction f => f.u0.map ([·])
  | .zeroPoleGain f => f.u0.map ([·])
  | .controller f => f.u0.map ([·])

/-- A description without its start values. -/
def dynamics : Description α → Description α
  | .stateSpace f => .stateSpace { f with x0 := none, u0 := none }
  | .transferFunction f => .transferFunction { f with x0 := none, u0 := none }
  | .zeroPoleGain f => .zeroPoleGain { f with x0 := none, u0 := none }
  | .controller f => .controller { f with x0 := none, u0 := none }

/-- Whether the form has one input, whatever its numbers. -/
def hasOneInput : Description α → Bool
  | .stateSpace _ => false
  | _ => true

/-- A description with other start values, as far as there are others. -/
def startedFrom (x u : Option (List α)) : Description α → Description α
  | .stateSpace f => .stateSpace { f with x0 := x <|> f.x0, u0 := u <|> f.u0 }
  | .transferFunction f =>
    .transferFunction { f with x0 := x <|> f.x0, u0 := u.bind List.head? <|> f.u0 }
  | .zeroPoleGain f =>
    .zeroPoleGain { f with x0 := x <|> f.x0, u0 := u.bind List.head? <|> f.u0 }
  | .controller f => .controller { f with x0 := x <|> f.x0, u0 := u.bind List.head? <|> f.u0 }

theorem dynamics_startedFrom (x u : Option (List α)) (d : Description α) :
    (d.startedFrom x u).dynamics = d.dynamics := by
  cases d <;> rfl

theorem states_startedFrom (x u : Option (List α)) (d : Description α) :
    (d.startedFrom x u).states = (x <|> d.states) := by
  cases d <;> rfl

theorem inputs_startedFrom {x u : Option (List α)}
    (hu : d.hasOneInput = true → ∀ us ∈ u, us.length = 1) :
    (d.startedFrom x u).inputs = (u <|> d.inputs) := by
  have hhead (hu : ∀ us ∈ u, us.length = 1) (old : Option α) :
      (u.bind List.head? <|> old).map ([·]) = (u <|> old.map ([·])) := by
    cases u with
    | none => rfl
    | some us =>
      obtain ⟨v, rfl⟩ := List.length_eq_one_iff.1 (hu us rfl)
      rfl
  cases d with
  | stateSpace f => rfl
  | transferFunction f => exact hhead (hu rfl) f.u0
  | zeroPoleGain f => exact hhead (hu rfl) f.u0
  | controller f => exact hhead (hu rfl) f.u0

theorem startedFrom_dynamics (d : Description α) :
    d.dynamics.startedFrom d.states d.inputs = d := by
  have hstates (x : Option (List α)) : (x <|> none) = x := by cases x <;> rfl
  have hinput (u : Option α) : ((u.map ([·])).bind List.head? <|> none) = u := by cases u <;> rfl
  cases d with
  | stateSpace f => simp only [dynamics, startedFrom, states, inputs, hstates]
  | transferFunction f => simp only [dynamics, startedFrom, states, inputs, hstates, hinput]
  | zeroPoleGain f => simp only [dynamics, startedFrom, states, inputs, hstates, hinput]
  | controller f => simp only [dynamics, startedFrom, states, inputs, hstates, hinput]

/-- A description is known by its dynamics and its start values. -/
theorem eq_of_dynamics (h : d.dynamics = d'.dynamics) (hstates : d.states = d'.states)
    (hinputs : d.inputs = d'.inputs) : d = d' := by
  rw [← startedFrom_dynamics d, h, hstates, hinputs, startedFrom_dynamics]

/-! ## Matrices first, start values second -/

section Realize

variable [Coefficient α] [Zero α] [One α] [Neg α] [Add α] [Sub α] [Mul α] [Div α]

/-- The matrices of a description, before their dimensions are checked. -/
def matrices? : Description α → Except (ModelError α) (Matrices α)
  | .stateSpace f => do
    let a ← readMatrix .A f.A
    let b ← readMatrix .B f.B
    let c ← readMatrix .C f.C
    let d ← readMatrix .D f.D
    if a.isNone && b.isNone && c.isNone && d.isNone then throw .noMatrices
    if c.isSome && a.isNone && d.isNone then throw .unsizedC
    return complete a b c d
  | .transferFunction f => companion f.num f.den
  | .zeroPoleGain f =>
    if !allFinite f.zeros then .error (.nonFinite .zeros)
    else if !allFinite f.poles then .error (.nonFinite .poles)
    else if !Coefficient.isFinite f.gain then .error (.nonFinite .gain)
    else companion ((ofRoots f.zeros).map (· * f.gain)) (ofRoots f.poles)
  | .controller f =>
    if !Coefficient.isFinite f.kp then .error (.nonFinite .kp)
    else if !Coefficient.isFinite f.ki then .error (.nonFinite .ki)
    else if !Coefficient.isFinite f.kd then .error (.nonFinite .kd)
    else if !Coefficient.isFinite f.t then .error (.nonFinite .timeConstant)
    else do
      let terms ← Terms.ofGains f.kp f.ki f.kd
      if terms.hasDerivative && !Coefficient.isPositive f.t then throw (.timeConstant f.t)
      let (num, den) := terms.quotient f.kp f.ki f.kd f.t
      companion num den

theorem matrices?_dynamics (d : Description α) : d.dynamics.matrices? = d.matrices? := by
  cases d <;> rfl

theorem realize_eq (d : Description α) :
    d.realize = d.matrices? >>= fun ms => StateSpace.ofMatrices? ms d.states d.inputs := by
  cases d with
  | stateSpace f =>
    simp only [realize, realizeMatrices, matrices?, bind_assoc]
    refine bind_congr fun a => bind_congr fun b => bind_congr fun c => bind_congr fun d => ?_
    split
    · rfl
    · split <;> rfl
  | transferFunction f => rfl
  | zeroPoleGain f =>
    simp only [realize, realizeFactors, matrices?]
    split_ifs <;> rfl
  | controller f =>
    simp only [realize, realizeController, matrices?]
    split_ifs
    · rfl
    · rfl
    · rfl
    · rfl
    · rw [bind_assoc]
      refine bind_congr fun terms => ?_
      split <;> rfl

theorem realize_eq_ok_iff {m : StateSpace α} : d.realize = .ok m ↔
    d.matrices? = .ok m.matrices ∧
      StateSpace.ofMatrices? m.matrices d.states d.inputs = .ok m := by
  rw [realize_eq, MatrixForm.bind_eq_ok_iff]
  constructor
  · rintro ⟨ms, hms, h⟩
    obtain ⟨-, -, -, -, -, -, rfl, -, -⟩ := StateSpace.ofMatrices?_eq_ok_iff.1 h
    exact ⟨hms, h⟩
  · rintro ⟨hms, h⟩
    exact ⟨_, hms, h⟩

/-- Start values that are not given are zero. -/
theorem starts_of_realize {m : StateSpace α} (h : d.realize = .ok m) :
    m.x0 = d.states.getD (List.replicate m.nx 0) ∧
      m.u0 = d.inputs.getD (List.replicate m.nu 0) := by
  obtain ⟨-, -, -, -, -, -, -, hx, hu⟩ :=
    StateSpace.ofMatrices?_eq_ok_iff.1 (realize_eq_ok_iff.1 h).2
  exact ⟨hx, hu⟩

/-- The matrices of a model come from the dynamics of its description. -/
theorem matrices_eq_of_dynamics {m m' : StateSpace α} (h : d.realize = .ok m)
    (h' : d'.realize = .ok m') (hdynamics : d'.dynamics = d.dynamics) :
    m'.matrices = m.matrices := by
  have hms := (realize_eq_ok_iff.1 h).1
  have hms' := (realize_eq_ok_iff.1 h').1
  rw [← matrices?_dynamics, hdynamics, matrices?_dynamics, hms] at hms'
  exact (Except.ok.inj hms').symm

end Realize

end Description

/-- Why a list of start values cannot be used: its length, or a value that is not finite. -/
inductive Fault {α : Type} [Coefficient α] (what : Dimension) (quantity : Quantity) (n : Nat)
    (xs : List α) : ModelError α → Prop
  | length (h : xs.length ≠ n) : Fault what quantity n xs (.shape what n xs.length)
  | nonFinite (h : allFinite xs = false) : Fault what quantity n xs (.nonFinite quantity)

section Fault

variable {α : Type} [Coefficient α]

theorem agree_matrices (m : StateSpace α) : m.matrices.Agree :=
  ⟨m.aSquare, m.bRows, m.cColumns, m.dRows, m.dColumns⟩

theorem finite_matrices (m : StateSpace α) (name : MatrixName) :
    allFinite (m.matrices.get name).entries = true := by
  cases name with
  | A => exact m.aFinite
  | B => exact m.bFinite
  | C => exact m.cFinite
  | D => exact m.dFinite

variable [Zero α] {ms : Matrices α} {x u : Option (List α)} {e : ModelError α}

/-- Matrices whose dimensions agree and whose numbers are finite are rejected for their start values
only. -/
theorem ofMatrices?_fault (hagree : ms.Agree)
    (hfinite : ∀ name, allFinite (ms.get name).entries = true)
    (h : StateSpace.ofMatrices? ms x u = .error e) :
    Fault .x0Length .x0 ms.A.height (x.getD (List.replicate ms.A.height 0)) e ∨
      Fault .u0Length .u0 ms.B.cols (u.getD (List.replicate ms.B.cols 0)) e := by
  have aFinite : allFinite ms.A.entries = true := hfinite .A
  have bFinite : allFinite ms.B.entries = true := hfinite .B
  have cFinite : allFinite ms.C.entries = true := hfinite .C
  have dFinite : allFinite ms.D.entries = true := hfinite .D
  unfold StateSpace.ofMatrices? at h
  dsimp only at h
  rw [dif_pos hagree.aSquare, dif_pos hagree.bRows, dif_pos hagree.cColumns, dif_pos hagree.dRows,
    dif_pos hagree.dColumns] at h
  split_ifs at h with hx hu hfx hfu
  · cases h
    exact .inr (.nonFinite (Bool.eq_false_iff.2 hfu))
  · cases h
    exact .inl (.nonFinite (Bool.eq_false_iff.2 hfx))
  · cases h
    exact .inr (.length hu)
  · cases h
    exact .inl (.length hx)

end Fault

end Model

namespace Command

open Model

/-! ## What is typed -/

/-- The start values typed for the inputs of a description. A single input takes one value. -/
def typedInputs (d : Description Float) (text : String) : Except ValueError (List Float) := do
  let us ← list "u0" text
  if d.hasOneInput && us.length != 1 then .error (.notOne "u0" us.length) else .ok us

/-- The start values after a text was typed for them or not, by what they were before. -/
def Replaced (read : String → Except ValueError (List Float)) (text : Option String)
    (old new : Option (List Float)) : Prop :=
  match text with
  | none => new = old
  | some t => ∃ xs, read t = .ok xs ∧ new = some xs

section Typed

variable {d d' : Description Float} {x0 u0 : Option String}

theorem optional_eq_error_iff {β : Type} {read : String → Except ValueError β}
    {text : Option String} {e : ValueError} :
    optional read text = .error e ↔ ∃ t ∈ text, read t = .error e := by
  cases text with
  | none => simp [optional]
  | some t => cases h : read t <;> simp [optional, h, Except.map]

theorem exists_optional_eq_ok_iff {β : Type} {read : String → Except ValueError β}
    {text : Option String} :
    (∃ x, optional read text = .ok x) ↔ ∀ t ∈ text, ∃ x, read t = .ok x := by
  cases text with
  | none => simp [optional]
  | some t => cases h : read t <;> simp [optional, h, Except.map]

theorem optional_eq_some_iff {β : Type} {read : String → Except ValueError β}
    {text : Option String} {x : β} :
    optional read text = .ok (some x) ↔ ∃ t ∈ text, read t = .ok x := by
  cases text with
  | none => simp [optional]
  | some t => cases h : read t <;> simp [optional, h, Except.map]

theorem replaced_iff {read : String → Except ValueError (List Float)} {text : Option String}
    {old new : Option (List Float)} :
    Replaced read text old new ↔ ∃ x, optional read text = .ok x ∧ new = (x <|> old) := by
  cases text with
  | none => simp [Replaced, optional]
  | some t => cases h : read t <;> simp [Replaced, optional, h, Except.map]

/-- A single input is typed as its number or as a list of it. -/
theorem optional_scalar (hd : d.hasOneInput = true) (text : Option String) :
    optional (scalar "u0") text =
      (optional (typedInputs d) text).map (Option.bind · List.head?) := by
  cases text with
  | none => rfl
  | some t =>
    simp only [optional, scalar, typedInputs, hd, Bool.true_and]
    cases list "u0" t with
    | error e => rfl
    | ok us =>
      match us with
      | [] => rfl
      | [v] => rfl
      | v :: w :: us => rfl

/-- What is typed takes the place of what is carried. -/
theorem withStartValues_eq (d : Description Float) (x0 u0 : Option String) :
    withStartValues d x0 u0 = (do
      let x ← optional (list "x0") x0
      let u ← optional (typedInputs d) u0
      return d.startedFrom x u) := by
  have hmap {β γ δ : Type} (r : Except ValueError β) (f : β → γ) (k : γ → Except ValueError δ) :
      r.map f >>= k = r >>= fun b => k (f b) := by cases r <;> rfl
  unfold withStartValues
  refine bind_congr fun x => ?_
  cases d with
  | stateSpace f =>
    have htyped : typedInputs (.stateSpace f) = list "u0" := by
      funext t
      simp only [typedInputs]
      cases list "u0" t <;> rfl
    rw [htyped]
    rfl
  | transferFunction f =>
    simp only [optional_scalar (d := .transferFunction f) rfl, hmap]
    rfl
  | zeroPoleGain f =>
    simp only [optional_scalar (d := .zeroPoleGain f) rfl, hmap]
    rfl
  | controller f =>
    simp only [optional_scalar (d := .controller f) rfl, hmap]
    rfl

theorem typedInputs_length {text : String} {us : List Float} (h : typedInputs d text = .ok us)
    (hd : d.hasOneInput = true) : us.length = 1 := by
  obtain ⟨us', -, h⟩ := MatrixForm.bind_eq_ok_iff.1 h
  simp only [hd, Bool.true_and, bne_iff_ne] at h
  split_ifs at h with hone
  cases h
  exact Decidable.not_not.1 hone

theorem withStartValues_eq_ok_iff : withStartValues d x0 u0 = .ok d' ↔
    d'.dynamics = d.dynamics ∧ Replaced (list "x0") x0 d.states d'.states ∧
      Replaced (typedInputs d) u0 d.inputs d'.inputs := by
  have hone {u : Option (List Float)} (h : optional (typedInputs d) u0 = .ok u)
      (hd : d.hasOneInput = true) : ∀ us ∈ u, us.length = 1 := by
    rintro us ⟨⟩
    obtain ⟨t, -, ht⟩ := optional_eq_some_iff.1 h
    exact typedInputs_length ht hd
  rw [withStartValues_eq, replaced_iff, replaced_iff, MatrixForm.bind_eq_ok_iff]
  simp only [MatrixForm.bind_eq_ok_iff]
  constructor
  · rintro ⟨x, hx, u, hu, h⟩
    cases h
    exact ⟨d.dynamics_startedFrom .., ⟨x, hx, d.states_startedFrom ..⟩, u, hu,
      d.inputs_startedFrom (hone hu)⟩
  · rintro ⟨hdynamics, ⟨x, hx, hstates⟩, u, hu, hinputs⟩
    refine ⟨x, hx, u, hu, congrArg Except.ok (Description.eq_of_dynamics ?_ ?_ ?_)⟩
    · rw [hdynamics, Description.dynamics_startedFrom]
    · rw [hstates, Description.states_startedFrom]
    · rw [hinputs, Description.inputs_startedFrom (hone hu)]

theorem withStartValues_eq_error_iff {e : ValueError} : withStartValues d x0 u0 = .error e ↔
    (∃ t ∈ x0, list "x0" t = .error e) ∨
      (∀ t ∈ x0, ∃ xs, list "x0" t = .ok xs) ∧ ∃ t ∈ u0, typedInputs d t = .error e := by
  rw [withStartValues_eq, ← optional_eq_error_iff, ← optional_eq_error_iff,
    ← exists_optional_eq_ok_iff]
  cases optional (list "x0") x0 with
  | error e' => simp [bind, Except.bind]
  | ok x => cases optional (typedInputs d) u0 <;> simp [bind, Except.bind, pure, Except.pure]

/-! ## No influence -/

/-- A start value that cannot be used is one that was typed: what was carried or left out was used
before. -/
theorem fault_of_replaced {read : String → Except ValueError (List Float)} {text : Option String}
    {old new : Option (List Float)} (h : Replaced read text old new) {what : Dimension}
    {quantity : Quantity} {n : Nat} {e : ModelError Float}
    (hlength : (old.getD (List.replicate n 0)).length = n)
    (hfinite : allFinite (old.getD (List.replicate n 0)) = true)
    (he : Fault what quantity n (new.getD (List.replicate n 0)) e) :
    ∃ t ∈ text, ∃ xs, read t = .ok xs ∧ Fault what quantity n xs e := by
  cases text with
  | none =>
    obtain rfl : new = old := h
    cases he with
    | length hne => exact absurd hlength hne
    | nonFinite hnot => cases hfinite.symm.trans hnot
  | some t =>
    obtain ⟨xs, hxs, rfl⟩ := h
    exact ⟨t, rfl, xs, hxs, he⟩

/-- Start values that are typed for a description take the place of those that it carries, each of
them exactly if it is typed; the text for the states is judged before that for the inputs, and a
single input takes one value. The matrices of the model stay as they are, and the model is rejected
only for a start value that was typed. -/
theorem startValues_apart (d : Description Float) (x0 u0 : Option String) :
    (∀ d', withStartValues d x0 u0 = .ok d' ↔
      d'.dynamics = d.dynamics ∧ Replaced (list "x0") x0 d.states d'.states ∧
        Replaced (typedInputs d) u0 d.inputs d'.inputs) ∧
    (∀ e, withStartValues d x0 u0 = .error e ↔
      (∃ t ∈ x0, list "x0" t = .error e) ∨
        (∀ t ∈ x0, ∃ xs, list "x0" t = .ok xs) ∧ ∃ t ∈ u0, typedInputs d t = .error e) ∧
    ∀ d', withStartValues d x0 u0 = .ok d' →
      (∀ m', d'.realize = .ok m' →
        (∀ m, d.realize = .ok m → m'.matrices = m.matrices) ∧
          m'.x0 = d'.states.getD (List.replicate m'.nx 0) ∧
          m'.u0 = d'.inputs.getD (List.replicate m'.nu 0)) ∧
      ∀ m e, d.realize = .ok m → d'.realize = .error e →
        (∃ t ∈ x0, ∃ xs, list "x0" t = .ok xs ∧ Fault .x0Length .x0 m.nx xs e) ∨
          ∃ t ∈ u0, ∃ us, typedInputs d t = .ok us ∧ Fault .u0Length .u0 m.nu us e := by
  refine ⟨fun d' => withStartValues_eq_ok_iff, fun e => withStartValues_eq_error_iff,
    fun d' hd' => ?_⟩
  obtain ⟨hdynamics, hstates, hinputs⟩ := withStartValues_eq_ok_iff.1 hd'
  refine ⟨fun m' hm' => ⟨fun m hm => Description.matrices_eq_of_dynamics hm hm' hdynamics,
    Description.starts_of_realize hm'⟩, fun m e hm he => ?_⟩
  obtain ⟨hx, hu⟩ := Description.starts_of_realize hm
  have hms : d'.matrices? = .ok m.matrices := by
    rw [← Description.matrices?_dynamics, hdynamics, Description.matrices?_dynamics]
    exact (Description.realize_eq_ok_iff.1 hm).1
  rw [Description.realize_eq, hms] at he
  obtain hfault | hfault := ofMatrices?_fault (agree_matrices m) (finite_matrices m) he
  · exact .inl (fault_of_replaced hstates (hx ▸ m.x0Length) (hx ▸ m.x0Finite) hfault)
  · exact .inr (fault_of_replaced hinputs (hu ▸ m.u0Length) (hu ▸ m.u0Finite) hfault)

/-- A lag of first order, at rest and started from a half. -/
theorem startValues_apart_lag :
    let lag : Description Float := .transferFunction ⟨[1], [2, 1], none, none⟩
    let started : Description Float := .transferFunction ⟨[1], [2, 1], some [0.5], none⟩
    withStartValues lag (some "0.5") none = .ok started ∧
      ∃ m m', lag.realize = .ok m ∧ started.realize = .ok m' ∧ m'.matrices = m.matrices ∧
        m'.x0 = [0.5] := by
  intro lag started
  have hread : (list "x0" "0.5").toOption = some [0.5] := by decide +kernel
  have htyped : list "x0" "0.5" = .ok [0.5] := by
    cases h : list "x0" "0.5" <;> rw [h] at hread <;> cases hread
    rfl
  have hrealizes (d : Description Float) (h : d.realize.isOk = true) : ∃ m, d.realize = .ok m := by
    cases hd : d.realize with
    | error e => rw [hd] at h; cases h
    | ok m => exact ⟨m, rfl⟩
  obtain ⟨m, hm⟩ := hrealizes lag (by decide +kernel)
  obtain ⟨m', hm'⟩ := hrealizes started (by decide +kernel)
  obtain ⟨hok, -, hrealize⟩ := startValues_apart lag (some "0.5") none
  have hstarted := (hok started).2 ⟨rfl, ⟨_, htyped, rfl⟩, rfl⟩
  obtain ⟨hms, hx, -⟩ := (hrealize started hstarted).1 m' hm'
  exact ⟨hstarted, m, m', hm, hm', hms m hm, hx⟩

end Typed

end Command
end LtiUnit
