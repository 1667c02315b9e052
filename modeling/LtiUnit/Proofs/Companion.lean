import LtiUnit.Model.Companion
import Mathlib.Data.List.TakeWhile

/-!
# LtiUnit.Proofs.Companion

What the companion form asks of numerator and denominator, for numbers of any kind. Degrees are
those of what is left without leading zeros, the degree of a zero numerator being zero.

* `companion_eq_error_iff` — each rejection has its one reason, in the order of the checks.
* `companion_eq_ok_iff` — what is accepted, and the two lists that the form is made of.
* `companion?_eq` — no index of the construction is out of range, and no difference below zero.
* `companion_zeros_append` — zeros in front change nothing.
-/

namespace LtiUnit
namespace Model

variable {α : Type} [Coefficient α]

/-! ## Degrees -/

/-- Coefficients all of which count as zero. -/
def Vanishes (p : List α) : Prop := ∀ c ∈ p, Coefficient.isZero c = true

/-- The coefficient of the `n`-th power is the first that does not count as zero. -/
def HasDegree (p : List α) (n : Nat) : Prop :=
  ∃ zeros lead lower, p = zeros ++ lead :: lower ∧ Vanishes zeros ∧
    Coefficient.isZero lead = false ∧ lower.length = n

/-- The degree of a numerator, which may be zero altogether. -/
def HasDegreeOrZero (p : List α) (n : Nat) : Prop := HasDegree p n ∨ Vanishes p ∧ n = 0

theorem hasDegree_cons {lead : α} (h : Coefficient.isZero lead = false) (lower : List α) :
    HasDegree (lead :: lower) lower.length :=
  ⟨[], lead, lower, rfl, List.forall_mem_nil _, h, rfl⟩

theorem stripLeadingZeros_append {zeros : List α} (h : Vanishes zeros) (p : List α) :
    stripLeadingZeros (zeros ++ p) = stripLeadingZeros p := by
  rw [stripLeadingZeros, stripLeadingZeros, List.dropWhile_append_of_pos h]

theorem stripLeadingZeros_eq_nil_iff {p : List α} : stripLeadingZeros p = [] ↔ Vanishes p :=
  List.dropWhile_eq_nil_iff

theorem stripLeadingZeros_eq_cons_iff {p lower : List α} {lead : α} :
    stripLeadingZeros p = lead :: lower ↔
      ∃ zeros, p = zeros ++ lead :: lower ∧ Vanishes zeros ∧ Coefficient.isZero lead = false := by
  constructor
  · intro h
    have hsplit := List.takeWhile_append_dropWhile (p := Coefficient.isZero) (l := p)
    have hlead := List.head?_dropWhile_not Coefficient.isZero p
    rw [stripLeadingZeros] at h
    rw [h] at hsplit hlead
    refine ⟨p.takeWhile Coefficient.isZero, hsplit.symm, fun c hc => ?_, ?_⟩
    · exact List.mem_takeWhile_imp hc
    · simpa using hlead
  · rintro ⟨zeros, rfl, hzeros, hlead⟩
    rw [stripLeadingZeros_append hzeros, stripLeadingZeros, List.dropWhile_cons, hlead]
    rfl

theorem hasDegree_iff {p : List α} {n : Nat} :
    HasDegree p n ↔ ∃ lead lower, stripLeadingZeros p = lead :: lower ∧ lower.length = n := by
  simp only [HasDegree, stripLeadingZeros_eq_cons_iff]
  constructor
  · rintro ⟨zeros, lead, lower, hp, hzeros, hlead, hn⟩
    exact ⟨lead, lower, ⟨zeros, hp, hzeros, hlead⟩, hn⟩
  · rintro ⟨lead, lower, ⟨zeros, hp, hzeros, hlead⟩, hn⟩
    exact ⟨zeros, lead, lower, hp, hzeros, hlead, hn⟩

theorem HasDegree.unique {p : List α} {m n : Nat} (hm : HasDegree p m) (hn : HasDegree p n) :
    m = n := by
  obtain ⟨lead, lower, hp, rfl⟩ := hasDegree_iff.1 hm
  obtain ⟨lead', lower', hp', rfl⟩ := hasDegree_iff.1 hn
  cases hp.symm.trans hp'
  rfl

section Numerator

variable [Zero α]

theorem stripToOne_ne_nil (p : List α) : stripToOne p ≠ [] := by
  unfold stripToOne
  split
  · exact List.cons_ne_nil _ _
  · assumption

theorem hasDegreeOrZero_iff {p : List α} {n : Nat} :
    HasDegreeOrZero p n ↔ (stripToOne p).length = n + 1 := by
  rw [HasDegreeOrZero, hasDegree_iff, ← stripLeadingZeros_eq_nil_iff, stripToOne]
  cases stripLeadingZeros p with
  | nil => simp [eq_comm]
  | cons lead lower =>
    simp only [List.cons.injEq, reduceCtorEq, false_and, or_false, List.length_cons,
      Nat.add_right_cancel_iff]
    constructor
    · rintro ⟨lead', lower', ⟨-, rfl⟩, hn⟩
      exact hn
    · exact fun hn => ⟨lead, lower, ⟨rfl, rfl⟩, hn⟩

theorem stripToOne_append {zeros : List α} (h : Vanishes zeros) (p : List α) :
    stripToOne (zeros ++ p) = stripToOne p := by
  rw [stripToOne, stripToOne, stripLeadingZeros_append h]

end Numerator

theorem allFinite_iff {p : List α} :
    allFinite p = true ↔ ∀ c ∈ p, Coefficient.isFinite c = true :=
  List.all_eq_true

theorem allFinite_append {p q : List α} (hp : ∀ c ∈ p, Coefficient.isFinite c = true) :
    allFinite (p ++ q) = allFinite q := by
  rw [allFinite, List.all_append, List.all_eq_true.2 hp, Bool.true_and, allFinite]

/-! ## Rejections -/

section Quotient

variable [Zero α]

/-- Why a quotient has no companion form. Each reason takes for granted that those before it do not
apply. -/
inductive Rejects (num den : List α) : ModelError α → Prop where
  | numerator (hnum : ¬∀ c ∈ num, Coefficient.isFinite c = true) :
      Rejects num den (.nonFinite .numerator)
  | denominator (hnum : ∀ c ∈ num, Coefficient.isFinite c = true)
      (hden : ¬∀ c ∈ den, Coefficient.isFinite c = true) :
      Rejects num den (.nonFinite .denominator)
  | emptyDenominator (hnum : ∀ c ∈ num, Coefficient.isFinite c = true)
      (hden : ∀ c ∈ den, Coefficient.isFinite c = true) (hzero : Vanishes den) :
      Rejects num den .emptyDenominator
  | improper {m n : Nat} (hnum : ∀ c ∈ num, Coefficient.isFinite c = true)
      (hden : ∀ c ∈ den, Coefficient.isFinite c = true) (hm : HasDegreeOrZero num m)
      (hn : HasDegree den n) (hlt : n < m) :
      Rejects num den (.improper m n)

/-- A quotient is rejected for one of four reasons, or it has a companion form. -/
theorem companion_cases (num den : List α) :
    (∃ e, Rejects num den e) ∨
      (∀ c ∈ num, Coefficient.isFinite c = true) ∧ (∀ c ∈ den, Coefficient.isFinite c = true) ∧
      ∃ lead lower, stripLeadingZeros den = lead :: lower ∧
        (stripToOne num).length ≤ lower.length + 1 := by
  by_cases hnum : ∀ c ∈ num, Coefficient.isFinite c = true
  case neg => exact .inl ⟨_, .numerator hnum⟩
  by_cases hden : ∀ c ∈ den, Coefficient.isFinite c = true
  case neg => exact .inl ⟨_, .denominator hnum hden⟩
  cases hlower : stripLeadingZeros den with
  | nil => exact .inl ⟨_, .emptyDenominator hnum hden (stripLeadingZeros_eq_nil_iff.1 hlower)⟩
  | cons lead lower =>
    have hpos : 0 < (stripToOne num).length := List.length_pos_iff.2 (stripToOne_ne_nil num)
    by_cases hle : (stripToOne num).length ≤ lower.length + 1
    · exact .inr ⟨hnum, hden, lead, lower, rfl, hle⟩
    · have hm : HasDegreeOrZero num ((stripToOne num).length - 1) :=
        hasDegreeOrZero_iff.2 (by omega)
      have hn : HasDegree den lower.length := hasDegree_iff.2 ⟨lead, lower, hlower, rfl⟩
      exact .inl ⟨_, .improper hnum hden hm hn (by omega)⟩

variable [One α] [Neg α] [Sub α] [Mul α] [Div α]

theorem Rejects.companion {num den : List α} {e : ModelError α} (h : Rejects num den e) :
    companion num den = .error e := by
  rw [Model.companion]
  cases h with
  | numerator hnum =>
    rw [← allFinite_iff] at hnum
    rw [if_pos (by simpa using hnum)]
  | denominator hnum hden =>
    rw [← allFinite_iff] at hnum hden
    rw [hnum, if_neg (by simp), if_pos (by simpa using hden)]
  | emptyDenominator hnum hden hzero =>
    rw [← allFinite_iff] at hnum hden
    rw [hnum, hden, if_neg (by simp), if_neg (by simp), stripLeadingZeros_eq_nil_iff.2 hzero]
  | improper hnum hden hm hn hlt =>
    rw [← allFinite_iff] at hnum hden
    obtain ⟨lead, lower, hlower, rfl⟩ := hasDegree_iff.1 hn
    have hm := hasDegreeOrZero_iff.1 hm
    rw [hnum, hden, if_neg (by simp), if_neg (by simp), hlower]
    simp only [hm, Nat.add_sub_cancel]
    rw [if_pos hlt]

/-! ## What is accepted -/

/-- A numerator divided by the leading coefficient of the denominator, and filled up with zeros to
the length of the denominator. -/
def filledUp (num : List α) (lead : α) (lower : List α) : List α :=
  List.replicate (lower.length - ((stripToOne num).length - 1)) 0 ++ (stripToOne num).map (· / lead)

omit [One α] [Neg α] [Sub α] [Mul α] in
theorem length_filledUp {num lower : List α} (lead : α)
    (h : (stripToOne num).length ≤ lower.length + 1) :
    (filledUp num lead lower).length = lower.length + 1 := by
  have hpos : 0 < (stripToOne num).length := List.length_pos_iff.2 (stripToOne_ne_nil num)
  simp only [filledUp, List.length_append, List.length_replicate, List.length_map]
  omega

theorem companion_of_le {num den lower : List α} {lead : α}
    (hnum : ∀ c ∈ num, Coefficient.isFinite c = true)
    (hden : ∀ c ∈ den, Coefficient.isFinite c = true)
    (hlower : stripLeadingZeros den = lead :: lower)
    (hle : (stripToOne num).length ≤ lower.length + 1) :
    companion num den =
      .ok (companionOf ((lead :: lower).map (· / lead)) (filledUp num lead lower)) := by
  have hlt : ¬lower.length < (stripToOne num).length - 1 := by omega
  rw [companion, allFinite_iff.2 hnum, allFinite_iff.2 hden, if_neg (by simp), if_neg (by simp),
    hlower]
  exact if_neg hlt

theorem companion_eq_error_iff {num den : List α} {e : ModelError α} :
    companion num den = .error e ↔ Rejects num den e := by
  refine ⟨fun h => ?_, Rejects.companion⟩
  obtain ⟨e', he'⟩ | ⟨hnum, hden, lead, lower, hlower, hle⟩ := companion_cases num den
  · cases h.symm.trans he'.companion
    exact he'
  · cases h.symm.trans (companion_of_le hnum hden hlower hle)

theorem companion_eq_ok_iff {num den : List α} {ms : Matrices α} :
    companion num den = .ok ms ↔
      (∀ c ∈ num, Coefficient.isFinite c = true) ∧ (∀ c ∈ den, Coefficient.isFinite c = true) ∧
      ∃ lead lower, stripLeadingZeros den = lead :: lower ∧
        (stripToOne num).length ≤ lower.length + 1 ∧
        ms = companionOf ((lead :: lower).map (· / lead)) (filledUp num lead lower) := by
  constructor
  · intro h
    obtain ⟨e, he⟩ | ⟨hnum, hden, lead, lower, hlower, hle⟩ := companion_cases num den
    · cases h.symm.trans he.companion
    · cases h.symm.trans (companion_of_le hnum hden hlower hle)
      exact ⟨hnum, hden, lead, lower, hlower, hle, rfl⟩
  · rintro ⟨hnum, hden, lead, lower, hlower, hle, rfl⟩
    exact companion_of_le hnum hden hlower hle

/-- Every matrix of a companion form has the dimensions that the degree of the denominator asks
for. -/
theorem companion_shapes {num den : List α} {ms : Matrices α} (h : companion num den = .ok ms) :
    ∃ n, HasDegree den n ∧ ms.A.height = n ∧ ms.A.cols = n ∧ ms.B.height = n ∧ ms.B.cols = 1 ∧
      ms.C.height = 1 ∧ ms.C.cols = n ∧ ms.D.height = 1 ∧ ms.D.cols = 1 := by
  obtain ⟨-, -, lead, lower, hlower, -, rfl⟩ := companion_eq_ok_iff.1 h
  refine ⟨lower.length, hasDegree_iff.2 ⟨lead, lower, hlower, rfl⟩, ?_⟩
  simp [companionOf]

/-- Zeros in front of the numerator or of the denominator change nothing. -/
theorem companion_zeros_append {zeros zeros' : List α} (num den : List α)
    (hzeros : ∀ c ∈ zeros, Coefficient.isFinite c = true ∧ Coefficient.isZero c = true)
    (hzeros' : ∀ c ∈ zeros', Coefficient.isFinite c = true ∧ Coefficient.isZero c = true) :
    companion (zeros ++ num) (zeros' ++ den) = companion num den := by
  rw [companion, allFinite_append fun c hc => (hzeros c hc).1,
    allFinite_append fun c hc => (hzeros' c hc).1,
    stripLeadingZeros_append fun c hc => (hzeros' c hc).2,
    stripToOne_append fun c hc => (hzeros c hc).2]
  rfl

end Quotient

/-! ## Bounds -/

section Bounds

/-- A difference that is not below zero. -/
def minus? (m n : Nat) : Option Nat := if n ≤ m then some (m - n) else none

theorem minus?_eq_some {m n : Nat} (h : n ≤ m) : minus? m n = some (m - n) := if_pos h

omit [Coefficient α] in
theorem getElem?_eq_some_getD [Zero α] {p : List α} {i : Nat} (h : i < p.length) :
    p[i]? = some (p.getD i 0) := by
  rw [List.getD_eq_getElem?_getD, List.getElem?_eq_getElem h, Option.getD_some]

/-- The grid of the given entries, if none of them is missing. -/
def Grid.ofFn? [Zero α] (height cols : Nat) (f : Nat → Nat → Option α) : Option (Grid α) :=
  if ∀ i < height, ∀ j < cols, (f i j).isSome = true then
    some (.ofFn height cols fun i j => (f i j).getD 0)
  else none

omit [Coefficient α] in
theorem Grid.ofFn?_eq_some [Zero α] {height cols : Nat} {f : Nat → Nat → Option α}
    {g : Nat → Nat → α} (h : ∀ i < height, ∀ j < cols, f i j = some (g i j)) :
    ofFn? height cols f = some (.ofFn height cols g) := by
  have hsome : ∀ i < height, ∀ j < cols, (f i j).isSome = true := by
    intro i hi j hj
    rw [h i hi j hj]
    rfl
  rw [ofFn?, if_pos hsome, Option.some.injEq, ofFn, ofFn, Grid.mk.injEq]
  refine ⟨rfl, List.map_congr_left fun i hi => List.map_congr_left fun j hj => ?_⟩
  rw [h i (List.mem_range.1 hi) j (List.mem_range.1 hj)]
  rfl

/-- The coefficients from the first on that does not count as zero. -/
def stripLeadingZeros? (p : List α) : Option (List α) :=
  let start := (p.findIdx? fun c => !Coefficient.isZero c).getD p.length
  if start ≤ p.length then some (p.drop start) else none

theorem stripLeadingZeros?_eq (p : List α) :
    stripLeadingZeros? p = some (stripLeadingZeros p) := by
  have hstart : p.findIdx (fun c => !Coefficient.isZero c) = _ := List.findIdx_eq_getD_findIdx?
  rw [stripLeadingZeros?, ← hstart, if_pos List.findIdx_le_length, stripLeadingZeros,
    List.dropWhile_eq_drop_findIdx_not]

variable [Zero α] [One α] [Neg α] [Sub α] [Mul α] [Div α]

/-- The companion form of two coefficient lists for `n` states, with every index and every
difference checked: `none` if one of them is out of range. -/
def companionOf? (n : Nat) (a b : List α) : Option (Matrices α) := do
  let feedthrough ← b[0]?
  let A ← Grid.ofFn? n n fun i j =>
    if i + 1 = n then do return -(← a[← minus? n j]?)
    else if j = i + 1 then some 1
    else some 0
  let C ← Grid.ofFn? 1 n fun _ j => do
    return (← b[← minus? n j]?) - feedthrough * (← a[← minus? n j]?)
  return {
    A
    B := .ofFn n 1 fun i _ => if i + 1 = n then 1 else 0
    C
    D := .ofFn 1 1 fun _ _ => feedthrough }

/-- The companion form of a quotient, checked in the same way. -/
def companion? (num den : List α) : Option (Except (ModelError α) (Matrices α)) :=
  if !allFinite num then some (.error (.nonFinite .numerator))
  else if !allFinite den then some (.error (.nonFinite .denominator))
  else do
    let den ← stripLeadingZeros? den
    if den.isEmpty then return .error .emptyDenominator
    let stripped ← stripLeadingZeros? num
    let num := if stripped.isEmpty then [0] else stripped
    let n ← minus? den.length 1
    let m ← minus? num.length 1
    if n < m then return .error (.improper m n)
    let lead ← den[0]?
    let padding ← minus? n m
    let ms ← companionOf? n (den.map (· / lead))
      (List.replicate padding 0 ++ num.map (· / lead))
    return .ok ms

omit [Coefficient α] [Div α] in
theorem companionOf?_eq {n : Nat} {a b : List α} (ha : a.length = n + 1) (hb : b.length = n + 1) :
    companionOf? n a b = some (companionOf a b) := by
  have hn : a.length - 1 = n := by omega
  have hcoefficient (p : List α) (hp : p.length = n + 1) (j : Nat) (hj : j < n) :
      (minus? n j).bind (p[·]?) = some (p.getD (n - j) 0) := by
    rw [minus?_eq_some (Nat.le_of_lt hj), Option.bind_some, getElem?_eq_some_getD (by omega)]
  have hA : Grid.ofFn? n n (fun i j =>
      if i + 1 = n then ((minus? n j).bind (a[·]?)).bind fun c => some (-c)
      else if j = i + 1 then some 1 else some 0) = some (companionOf a b).A := by
    rw [companionOf, hn]
    refine Grid.ofFn?_eq_some fun i _ j hj => ?_
    rw [hcoefficient a ha j hj]
    by_cases hi : i + 1 = n
    · simp only [if_pos hi, Option.bind_some]
    · simp only [if_neg hi, apply_ite some]
  have hC : Grid.ofFn? 1 n (fun _ j =>
      ((minus? n j).bind (b[·]?)).bind fun c => ((minus? n j).bind (a[·]?)).bind fun d =>
        some (c - b.getD 0 0 * d)) = some (companionOf a b).C := by
    rw [companionOf, hn]
    refine Grid.ofFn?_eq_some fun i _ j hj => ?_
    rw [hcoefficient a ha j hj, hcoefficient b hb j hj, Option.bind_some, Option.bind_some]
  simp only [companionOf?, Option.bind_eq_bind, Option.pure_def,
    getElem?_eq_some_getD (show 0 < b.length by omega), Option.bind_some]
  simp only [Option.bind_assoc] at hA hC
  rw [hA, Option.bind_some, hC, Option.bind_some]
  simp only [companionOf, hn]

/-- No index of the construction is out of range, and no difference is below zero. -/
theorem companion?_eq (num den : List α) : companion? num den = some (companion num den) := by
  have hstripped : (if (stripLeadingZeros num).isEmpty then [0] else stripLeadingZeros num) =
      stripToOne num := by
    rw [stripToOne]
    cases stripLeadingZeros num with
    | nil => rfl
    | cons c p => rfl
  rw [companion?, companion]
  simp only [stripLeadingZeros?_eq, Option.bind_eq_bind, Option.bind_some, hstripped]
  cases !allFinite num with
  | true => rfl
  | false =>
    cases !allFinite den with
    | true => rfl
    | false =>
      cases hlower : stripLeadingZeros den with
      | nil => rfl
      | cons lead lower =>
        have hpos : 0 < (stripToOne num).length := List.length_pos_iff.2 (stripToOne_ne_nil num)
        have hn : minus? (lead :: lower).length 1 = some lower.length :=
          minus?_eq_some (Nat.le_add_left 1 lower.length)
        have hm : minus? (stripToOne num).length 1 = some ((stripToOne num).length - 1) :=
          minus?_eq_some hpos
        simp only [hn, hm, List.isEmpty_cons, Bool.false_eq_true, if_false, Option.bind_some,
          List.getElem?_cons_zero]
        by_cases hlt : lower.length < (stripToOne num).length - 1
        · rw [if_pos hlt, if_pos hlt]
          rfl
        · have hle : (stripToOne num).length ≤ lower.length + 1 := by omega
          have hlist := companionOf?_eq (n := lower.length) (a := (lead :: lower).map (· / lead))
            (by simp) (length_filledUp lead hle)
          rw [if_neg hlt, if_neg hlt, minus?_eq_some (by omega), Option.bind_some]
          rw [filledUp] at hlist
          rw [hlist]
          rfl

end Bounds

end Model
end LtiUnit
