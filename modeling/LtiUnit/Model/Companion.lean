import LtiUnit.Model.StateSpace

/-!
# LtiUnit.Model.Companion

Transfer functions `num(s) / den(s)` in controllable companion form. Polynomials are lists of
coefficients, highest degree first.

With `den` divided by its leading coefficient to `s^n + a₁ s^(n-1) + … + aₙ`, and `num` likewise
and padded on the left to `b₀ s^n + … + bₙ`, the realization has ones above the diagonal of `A`,
`-aₙ … -a₁` in its last row, a one at the end of `B`, `bₙ - b₀ aₙ … b₁ - b₀ a₁` in `C`, and `b₀`
in `D`.
-/

namespace LtiUnit
namespace Model

variable {α : Type}

/-- A polynomial without its leading zeros. -/
def stripLeadingZeros [Coefficient α] (p : List α) : List α := p.dropWhile Coefficient.isZero

/-- A polynomial without its leading zeros, except that the zero polynomial keeps one. -/
def stripToOne [Coefficient α] [Zero α] (p : List α) : List α :=
  match stripLeadingZeros p with
  | [] => [0]
  | q => q

/-- The companion form of two coefficient lists of one length, that of the denominator beginning
with one. -/
def companionOf [Zero α] [One α] [Neg α] [Sub α] [Mul α] (a b : List α) : Matrices α :=
  let n := a.length - 1
  let feedthrough := b.getD 0 0
  { A := .ofFn n n fun i j =>
      if i + 1 = n then -(a.getD (n - j) 0) else if j = i + 1 then 1 else 0
    B := .ofFn n 1 fun i _ => if i + 1 = n then 1 else 0
    C := .ofFn 1 n fun _ j => b.getD (n - j) 0 - feedthrough * a.getD (n - j) 0
    D := .ofFn 1 1 fun _ _ => feedthrough }

/-- The companion form of `num(s) / den(s)`. -/
def companion [Coefficient α] [Zero α] [One α] [Neg α] [Sub α] [Mul α] [Div α]
    (num den : List α) : Except (ModelError α) (Matrices α) :=
  if !allFinite num then .error (.nonFinite .numerator)
  else if !allFinite den then .error (.nonFinite .denominator)
  else
    match stripLeadingZeros den with
    | [] => .error .emptyDenominator
    | lead :: lower =>
      let top := stripToOne num
      let n := lower.length
      let m := top.length - 1
      if n < m then .error (.improper m n)
      else
        .ok (companionOf ((lead :: lower).map (· / lead))
          (List.replicate (n - m) 0 ++ top.map (· / lead)))

/-- Realize `num(s) / den(s)` with the given start values. -/
def realizeQuotient [Coefficient α] [Zero α] [One α] [Neg α] [Sub α] [Mul α] [Div α]
    (num den : List α) (x0 : Option (List α)) (u0 : Option α) :
    Except (ModelError α) (StateSpace α) := do
  let m ← companion num den
  StateSpace.ofMatrices? m x0 (u0.map ([·]))

/-- The coefficients of `(s - r) · p(s)`, with `carry` for what the coefficient before the first
leaves to the first. -/
def timesRoot [Zero α] [Add α] [Sub α] [Mul α] (r : α) : α → List α → List α
  | carry, [] => [carry]
  | carry, c :: p => (carry + c) :: timesRoot r (0 - c * r) p

/-- The coefficients of the product of all `s - r`. -/
def ofRoots [Zero α] [One α] [Add α] [Sub α] [Mul α] (roots : List α) : List α :=
  roots.foldl (fun p r => timesRoot r 0 p) [1]

/-- Realize `gain · ∏ (s - z) / ∏ (s - p)`. -/
def realizeFactors [Coefficient α] [Zero α] [One α] [Neg α] [Add α] [Sub α] [Mul α] [Div α]
    (zeros poles : List α) (gain : α) (x0 : Option (List α)) (u0 : Option α) :
    Except (ModelError α) (StateSpace α) :=
  if !allFinite zeros then .error (.nonFinite .zeros)
  else if !allFinite poles then .error (.nonFinite .poles)
  else if !Coefficient.isFinite gain then .error (.nonFinite .gain)
  else realizeQuotient ((ofRoots zeros).map (· * gain)) (ofRoots poles) x0 u0

end Model
end LtiUnit
