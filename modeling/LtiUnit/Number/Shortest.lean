import LtiUnit.Number.Binary64

/-!
# LtiUnit.Number.Shortest

The decimal numbers with the fewest digits that read back as a given magnitude.

The reals that read as rank `r` form an interval whose ends are the midpoints to the two
neighbouring magnitudes; the ends belong to it exactly when `r` is even. `shortest` looks for the
coarsest decimal grid with a point in that interval, by testing the two grid points next to the
value, and takes the nearer of them. Lengths are counted in half units, so every comparison is
one of natural numbers.
-/

namespace LtiUnit
namespace Number

/-- Which of two equally near decimal numbers is taken. -/
inductive Tie where
  | up
  | even
  deriving DecidableEq, Repr

/-- `coefficient · 10 ^ exponent`. -/
structure Scaled where
  coefficient : Nat
  exponent : Int
  deriving DecidableEq, Repr

/-- Half units from zero to the lower end of the interval of rank `r`. -/
def lowEnd (r : Nat) : Nat := unitsOf (r - 1) + unitsOf r

/-- Half units from zero to the upper end of the interval of rank `r`. -/
def highEnd (r : Nat) : Nat := unitsOf r + unitsOf (r + 1)

/-- The spacing of the grid of multiples of `10 ^ p`, and the scale on which it is a whole number
of half units. -/
def gridStep (p : Int) : Nat × Nat :=
  if 0 ≤ p then (Nat.pow 10 p.toNat * (2 * unit), 1) else (2 * unit, Nat.pow 10 (-p).toNat)

/-- Whether `x` (on the given scale) reads as rank `r`. -/
def readsAs (r scale x : Nat) : Bool :=
  if r % 2 = 0 then decide (lowEnd r * scale ≤ x ∧ x ≤ highEnd r * scale)
  else decide (lowEnd r * scale < x ∧ x < highEnd r * scale)

/-- The multiple of `10 ^ p` next to the magnitude of rank `r` that reads back as it, if any. -/
def gridPoint? (tie : Tie) (r : Nat) (p : Int) : Option Nat :=
  let (step, scale) := gridStep p
  let x := 2 * unitsOf r * scale
  let below := x / step
  let downHits := readsAs r scale (below * step)
  let upHits := readsAs r scale ((below + 1) * step)
  if downHits && upHits then
    let toDown := x - below * step
    let toUp := (below + 1) * step - x
    if toDown < toUp then some below
    else if toUp < toDown then some (below + 1)
    else match tie with
      | .up => some (below + 1)
      | .even => some (below + below % 2)
  else if downHits then some below
  else if upHits then some (below + 1)
  else none

/-- Search from the grid of `10 ^ p` to finer ones; the exact expansion ends every search. -/
def searchGrid (tie : Tie) (r : Nat) : Nat → Int → Scaled
  | 0, _ => ⟨unitsOf r * Nat.pow 5 1074, -1074⟩
  | steps + 1, p =>
    match gridPoint? tie r p with
    | some c => ⟨c, p⟩
    | none => searchGrid tie r steps (p - 1)

/-- An exponent whose power of ten is above the whole interval of rank `r`. -/
def coarsest (r : Nat) : Int :=
  (((highEnd r).log2 : Int) - 1074) * 30103 / 100000 + 2

/-- The shortest decimal number that reads back as the magnitude of rank `r`. -/
def shortest (tie : Tie) (r : Nat) : Scaled :=
  if r = 0 then ⟨0, 0⟩ else searchGrid tie r 25 (coarsest r)

end Number
end LtiUnit
