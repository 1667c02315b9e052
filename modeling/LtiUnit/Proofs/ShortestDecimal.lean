import LtiUnit.Proofs.NearestRank

/-!
# LtiUnit.Proofs.ShortestDecimal

The shortest decimal number of a rank reads back as the rank.

* `shortest_within` — it lies in the interval of the rank.
* `rank_of_within` — a decimal number in the interval of a rank has this rank.
-/

namespace LtiUnit
namespace Number

/-! ## Ranks and units -/

theorem unitsOf_between {r : Nat} (h : 0 < r) :
    lowEnd r < 2 * unitsOf r ∧ 2 * unitsOf r < highEnd r := by
  have hpos : 0 < binade := by decide
  rcases rank_cases r with hsmall | ⟨b, f, hf, rfl⟩
  · obtain ⟨hlow, hhigh⟩ := ends_small hsmall
    rw [hlow, hhigh, unitsOf_small (Nat.le_of_lt hsmall)]
    omega
  have hpow := Nat.two_pow_pos b
  have hunits : 2 * unitsOf ((b + 1) * binade + f) = 2 * (binade + f) * 2 ^ b := by
    rw [unitsOf_eq hf]
    ring
  rw [hunits, highEnd_eq hf]
  refine ⟨?_, Nat.mul_lt_mul_of_pos_right (Nat.lt_succ_self _) hpow⟩
  by_cases hinner : 0 < f ∨ b = 0
  · rw [lowEnd_inner hf hinner]
    exact Nat.mul_lt_mul_of_pos_right (by omega) hpow
  · obtain ⟨c, rfl⟩ := Nat.exists_eq_succ_of_ne_zero (show b ≠ 0 by omega)
    obtain rfl : f = 0 := by omega
    have hdouble : 2 * (binade + 0) * 2 ^ (c + 1) = 4 * binade * 2 ^ c := by ring
    rw [Nat.succ_eq_add_one, lowEnd_first, hdouble]
    exact Nat.mul_lt_mul_of_pos_right (by omega) (Nat.two_pow_pos c)

theorem lowEnd_pos {r : Nat} (h : 0 < r) : 0 < lowEnd r := by
  have hpos : 0 < binade := by decide
  rcases rank_cases r with hsmall | ⟨b, f, hf, rfl⟩
  · rw [(ends_small hsmall).1]
    omega
  by_cases hinner : 0 < f ∨ b = 0
  · rw [lowEnd_inner hf hinner]
    exact Nat.mul_pos (by omega) (Nat.two_pow_pos b)
  · obtain ⟨c, rfl⟩ := Nat.exists_eq_succ_of_ne_zero (show b ≠ 0 by omega)
    obtain rfl : f = 0 := by omega
    rw [Nat.succ_eq_add_one, lowEnd_first]
    exact Nat.mul_pos (by omega) (Nat.two_pow_pos c)

theorem highEnd_le {r k : Nat} (h : r < (k + 2) * binade) :
    highEnd r ≤ 4 * binade * Nat.pow 2 k := by
  have hpow : 0 < Nat.pow 2 k := Nat.two_pow_pos k
  rcases rank_cases r with hsmall | ⟨b, f, hf, rfl⟩
  · rw [(ends_small hsmall).2]
    exact Nat.le_trans (by omega) (Nat.le_mul_of_pos_right (4 * binade) hpow)
  have hb : b < k + 1 := by
    by_contra hge
    have := Nat.mul_le_mul_right binade (show k + 2 ≤ b + 1 by omega)
    omega
  rw [highEnd_eq hf]
  exact Nat.mul_le_mul (by omega) (Nat.pow_le_pow_right (by decide) (by omega))

/-! ## Decimal numbers as fractions -/

/-- Units in `c · 10 ^ p`, as a fraction. -/
def unitsIn (c : Nat) (p : Int) : Nat × Nat :=
  if 0 ≤ p then (c * Nat.pow 10 p.toNat * unit, 1) else (c * unit, Nat.pow 10 (-p).toNat)

/-- Whether `c · 10 ^ p` lies in the interval of a rank. -/
def WithinDecimal (r c : Nat) (p : Int) : Prop := Within r (unitsIn c p).1 (unitsIn c p).2

theorem Within.of_ratio {r n d n' d' : Nat} (h : Within r n d) (hd : 0 < d) (hd' : 0 < d')
    (heq : n * d' = n' * d) : Within r n' d' := by
  have hlow : lowEnd r * d * d' = lowEnd r * d' * d := by ring
  have hhigh : highEnd r * d * d' = highEnd r * d' * d := by ring
  have htwice : 2 * n * d' = 2 * n' * d := by
    rw [Nat.mul_assoc, heq, Nat.mul_assoc]
  refine ⟨?_, ?_, fun hodd => ⟨?_, ?_⟩⟩
  · refine Nat.le_of_mul_le_mul_right ?_ hd
    rw [← hlow, ← htwice]
    exact Nat.mul_le_mul_right d' h.low
  · refine Nat.le_of_mul_le_mul_right ?_ hd
    rw [← hhigh, ← htwice]
    exact Nat.mul_le_mul_right d' h.high
  · refine Nat.lt_of_mul_lt_mul_right (a := d) ?_
    rw [← hlow, ← htwice]
    exact Nat.mul_lt_mul_of_pos_right (h.inside hodd).1 hd'
  · refine Nat.lt_of_mul_lt_mul_right (a := d) ?_
    rw [← hhigh, ← htwice]
    exact Nat.mul_lt_mul_of_pos_right (h.inside hodd).2 hd'

/-! ## The search -/

theorem within_of_readsAs {r c : Nat} {p : Int}
    (h : readsAs r (gridStep p).2 (c * (gridStep p).1) = true) : WithinDecimal r c p := by
  have hscale : (gridStep p).2 = (unitsIn c p).2 := by
    unfold gridStep unitsIn
    split <;> rfl
  have hpoint : c * (gridStep p).1 = 2 * (unitsIn c p).1 := by
    unfold gridStep unitsIn
    split <;> simp only <;> ring
  rw [hscale, hpoint] at h
  unfold readsAs at h
  split at h <;> simp only [decide_eq_true_eq] at h
  · exact ⟨h.1, h.2, fun hodd => absurd ‹_› hodd⟩
  · exact ⟨Nat.le_of_lt h.1, Nat.le_of_lt h.2, fun _ => h⟩

theorem within_gridPoint? {tie : Tie} {r c : Nat} {p : Int} (h : gridPoint? tie r p = some c) :
    WithinDecimal r c p := by
  unfold gridPoint? at h
  simp only at h
  generalize 2 * unitsOf r * (gridStep p).2 / (gridStep p).1 = below at h
  cases hdown : readsAs r (gridStep p).2 (below * (gridStep p).1) <;>
    cases hup : readsAs r (gridStep p).2 ((below + 1) * (gridStep p).1) <;>
    simp only [hdown, hup, Bool.and_true, Bool.and_false, Bool.false_eq_true, if_true, if_false] at h
  · cases h
  · cases h
    exact within_of_readsAs hup
  · cases h
    exact within_of_readsAs hdown
  · -- both neighbours read back, so it does not matter which one is taken
    have hc : c = below ∨ c = below + 1 := by
      split_ifs at h
      · cases h
        exact .inl rfl
      · cases h
        exact .inr rfl
      · cases tie <;> cases h <;> omega
    rcases hc with rfl | rfl
    · exact within_of_readsAs hdown
    · exact within_of_readsAs hup

theorem within_units {r d : Nat} (h : 0 < r) (hd : 0 < d) : Within r (unitsOf r * d) d := by
  obtain ⟨hlow, hhigh⟩ := unitsOf_between h
  have hlow := Nat.mul_lt_mul_of_pos_right hlow hd
  have hhigh := Nat.mul_lt_mul_of_pos_right hhigh hd
  rw [Nat.mul_assoc] at hlow hhigh
  exact ⟨Nat.le_of_lt hlow, Nat.le_of_lt hhigh, fun _ => ⟨hlow, hhigh⟩⟩

theorem expand (n k : Nat) : n * Nat.pow 5 k * Nat.pow 2 k = n * Nat.pow 10 k := by
  rw [Nat.mul_assoc]
  exact congrArg (n * ·) (Nat.mul_pow 5 2 k).symm

theorem unit_eq : unit = Nat.pow 2 1074 := by
  unfold unit
  exact rfl

/-- The exact expansion of a magnitude, by the number of binary places of a unit. -/
theorem within_expansion {r k : Nat} (h : 0 < r) (hk : 0 < k) (hunit : unit = Nat.pow 2 k) :
    WithinDecimal r (unitsOf r * Nat.pow 5 k) (-(k : Int)) := by
  have hunits : unitsIn (unitsOf r * Nat.pow 5 k) (-(k : Int)) =
      (unitsOf r * Nat.pow 10 k, Nat.pow 10 k) := by
    rw [unitsIn, if_neg (by omega), hunit, expand, Int.neg_neg, Int.toNat_natCast]
  rw [WithinDecimal, hunits]
  exact within_units h (Nat.pow_pos (by decide))

theorem within_searchGrid {tie : Tie} {r : Nat} (h : 0 < r) (steps : Nat) (p : Int) :
    WithinDecimal r (searchGrid tie r steps p).coefficient (searchGrid tie r steps p).exponent := by
  induction steps generalizing p with
  | zero =>
    have hplaces : -((1074 : Nat) : Int) = -1074 := rfl
    have hexact := within_expansion (k := 1074) h (by decide) unit_eq
    rw [hplaces] at hexact
    simp only [searchGrid]
    exact hexact
  | succ steps ih =>
    unfold searchGrid
    split
    · rename_i hpoint
      exact within_gridPoint? hpoint
    · exact ih (p - 1)

/-- The shortest decimal number lies in the interval of its rank. -/
theorem shortest_within (tie : Tie) {r : Nat} (h : 0 < r) :
    WithinDecimal r (shortest tie r).coefficient (shortest tie r).exponent := by
  rw [shortest, if_neg (Nat.ne_of_gt h)]
  exact within_searchGrid h 25 (coarsest r)

theorem unitsIn_pos (c : Nat) (p : Int) : 0 < (unitsIn c p).2 := by
  unfold unitsIn
  split
  · exact Nat.one_pos
  · exact Nat.pow_pos (by decide)

theorem WithinDecimal.pos {r c : Nat} {p : Int} (h : WithinDecimal r c p) (hr : 0 < r) : 0 < c := by
  by_contra hzero
  obtain rfl : c = 0 := by omega
  have hnone : (unitsIn 0 p).1 = 0 := by
    unfold unitsIn
    split <;> simp
  have hlow := h.low
  rw [hnone] at hlow
  have := Nat.mul_pos (lowEnd_pos hr) (unitsIn_pos 0 p)
  omega

/-! ## Reading back -/

/-- A number is at least as large as the power of ten of its first digit. -/
theorem pow_le_of_length {c : Nat} (h : 0 < c) : 10 ^ ((Nat.toDigits 10 c).length - 1) ≤ c := by
  by_contra hlt
  have hpos : 0 < (Nat.toDigits 10 c).length := Nat.length_toDigits_pos
  by_cases hone : (Nat.toDigits 10 c).length - 1 = 0
  · rw [hone] at hlt
    omega
  · have := (Nat.length_toDigits_le_iff (by decide) (Nat.pos_of_ne_zero hone)).2
      (Nat.lt_of_not_le hlt)
    omega

theorem lt_pow_length (c : Nat) : c < 10 ^ (Nat.toDigits 10 c).length :=
  (Nat.length_toDigits_le_iff (by decide) Nat.length_toDigits_pos).1 (Nat.le_refl _)

/-- The place of the first digit, up or down, from which on a magnitude is infinite or zero. -/
def farDigits : Nat := 400

def lastShift : Nat := 2045

theorem highest_lt : 4 * binade * Nat.pow 2 lastShift < 2 * (Nat.pow 10 farDigits * unit) := by
  decide +kernel

theorem lowest_lt : 2 * unit < Nat.pow 10 (farDigits + 1) := by
  decide +kernel

theorem highEnd_lt {r : Nat} (h : r < infinityRank) :
    highEnd r < 2 * (Nat.pow 10 farDigits * unit) :=
  Nat.lt_of_le_of_lt (highEnd_le (k := lastShift) h) highest_lt

theorem unitsIn_of_nonneg (c k : Nat) : unitsIn c (k : Int) = (c * Nat.pow 10 k * unit, 1) :=
  if_pos (Int.natCast_nonneg k)

theorem unitsIn_of_neg (c : Nat) {k : Nat} (h : 0 < k) :
    unitsIn c (-(k : Int)) = (c * unit, Nat.pow 10 k) := by
  rw [unitsIn, if_neg (by omega), Int.neg_neg, Int.toNat_natCast]

theorem power_cases (p : Int) : (∃ k : Nat, p = k) ∨ ∃ k : Nat, 0 < k ∧ p = -(k : Int) := by
  rcases Int.lt_or_le p 0 with h | h
  · exact .inr ⟨(-p).toNat, by omega, by omega⟩
  · exact .inl ⟨p.toNat, by omega⟩

theorem pow_le_pow {m n : Nat} (h : m ≤ n) : Nat.pow 10 m ≤ Nat.pow 10 n :=
  Nat.pow_le_pow_right (by decide) h

theorem pow_mul_pow (m n : Nat) : Nat.pow 10 m * Nat.pow 10 n = Nat.pow 10 (m + n) :=
  (Nat.pow_add 10 m n).symm

/-- The first digit is not so high that the number would be infinite. -/
theorem top_le {r c : Nat} {p : Int} (h : WithinDecimal r c p) (hc : 0 < c)
    (hfinite : r < infinityRank) : p + (Nat.toDigits 10 c).length ≤ farDigits := by
  have hhigh : (unitsIn c p).1 < Nat.pow 10 farDigits * unit * (unitsIn c p).2 := by
    have := Nat.lt_of_le_of_lt h.high
      (Nat.mul_lt_mul_of_pos_right (highEnd_lt hfinite) (unitsIn_pos c p))
    rw [Nat.mul_assoc] at this
    omega
  have hleast : Nat.pow 10 ((Nat.toDigits 10 c).length - 1) ≤ c := pow_le_of_length hc
  by_contra hfar
  rcases power_cases p with ⟨k, rfl⟩ | ⟨k, hk, rfl⟩
  · have hpow := pow_le_pow (show farDigits ≤ (Nat.toDigits 10 c).length - 1 + k by omega)
    rw [← pow_mul_pow] at hpow
    have hfull := Nat.mul_le_mul_right unit
      (Nat.le_trans hpow (Nat.mul_le_mul_right (Nat.pow 10 k) hleast))
    rw [unitsIn_of_nonneg, Nat.mul_one] at hhigh
    exact absurd hhigh (Nat.not_lt.2 hfull)
  · have hpow := pow_le_pow (show farDigits + k ≤ (Nat.toDigits 10 c).length - 1 by omega)
    rw [← pow_mul_pow] at hpow
    have hfull := Nat.mul_le_mul_right unit (Nat.le_trans hpow hleast)
    rw [unitsIn_of_neg c hk, Nat.mul_right_comm] at hhigh
    exact absurd hhigh (Nat.not_lt.2 hfull)

theorem le_top {r c : Nat} {p : Int} (h : WithinDecimal r c p) (hr : 0 < r) :
    -(farDigits : Int) ≤ p + (Nat.toDigits 10 c).length := by
  have hlow : (unitsIn c p).2 ≤ 2 * (unitsIn c p).1 :=
    Nat.le_trans (Nat.le_mul_of_pos_left _ (lowEnd_pos hr)) h.low
  have hmost : c < Nat.pow 10 (Nat.toDigits 10 c).length := lt_pow_length c
  by_contra hfar
  rcases power_cases p with ⟨k, rfl⟩ | ⟨k, hk, rfl⟩
  · omega
  have hpow := pow_le_pow (show (Nat.toDigits 10 c).length + (farDigits + 1) ≤ k by omega)
  rw [← pow_mul_pow] at hpow
  rw [unitsIn_of_neg c hk] at hlow
  have hless : c * (2 * unit) < Nat.pow 10 (Nat.toDigits 10 c).length * Nat.pow 10 (farDigits + 1) :=
    Nat.mul_lt_mul'' hmost lowest_lt
  rw [Nat.mul_left_comm] at hless
  exact absurd (Nat.le_trans hpow hlow) (Nat.not_le.2 hless)

theorem rank_of_within {r c : Nat} {p : Int} {negative : Bool} (h : WithinDecimal r c p)
    (hr : 0 < r) (hfinite : r < infinityRank) : Decimal.rank ⟨negative, c, p⟩ = r := by
  have hbottom := le_top h hr
  have htop := top_le h (h.pos hr) hfinite
  have hfar : farDigits = 400 := rfl
  have hrank := nearestRank_of_within (unitsIn_pos c p) hfinite h
  rw [Decimal.rank, if_neg (Nat.ne_of_gt (h.pos hr))]
  simp only
  rw [if_neg (by omega), if_neg (by omega)]
  unfold unitsIn at hrank
  split_ifs at hrank ⊢ <;> exact hrank

end Number
end LtiUnit
