import LtiUnit.Number.Shortest
import Mathlib.Tactic.Linarith
import Mathlib.Tactic.Ring

/-!
# LtiUnit.Proofs.NearestRank

Which quotients of units round to a rank: those in the interval between the midpoints to the two
neighbouring magnitudes, with the midpoints if the rank is even.
-/

namespace LtiUnit
namespace Number

theorem binade_eq : binade = 2 ^ 52 := rfl

theorem binade_even : binade % 2 = 0 := by decide

theorem infinityRank_eq : infinityRank = 2047 * binade := rfl

/-- Whether `n / d` units lie in the interval of a rank. -/
structure Within (r n d : Nat) : Prop where
  low : lowEnd r * d ≤ 2 * n
  high : 2 * n ≤ highEnd r * d
  inside : r % 2 ≠ 0 → lowEnd r * d < 2 * n ∧ 2 * n < highEnd r * d

/-- A quotient rounds to a number at most half from it, and to an even one if it is half from it. -/
theorem divEven_eq {n d m : Nat} (hlow : 2 * (m * d) ≤ 2 * n + d)
    (hhigh : 2 * n ≤ 2 * (m * d) + d)
    (hodd : m % 2 ≠ 0 → 2 * (m * d) < 2 * n + d ∧ 2 * n < 2 * (m * d) + d) (hd : 0 < d) :
    divEven n d = m := by
  have hn : n = n / d * d + n % d := (Nat.div_add_mod' n d).symm
  have hrest : n % d < d := Nat.mod_lt n hd
  unfold divEven
  dsimp only
  generalize n / d = q at hn ⊢
  generalize n % d = s at hn hrest ⊢
  have hcases : m = q ∨ m = q + 1 := by
    have hlower : q ≤ m := by
      by_contra h
      have : (m + 1) * d ≤ q * d := Nat.mul_le_mul_right d (by omega)
      rw [Nat.add_mul] at this
      omega
    have hupper : m < q + 2 := by
      by_contra h
      have : (q + 2) * d ≤ m * d := Nat.mul_le_mul_right d (by omega)
      rw [Nat.add_mul] at this
      omega
    omega
  rcases hcases with rfl | rfl
  · split_ifs <;> omega
  · rw [Nat.add_mul] at hlow hhigh hodd
    split_ifs <;> omega

theorem shift_eq {n d s : Nat} (hd : 0 < d) (hhigh : n < 2 ^ (53 + s) * d)
    (hlow : s = 0 ∨ 2 ^ (52 + s) * d ≤ n) : (n / d).log2 - 52 = s := by
  have hlt : n / d < 2 ^ (53 + s) := (Nat.div_lt_iff_lt_mul hd).2 hhigh
  by_cases hzero : n / d = 0
  · rw [hzero]
    rcases hlow with rfl | hlow
    · rfl
    · have := (Nat.le_div_iff_mul_le hd).2 hlow
      have := Nat.two_pow_pos (52 + s)
      omega
  have hlog := (Nat.log2_lt hzero).2 hlt
  rcases hlow with rfl | hlow
  · omega
  · have := (Nat.le_log2 hzero).2 ((Nat.le_div_iff_mul_le hd).2 hlow)
    omega

/-- Rounding in the binade that a shift belongs to. -/
theorem nearestRank_of_shift {n d s m : Nat} (hd : 0 < d) (hhigh : n < 2 ^ (53 + s) * d)
    (hlow : s = 0 ∨ 2 ^ (52 + s) * d ≤ n) (hm : divEven n (d * 2 ^ s) = m) :
    nearestRank n d = min (s * binade + m) infinityRank := by
  have hshift := shift_eq hd hhigh hlow
  unfold nearestRank
  dsimp only
  rw [hshift]
  exact congrArg (fun m => min (s * binade + m) infinityRank) hm

/-- Units of a rank by its binade and its place there. -/
theorem unitsOf_eq {b f : Nat} (hf : f < binade) : unitsOf ((b + 1) * binade + f) =
    (binade + f) * 2 ^ b := by
  have hpos : 0 < binade := by decide
  have hge : ¬(b + 1) * binade + f < binade := by
    rw [Nat.add_mul]
    omega
  have hmod : ((b + 1) * binade + f) % binade = f := by
    rw [Nat.mul_comm, Nat.mul_add_mod, Nat.mod_eq_of_lt hf]
  have hdiv : ((b + 1) * binade + f) / binade = b + 1 := by
    rw [Nat.mul_comm, Nat.mul_add_div hpos, Nat.div_eq_of_lt hf, Nat.add_zero]
  rw [unitsOf, if_neg hge, hmod, hdiv]
  rfl

theorem unitsOf_small {r : Nat} (h : r ≤ binade) : unitsOf r = r := by
  rcases Nat.lt_or_eq_of_le h with h | rfl
  · exact if_pos h
  · have := unitsOf_eq (b := 0) (f := 0) (by decide)
    simpa using this

/-- Units of the next rank in the same binade, or of the first one in the next. -/
theorem unitsOf_next {b f : Nat} (hf : f < binade) : unitsOf ((b + 1) * binade + f + 1) =
    (binade + f + 1) * 2 ^ b := by
  rcases Nat.lt_or_ge (f + 1) binade with h | h
  · rw [Nat.add_assoc, Nat.add_assoc]
    exact unitsOf_eq h
  · have hlast : f + 1 = binade := by omega
    have hrank : (b + 1) * binade + f + 1 = (b + 1 + 1) * binade + 0 := by
      rw [Nat.add_assoc, hlast]
      ring
    rw [hrank, unitsOf_eq (by decide), Nat.add_assoc, hlast]
    ring

/-- Every rank is small, or in some binade after the first. -/
theorem rank_cases (r : Nat) :
    r < binade ∨ ∃ b f, f < binade ∧ r = (b + 1) * binade + f := by
  rcases Nat.lt_or_ge r binade with h | h
  · exact .inl h
  · have hpos : 0 < binade := by decide
    refine .inr ⟨r / binade - 1, r % binade, Nat.mod_lt _ hpos, ?_⟩
    have hdiv : 1 ≤ r / binade := (Nat.one_le_div_iff hpos).2 h
    rw [Nat.sub_add_cancel hdiv]
    exact (Nat.div_add_mod' r binade).symm

/-- The lower end of the interval of a rank that is not the first of its binade. -/
theorem lowEnd_inner {b f : Nat} (hf : f < binade) (h : 0 < f ∨ b = 0) :
    lowEnd ((b + 1) * binade + f) = (2 * (binade + f) - 1) * 2 ^ b := by
  have hpos : 0 < binade := by decide
  rcases Nat.eq_zero_or_pos f with rfl | hf0
  · obtain rfl : b = 0 := by omega
    have hprev : (0 + 1) * binade + 0 - 1 = binade - 1 := by omega
    rw [lowEnd, hprev, unitsOf_small (by omega), unitsOf_eq hpos]
    omega
  · have hprev : (b + 1) * binade + f - 1 = (b + 1) * binade + (f - 1) := by omega
    rw [lowEnd, hprev, unitsOf_eq hf, unitsOf_eq (by omega), ← Nat.add_mul]
    congr 1
    omega

/-- The lower end of the interval of the first rank of a binade: half as far from it. -/
theorem lowEnd_first (b : Nat) :
    lowEnd ((b + 1 + 1) * binade + 0) = (4 * binade - 1) * 2 ^ b := by
  have hpos : 0 < binade := by decide
  have hprev : (b + 1 + 1) * binade + 0 - 1 = (b + 1) * binade + (binade - 1) := by
    rw [Nat.add_mul (b + 1) 1]
    omega
  have hdouble : (binade + 0) * 2 ^ (b + 1) = (2 * binade) * 2 ^ b := by ring
  have hsum : binade + (binade - 1) + 2 * binade = 4 * binade - 1 := by omega
  rw [lowEnd, hprev, unitsOf_eq (by omega), unitsOf_eq hpos, hdouble, ← Nat.add_mul, hsum]

theorem highEnd_eq {b f : Nat} (hf : f < binade) :
    highEnd ((b + 1) * binade + f) = (2 * (binade + f) + 1) * 2 ^ b := by
  rw [highEnd, unitsOf_eq hf, unitsOf_next hf, ← Nat.add_mul]
  congr 1
  omega

/-- The ends of the interval of a small rank. -/
theorem ends_small {r : Nat} (h : r < binade) : lowEnd r = 2 * r - 1 ∧ highEnd r = 2 * r + 1 := by
  rw [lowEnd, highEnd, unitsOf_small (Nat.le_of_lt h), unitsOf_small h,
    unitsOf_small (by omega)]
  omega

theorem nearestRank_small {r n d : Nat} (hd : 0 < d) (hr : r < binade) (h : Within r n d) :
    nearestRank n d = r := by
  obtain ⟨hlow, hhigh⟩ := ends_small hr
  have hends := h.low
  have hends' := h.high
  have hodd := h.inside
  rw [hlow] at hends hodd
  rw [hhigh] at hends' hodd
  rw [Nat.sub_mul, Nat.mul_assoc] at hends hodd
  rw [Nat.add_mul, Nat.mul_assoc] at hends' hodd
  have hrd : r * d ≤ (binade - 1) * d := Nat.mul_le_mul_right d (by omega)
  have hB : binade = 4503599627370496 := rfl
  rw [nearestRank_of_shift hd (s := 0) (m := r) ?_ (.inl rfl) ?_]
  · rw [infinityRank_eq]
    omega
  · rw [hB] at hrd
    omega
  · rw [Nat.pow_zero, Nat.mul_one]
    exact divEven_eq (by omega) (by omega) (by omega) hd

theorem scaled (k d b : Nat) : k * 2 ^ b * d = k * (d * 2 ^ b) := by ring

/-- A quotient in the binade of its rank. -/
theorem nearestRank_inner {b f n d : Nat} (hd : 0 < d) (hf : f < binade)
    (hr : (b + 1) * binade + f < infinityRank) (h : Within ((b + 1) * binade + f) n d)
    (hn : binade * (d * 2 ^ b) ≤ n) : nearestRank n d = (b + 1) * binade + f := by
  have hP : 0 < d * 2 ^ b := Nat.mul_pos hd (Nat.two_pow_pos b)
  have heven : ((b + 1) * binade + f) % 2 = (binade + f) % 2 := by
    rw [show binade = 2 * 2 ^ 51 from rfl]
    omega
  have hhigh := h.high
  have hodd := h.inside
  rw [highEnd_eq hf, scaled, Nat.add_mul (2 * (binade + f)) 1, Nat.mul_assoc, Nat.one_mul]
    at hhigh hodd
  rw [heven] at hodd
  -- the lower end is further away, except below the first rank of a binade
  have hlow : 2 * ((binade + f) * (d * 2 ^ b)) ≤ 2 * n + d * 2 ^ b ∧ ((binade + f) % 2 ≠ 0 →
      2 * ((binade + f) * (d * 2 ^ b)) < 2 * n + d * 2 ^ b) := by
    by_cases hinner : 0 < f ∨ b = 0
    · have hends := h.low
      rw [lowEnd_inner hf hinner, scaled, Nat.sub_mul, Nat.mul_assoc, Nat.one_mul] at hends hodd
      omega
    · obtain rfl : f = 0 := by omega
      rw [Nat.add_zero]
      omega
  have hbinade : binade * (d * 2 ^ b) = 2 ^ (52 + b) * d := by
    rw [binade_eq]
    ring
  have hdouble : 2 * (binade * (d * 2 ^ b)) = 2 ^ (53 + b) * d := by
    rw [binade_eq]
    ring
  have hplace : (binade + f) * (d * 2 ^ b) + d * 2 ^ b ≤ 2 * (binade * (d * 2 ^ b)) := by
    have := Nat.mul_le_mul_right (d * 2 ^ b) (show binade + f + 1 ≤ 2 * binade by omega)
    rwa [Nat.add_mul _ 1, Nat.one_mul, Nat.mul_assoc] at this
  rw [nearestRank_of_shift hd (s := b) (m := binade + f) ?_ (.inr (hbinade ▸ hn)) ?_]
  · have hrank : b * binade + (binade + f) = (b + 1) * binade + f := by ring
    rw [hrank]
    exact Nat.min_eq_left (Nat.le_of_lt hr)
  · omega
  · exact divEven_eq hlow.1 hhigh (fun h => ⟨hlow.2 h, (hodd h).2⟩) hP

/-- A quotient in the binade before the one that its rank opens. -/
theorem nearestRank_below {b n d : Nat} (hd : 0 < d)
    (hr : (b + 1) * binade + 0 < infinityRank) (h : Within ((b + 1) * binade + 0) n d)
    (hn : n < binade * (d * 2 ^ b)) : nearestRank n d = (b + 1) * binade + 0 := by
  have hlow := h.low
  cases b with
  | zero =>
    rw [lowEnd_inner (by decide) (.inr rfl), Nat.pow_zero, Nat.mul_one, Nat.add_zero, Nat.sub_mul,
      Nat.mul_assoc, Nat.one_mul] at hlow
    rw [Nat.pow_zero, Nat.mul_one] at hn
    rw [nearestRank_of_shift hd (s := 0) (m := binade) ?_ (.inl rfl) ?_]
    · omega
    · rw [binade_eq] at hn
      omega
    · rw [Nat.pow_zero, Nat.mul_one]
      exact divEven_eq (by omega) (by omega) (fun h => absurd binade_even h) hd
  | succ b =>
    have hP : 0 < d * 2 ^ b := Nat.mul_pos hd (Nat.two_pow_pos b)
    rw [lowEnd_first, scaled, Nat.sub_mul, Nat.mul_assoc, Nat.one_mul] at hlow
    have hhalf : binade * (d * 2 ^ (b + 1)) = 2 * (binade * (d * 2 ^ b)) := by ring
    have hbinade : binade * (d * 2 ^ b) = 2 ^ (52 + b) * d := by
      rw [binade_eq]
      ring
    have hdouble : 2 * (binade * (d * 2 ^ b)) = 2 ^ (53 + b) * d := by
      rw [binade_eq]
      ring
    have hroom : d * 2 ^ b ≤ binade * (d * 2 ^ b) := Nat.le_mul_of_pos_left _ (by decide)
    rw [hhalf] at hn
    rw [nearestRank_of_shift hd (s := b) (m := 2 * binade) ?_ (.inr ?_) ?_]
    · have hrank : b * binade + 2 * binade = (b + 1 + 1) * binade + 0 := by ring
      rw [hrank]
      exact Nat.min_eq_left (Nat.le_of_lt hr)
    · omega
    · omega
    · have heven : 2 * binade % 2 = 0 := Nat.mul_mod_right 2 binade
      refine divEven_eq ?_ ?_ (fun h => absurd heven h) hP <;> rw [Nat.mul_assoc] <;> omega

/-- The quotients in the interval of a rank round to it. -/
theorem nearestRank_of_within {r n d : Nat} (hd : 0 < d) (hr : r < infinityRank)
    (h : Within r n d) : nearestRank n d = r := by
  rcases rank_cases r with hsmall | ⟨b, f, hf, rfl⟩
  · exact nearestRank_small hd hsmall h
  rcases Nat.lt_or_ge n (binade * (d * 2 ^ b)) with hn | hn
  · obtain rfl : f = 0 := by
      by_contra hf0
      have hlow := h.low
      rw [lowEnd_inner hf (.inl (Nat.pos_of_ne_zero hf0)), scaled] at hlow
      have := Nat.mul_le_mul_right (d * 2 ^ b)
        (show 2 * binade ≤ 2 * (binade + f) - 1 by omega)
      rw [Nat.mul_assoc] at this
      omega
    exact nearestRank_below hd hr h hn
  · exact nearestRank_inner hd hf hr h hn

end Number
end LtiUnit
