import LtiUnit.Proofs.SpelledNumber
import Mathlib.Tactic.FieldSimp
import Mathlib.Tactic.NormNum

/-!
# LtiUnit.Proofs.NearestDecimal

Reading a decimal number gives the magnitude nearest to it, for every decimal number. Distances are
measured on rational numbers, to every magnitude up to the one that infinity stands for, and of two
nearest magnitudes it is the one of even rank that is read.

* `within_unbounded` — rounding ends in the interval of the rank that it gives.
* `nearer_of_within` — in that interval no other magnitude is nearer.
* `Decimal.nearest_rank` — so the rank of a decimal number is the nearest one.
* `Nearest.unique` — and there is only one such rank.
-/

namespace LtiUnit
namespace Number

/-- The magnitude of rank `r` is the nearest to `q`; of two nearest it is the one of even rank. The
rank of infinity takes part with the value that the next binade would start with. -/
structure Nearest (q : ℚ) (r : Nat) : Prop where
  bounded : r ≤ infinityRank
  nearest : ∀ s ≤ infinityRank, s ≠ r → |q - magnitude r| < |q - magnitude s| ∨
    |q - magnitude r| = |q - magnitude s| ∧ r % 2 = 0

/-- The decimal number without its sign. -/
def Decimal.value (d : Decimal) : ℚ := d.digits * 10 ^ d.exponent

/-! ## Magnitudes in order -/

theorem unitsOf_lt_next (r : Nat) : unitsOf r < unitsOf (r + 1) := by
  have hbetween := (unitsOf_between (Nat.succ_pos r)).1
  rw [lowEnd, Nat.succ_eq_add_one, Nat.add_sub_cancel] at hbetween
  omega

theorem unitsOf_strictMono : StrictMono unitsOf := strictMono_nat_of_lt_succ unitsOf_lt_next

theorem unit_pos : 0 < unit := by
  have hpower : ∀ k, 0 < Nat.pow 2 k := Nat.two_pow_pos
  exact Nat.lt_of_lt_of_eq (hpower _) unit_eq.symm

theorem magnitude_strictMono : StrictMono magnitude := fun _ _ h =>
  div_lt_div_of_pos_right (Nat.cast_lt.2 (unitsOf_strictMono h)) (Nat.cast_pos.2 unit_pos)

/-! ## Rounding -/

/-- Whether `n / D` lies at most half from `m`, and less if `m` is odd. -/
structure Half (m n D : Nat) : Prop where
  low : 2 * (m * D) ≤ 2 * n + D
  high : 2 * n ≤ 2 * (m * D) + D
  inside : m % 2 ≠ 0 → 2 * (m * D) < 2 * n + D ∧ 2 * n < 2 * (m * D) + D

theorem half_divEven {n D : Nat} (hD : 0 < D) : Half (divEven n D) n D := by
  have hn : n = n / D * D + n % D := (Nat.div_add_mod' n D).symm
  have hrest : n % D < D := Nat.mod_lt n hD
  unfold divEven
  dsimp only
  generalize n / D = q at hn ⊢
  generalize n % D = s at hn hrest ⊢
  have hnext : (q + 1) * D = q * D + D := Nat.succ_mul q D
  split_ifs with hdown hup
  · exact ⟨by omega, by omega, by omega⟩
  · exact ⟨by rw [hnext]; omega, by rw [hnext]; omega, by rw [hnext]; omega⟩
  · rcases Nat.mod_two_eq_zero_or_one q with heven | hodd
    · rw [heven, Nat.add_zero]
      exact ⟨by omega, by omega, by omega⟩
    · rw [hodd]
      exact ⟨by rw [hnext]; omega, by rw [hnext]; omega, by omega⟩

/-- The rank that a quotient rounds to if there were no infinity. -/
def unboundedRank (n d : Nat) : Nat :=
  let shift := (n / d).log2 - 52
  shift * binade + divEven n (d * Nat.pow 2 shift)

theorem nearestRank_eq (n d : Nat) : nearestRank n d = min (unboundedRank n d) infinityRank := rfl

section Places

variable {n d b m : Nat}

theorem within_small (hm : m < binade) (h : Half m n d) : Within m n d := by
  obtain ⟨hlow, hhigh⟩ := ends_small hm
  have hl : lowEnd m * d = 2 * (m * d) - d := by
    rw [hlow, Nat.sub_mul, Nat.mul_assoc, Nat.one_mul]
  have hh : highEnd m * d = 2 * (m * d) + d := by
    rw [hhigh, Nat.add_mul, Nat.mul_assoc, Nat.one_mul]
  have hlow' := h.low
  have hhigh' := h.high
  refine ⟨by omega, by omega, fun hodd => ?_⟩
  have hinside := h.inside hodd
  have hroom : d ≤ m * d := Nat.le_mul_of_pos_left d (by omega)
  omega

/-- The place of a rank in its binade is even exactly if the rank is. -/
theorem place_mod_two (b m : Nat) : (b * binade + m) % 2 = m % 2 := by
  rw [show binade = 2 * 2 ^ 51 from rfl]
  omega

theorem within_inner (hlow : binade ≤ m) (hhigh : m < 2 * binade) (hfirst : binade < m ∨ b = 0)
    (h : Half m n (d * 2 ^ b)) : Within (b * binade + m) n d := by
  obtain ⟨f, rfl⟩ := Nat.exists_eq_add_of_le hlow
  have hrank : b * binade + (binade + f) = (b + 1) * binade + f := by ring
  have hl : lowEnd (b * binade + (binade + f)) * d =
      2 * ((binade + f) * (d * 2 ^ b)) - d * 2 ^ b := by
    rw [hrank, lowEnd_inner (by omega) (by omega), scaled, Nat.sub_mul, Nat.mul_assoc, Nat.one_mul]
  have hh : highEnd (b * binade + (binade + f)) * d =
      2 * ((binade + f) * (d * 2 ^ b)) + d * 2 ^ b := by
    rw [hrank, highEnd_eq (by omega), scaled, Nat.add_mul, Nat.mul_assoc, Nat.one_mul]
  have hhalf := h.low
  have hhalf' := h.high
  refine ⟨by omega, by omega, fun hodd => ?_⟩
  rw [place_mod_two] at hodd
  have hinside := h.inside hodd
  have hroom : d * 2 ^ b ≤ (binade + f) * (d * 2 ^ b) :=
    Nat.le_mul_of_pos_left _ (Nat.add_pos_left (by decide) f)
  omega

/-- A quotient that rounds to the first rank of a binade, from within the binade. -/
theorem within_first (h : Half binade n (d * 2 ^ (b + 1)))
    (hn : binade * (d * 2 ^ (b + 1)) ≤ n) : Within ((b + 1) * binade + binade) n d := by
  have hrank : (b + 1) * binade + binade = (b + 1 + 1) * binade + 0 := by ring
  have hdouble : d * 2 ^ (b + 1) = 2 * (d * 2 ^ b) := by ring
  have hl : lowEnd ((b + 1) * binade + binade) * d =
      4 * (binade * (d * 2 ^ b)) - d * 2 ^ b := by
    rw [hrank, lowEnd_first, scaled, Nat.sub_mul, Nat.mul_assoc, Nat.one_mul]
  have hh : highEnd ((b + 1) * binade + binade) * d =
      2 * (binade * (d * 2 ^ (b + 1))) + d * 2 ^ (b + 1) := by
    rw [hrank, highEnd_eq (by decide), scaled, Nat.add_mul, Nat.mul_assoc, Nat.one_mul,
      Nat.add_zero]
  have hhigh := h.high
  have hquarter : binade * (d * 2 ^ (b + 1)) = 2 * (binade * (d * 2 ^ b)) := by rw [hdouble]; ring
  refine ⟨by omega, by omega, fun hodd => ?_⟩
  rw [place_mod_two] at hodd
  exact absurd binade_even hodd

/-- A quotient that rounds up to the first rank of the next binade. -/
theorem within_last (h : Half (2 * binade) n (d * 2 ^ b)) :
    Within (b * binade + 2 * binade) n d := by
  have hrank : b * binade + 2 * binade = (b + 1 + 1) * binade + 0 := by ring
  have hl : lowEnd (b * binade + 2 * binade) * d =
      4 * (binade * (d * 2 ^ b)) - d * 2 ^ b := by
    rw [hrank, lowEnd_first, scaled, Nat.sub_mul, Nat.mul_assoc, Nat.one_mul]
  have hh : highEnd (b * binade + 2 * binade) * d =
      4 * (binade * (d * 2 ^ b)) + 2 * (d * 2 ^ b) := by
    rw [hrank, highEnd_eq (by decide), scaled]
    ring
  have hlow := h.low
  have hhigh := h.high
  rw [Nat.mul_assoc] at hlow hhigh
  refine ⟨by omega, by omega, fun hodd => ?_⟩
  rw [place_mod_two, Nat.mul_mod_right] at hodd
  exact absurd rfl hodd

end Places

/-- Rounding ends in the interval of the rank that it gives. -/
theorem within_unbounded {n d : Nat} (hd : 0 < d) : Within (unboundedRank n d) n d := by
  generalize hshift : (n / d).log2 - 52 = b
  have hD : 0 < d * 2 ^ b := Nat.mul_pos hd (Nat.two_pow_pos b)
  have hhalf : Half (divEven n (d * 2 ^ b)) n (d * 2 ^ b) := half_divEven hD
  have hrank : unboundedRank n d = b * binade + divEven n (d * 2 ^ b) := by
    rw [unboundedRank, hshift]
    rfl
  rw [hrank]
  generalize divEven n (d * 2 ^ b) = m at hhalf ⊢
  have hlow := hhalf.low
  have hhigh := hhalf.high
  have htop : n < 2 * (binade * (d * 2 ^ b)) := by
    have hlog : n / d < 2 ^ (53 + b) := by
      refine Nat.lt_of_lt_of_le Nat.lt_log2_self (Nat.pow_le_pow_right (by decide) ?_)
      omega
    have hlt := (Nat.div_lt_iff_lt_mul hd).1 hlog
    have hdouble : 2 * (binade * (d * 2 ^ b)) = 2 ^ (53 + b) * d := by
      rw [binade_eq]
      ring
    omega
  have hm : m ≤ 2 * binade := by
    by_contra hlarge
    have := Nat.mul_le_mul_right (d * 2 ^ b) (show 2 * binade + 1 ≤ m by omega)
    rw [Nat.add_mul, Nat.mul_assoc, Nat.one_mul] at this
    omega
  cases b with
  | zero =>
    rw [Nat.pow_zero, Nat.mul_one] at hhalf
    rcases Nat.lt_or_ge m binade with hsmall | hlarge
    · rw [Nat.zero_mul, Nat.zero_add]
      exact within_small hsmall hhalf
    · rcases Nat.lt_or_eq_of_le hm with hinner | rfl
      · exact within_inner hlarge hinner (.inr rfl) (by rwa [Nat.pow_zero, Nat.mul_one])
      · exact within_last (by rwa [Nat.pow_zero, Nat.mul_one])
  | succ b =>
    have hbottom : binade * (d * 2 ^ (b + 1)) ≤ n := by
      have hne : n / d ≠ 0 := by
        intro hzero
        rw [hzero] at hshift
        cases hshift
      have hlog : 2 ^ (52 + (b + 1)) ≤ n / d := by
        rw [show 52 + (b + 1) = (n / d).log2 by omega]
        exact Nat.log2_self_le hne
      have hle := (Nat.le_div_iff_mul_le hd).1 hlog
      have hbinade : binade * (d * 2 ^ (b + 1)) = 2 ^ (52 + (b + 1)) * d := by
        rw [binade_eq]
        ring
      omega
    have hplace : binade ≤ m := by
      by_contra hsmall
      have := Nat.mul_le_mul_right (d * 2 ^ (b + 1)) (show m + 1 ≤ binade by omega)
      rw [Nat.add_mul, Nat.one_mul] at this
      omega
    rcases Nat.lt_or_eq_of_le hplace with hinner | rfl
    · rcases Nat.lt_or_eq_of_le hm with hbelow | rfl
      · exact within_inner hplace hbelow (.inl hinner) hhalf
      · exact within_last hhalf
    · exact within_first hhalf hbottom

/-! ## Distances -/

section Distances

variable {r n d s : Nat} {q : ℚ}

/-- The interval of a rank on the rational numbers: twice a number in it lies between the sums of
the magnitude and its two neighbours. -/
theorem sums_of_within (hd : 0 < d) (h : Within r n d) :
    (magnitude (r - 1) + magnitude r ≤ 2 * (n / d / unit) ∧
        2 * (n / d / unit) ≤ magnitude r + magnitude (r + 1)) ∧
      (r % 2 ≠ 0 → magnitude (r - 1) + magnitude r < 2 * (n / d / unit) ∧
        2 * (n / d / unit) < magnitude r + magnitude (r + 1)) := by
  have hunit : (0 : ℚ) < unit := Nat.cast_pos.2 unit_pos
  have hdpos : (0 : ℚ) < d := Nat.cast_pos.2 hd
  have hlow : magnitude (r - 1) + magnitude r = lowEnd r / unit := by
    rw [magnitude, magnitude, ← add_div, lowEnd, Nat.cast_add]
  have hhigh : magnitude r + magnitude (r + 1) = highEnd r / unit := by
    rw [magnitude, magnitude, ← add_div, highEnd, Nat.cast_add]
  have htwice : 2 * ((n : ℚ) / d / unit) = 2 * n / d / unit := by ring
  rw [hlow, hhigh, htwice]
  generalize (unit : ℚ) = u at hunit
  simp only [div_le_div_iff_of_pos_right hunit, div_lt_div_iff_of_pos_right hunit,
    le_div_iff₀ hdpos, div_le_iff₀ hdpos, lt_div_iff₀ hdpos, div_lt_iff₀ hdpos]
  norm_cast
  exact ⟨⟨h.low, h.high⟩, h.inside⟩

/-- In the interval of a rank no other magnitude is nearer. -/
theorem nearer_of_within (hd : 0 < d) (hq : q = n / d / unit) (h : Within r n d) (hs : s ≠ r) :
    |q - magnitude r| < |q - magnitude s| ∨
      |q - magnitude r| = |q - magnitude s| ∧ r % 2 = 0 := by
  obtain ⟨⟨hlow, hhigh⟩, hinside⟩ := sums_of_within hd h
  rw [← hq] at hlow hhigh hinside
  have hboth : |q - magnitude r| ≤ |q - magnitude s| ∧
      (r % 2 ≠ 0 → |q - magnitude r| < |q - magnitude s|) := by
    rcases Nat.lt_or_gt_of_ne hs with hbelow | habove
    · have hle : magnitude s ≤ magnitude (r - 1) := magnitude_strictMono.monotone (by omega)
      have hlt : magnitude s < magnitude r := magnitude_strictMono hbelow
      have habs : q - magnitude s ≤ |q - magnitude s| := le_abs_self _
      refine ⟨abs_le.2 ⟨by linarith, by linarith⟩, fun hodd => abs_lt.2 ⟨?_, by linarith⟩⟩
      linarith [(hinside hodd).1]
    · have hle : magnitude (r + 1) ≤ magnitude s := magnitude_strictMono.monotone habove
      have hlt : magnitude r < magnitude s := magnitude_strictMono habove
      have habs : -(q - magnitude s) ≤ |q - magnitude s| := neg_le_abs _
      refine ⟨abs_le.2 ⟨by linarith, by linarith⟩, fun hodd => abs_lt.2 ⟨by linarith, ?_⟩⟩
      linarith [(hinside hodd).2]
  rcases Nat.eq_zero_or_pos (r % 2) with heven | hodd
  · exact (lt_or_eq_of_le hboth.1).imp_right fun heq => ⟨heq, heven⟩
  · exact .inl (hboth.2 hodd.ne')

/-- A quotient from infinity on is nearest to infinity. -/
theorem nearer_infinity (hq : magnitude infinityRank ≤ q) (hs : s < infinityRank) :
    |q - magnitude infinityRank| < |q - magnitude s| := by
  have hlt := magnitude_strictMono hs
  have habs : q - magnitude s ≤ |q - magnitude s| := le_abs_self _
  rw [abs_of_nonneg (sub_nonneg.2 hq)]
  linarith

/-- The rank that a quotient of units rounds to is the nearest one. -/
theorem nearest_nearestRank (hd : 0 < d) (hq : q = n / d / unit) : Nearest q (nearestRank n d) := by
  have hwithin := within_unbounded (n := n) hd
  rw [nearestRank_eq]
  rcases Nat.le_total (unboundedRank n d) infinityRank with hle | hge
  · rw [Nat.min_eq_left hle]
    exact ⟨hle, fun s _ hs => nearer_of_within hd hq hwithin hs⟩
  · rw [Nat.min_eq_right hge]
    refine ⟨Nat.le_refl _, fun s hs hne => ?_⟩
    rcases Nat.lt_or_eq_of_le hge with hgt | heq
    · refine .inl (nearer_infinity ?_ (Nat.lt_of_le_of_ne hs hne))
      have hlow := (sums_of_within hd hwithin).1.1
      have hle : magnitude infinityRank ≤ magnitude (unboundedRank n d - 1) :=
        magnitude_strictMono.monotone (by omega)
      have hlt := magnitude_strictMono hgt
      rw [hq]
      linarith
    · rw [heq] at hne ⊢
      exact nearer_of_within hd hq hwithin hne

/-- Only one magnitude is the nearest. -/
theorem Nearest.unique {r r' : Nat} (h : Nearest q r) (h' : Nearest q r') : r = r' := by
  wlog hlt : r < r' generalizing r r'
  · rcases Nat.lt_or_eq_of_le (Nat.le_of_not_lt hlt) with hgt | heq
    · exact (this h' h hgt).symm
    · exact heq.symm
  exfalso
  have hbound := h'.bounded
  -- if both are nearest they are equally near and even, and there is one in between
  rcases h.nearest r' hbound (Nat.ne_of_gt hlt) with hnear | ⟨heq, heven⟩
  · rcases h'.nearest r h.bounded (Nat.ne_of_lt hlt) with hnear' | ⟨heq', -⟩
    · exact lt_asymm hnear hnear'
    · exact hnear.ne' heq'
  · rcases h'.nearest r h.bounded (Nat.ne_of_lt hlt) with hnear' | ⟨-, heven'⟩
    · exact hnear'.ne' heq
    have hbelow := magnitude_strictMono (Nat.lt_succ_self r)
    have habove := magnitude_strictMono (show r + 1 < r' by omega)
    have hmiddle : |q - magnitude (r + 1)| < |q - magnitude r| := by
      rcases abs_eq_abs.1 heq with hsame | hopposite
      · exact absurd (sub_right_inj.1 hsame) (magnitude_strictMono hlt).ne
      · have hr : 0 ≤ q - magnitude r := by linarith
        rw [abs_of_nonneg hr, abs_lt]
        constructor <;> linarith
    rcases h.nearest (r + 1) (by omega) (by omega) with hnear | ⟨hsame, -⟩
    · exact lt_asymm hnear hmiddle
    · exact hmiddle.ne' hsame

end Distances

/-! ## Decimal numbers -/

theorem cast_pow_ten (k : Nat) : ((Nat.pow 10 k : Nat) : ℚ) = 10 ^ k := Nat.cast_pow 10 k

theorem value_eq (d : Decimal) : d.value =
    ((unitsIn d.digits d.exponent).1 : ℚ) / (unitsIn d.digits d.exponent).2 / unit := by
  have hunit : (unit : ℚ) ≠ 0 := (Nat.cast_pos.2 unit_pos).ne'
  rw [Decimal.value]
  rcases power_cases d.exponent with ⟨k, hk⟩ | ⟨k, hpos, hk⟩
  · rw [hk, unitsIn_of_nonneg, zpow_natCast]
    push_cast [cast_pow_ten k]
    field_simp
  · rw [hk, unitsIn_of_neg _ hpos, zpow_neg, zpow_natCast]
    push_cast [cast_pow_ten k]
    field_simp

theorem magnitude_zero : magnitude 0 = 0 := by
  rw [magnitude, unitsOf_small (Nat.zero_le _), Nat.cast_zero, zero_div]

/-- The value that stands for infinity is below the power of ten from which on numbers are infinite
by their digits alone. -/
theorem magnitude_infinityRank_lt : magnitude infinityRank < 10 ^ farDigits := by
  have hunits : unitsOf infinityRank ≤ 2 * binade * Nat.pow 2 lastShift := by decide +kernel
  have hfar := highest_lt
  have hlt : unitsOf infinityRank < Nat.pow 10 farDigits * unit := by
    rw [Nat.mul_assoc] at hunits hfar
    omega
  rw [magnitude, div_lt_iff₀ (Nat.cast_pos.2 unit_pos), ← cast_pow_ten, ← Nat.cast_mul]
  exact Nat.cast_lt.2 hlt

/-- The least magnitude is above twice the power of ten below which numbers are zero by their digits
alone. -/
theorem lt_magnitude_one : 2 * (10 : ℚ) ^ (-(farDigits : ℤ) - 1) < magnitude 1 := by
  have hone : magnitude 1 = 1 / unit := by
    rw [magnitude, unitsOf_small (by decide), Nat.cast_one]
  have htwice (n : Nat) : (2 * n : ℚ) = ((2 * n : Nat) : ℚ) := by push_cast; rfl
  have hlow : (2 * unit : ℚ) < 10 ^ (farDigits + 1) := by
    rw [htwice, ← cast_pow_ten]
    exact Nat.cast_lt.2 lowest_lt
  have hexponent : -(farDigits : ℤ) - 1 = -((farDigits + 1 : Nat) : ℤ) := by omega
  have hunit : (0 : ℚ) < unit := Nat.cast_pos.2 unit_pos
  rw [hone, hexponent, zpow_neg, zpow_natCast]
  generalize farDigits + 1 = k at hlow ⊢
  rw [← div_eq_mul_inv, div_lt_div_iff₀ (pow_pos (by norm_num) k) hunit, one_mul]
  exact hlow

/-- The first digit of a number says how large it is. -/
theorem value_bounds (d : Decimal) (h : d.digits ≠ 0) :
    (10 : ℚ) ^ (d.exponent + (Nat.toDigits 10 d.digits).length - 1) ≤ d.value ∧
      d.value < 10 ^ (d.exponent + (Nat.toDigits 10 d.digits).length) := by
  have hpos : 0 < (Nat.toDigits 10 d.digits).length := Nat.length_toDigits_pos
  have hleast := pow_le_of_length (Nat.pos_of_ne_zero h)
  have hmost := lt_pow_length d.digits
  generalize (Nat.toDigits 10 d.digits).length = k at hpos hleast hmost ⊢
  have hten : (10 : ℚ) ≠ 0 := by norm_num
  have hpower : (0 : ℚ) < 10 ^ d.exponent := zpow_pos (by norm_num) _
  have hlow : d.exponent + k - 1 = ((k - 1 : Nat) : ℤ) + d.exponent := by omega
  have hhigh : d.exponent + k = (k : ℤ) + d.exponent := by omega
  rw [hlow, hhigh, zpow_add₀ hten, zpow_add₀ hten, zpow_natCast, zpow_natCast, Decimal.value,
    mul_le_mul_iff_left₀ hpower, mul_lt_mul_iff_left₀ hpower]
  exact_mod_cast And.intro hleast hmost

/-- The rank that is read for a decimal number is the nearest one. -/
theorem Decimal.nearest_rank (d : Decimal) : Nearest d.value d.rank := by
  have hfar : farDigits = 400 := rfl
  by_cases hzero : d.digits = 0
  · rw [Decimal.rank, if_pos hzero, Decimal.value, hzero, Nat.cast_zero, zero_mul, ← magnitude_zero]
    refine ⟨Nat.zero_le _, fun s _ hs => .inl ?_⟩
    rw [sub_self, abs_zero, abs_pos, sub_ne_zero]
    exact (magnitude_strictMono (Nat.pos_of_ne_zero hs)).ne
  obtain ⟨hleast, hmost⟩ := value_bounds d hzero
  have hrank : d.rank =
      if 400 < d.exponent + (Nat.toDigits 10 d.digits).length then infinityRank
      else if d.exponent + (Nat.toDigits 10 d.digits).length < -400 then 0
      else nearestRank (unitsIn d.digits d.exponent).1 (unitsIn d.digits d.exponent).2 := by
    rw [Decimal.rank, if_neg hzero, unitsIn]
    dsimp only
    split_ifs <;> rfl
  rw [hrank]
  split_ifs with hhuge htiny
  · refine ⟨Nat.le_refl _, fun s hs hne => .inl (nearer_infinity ?_ (Nat.lt_of_le_of_ne hs hne))⟩
    refine magnitude_infinityRank_lt.le.trans (le_trans ?_ hleast)
    rw [← zpow_natCast]
    exact zpow_le_zpow_right₀ (by norm_num) (by omega)
  · -- the value is less than half of the least magnitude
    have hpos : 0 ≤ d.value := mul_nonneg (Nat.cast_nonneg _) (zpow_nonneg (by norm_num) _)
    have hsmall : 2 * d.value < magnitude 1 := by
      have hpower : (10 : ℚ) ^ (d.exponent + (Nat.toDigits 10 d.digits).length) ≤
          10 ^ (-(farDigits : ℤ) - 1) := zpow_le_zpow_right₀ (by norm_num) (by omega)
      linarith [lt_magnitude_one]
    refine ⟨Nat.zero_le _, fun s _ hs => .inl ?_⟩
    have hle : magnitude 1 ≤ magnitude s := magnitude_strictMono.monotone (Nat.pos_of_ne_zero hs)
    have habs : -(d.value - magnitude s) ≤ |d.value - magnitude s| := neg_le_abs _
    rw [magnitude_zero, sub_zero, abs_of_nonneg hpos]
    linarith
  · exact nearest_nearestRank (unitsIn_pos _ _) (value_eq d)

end Number
end LtiUnit
