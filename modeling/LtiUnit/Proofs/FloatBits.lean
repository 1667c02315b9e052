import LtiUnit.Number.Binary64
import Mathlib.Algebra.Group.Nat.Defs
import Mathlib.Tactic.SplitIfs

/-!
# LtiUnit.Proofs.FloatBits

Doubles by their bits: the fields of a double, its view, and the way back.

* `view_of_isFinite` — a finite double has a sign and a rank below that of infinity.
* `ofRank_of_view` — which are those of no other double.
* `view_of_pos` — a positive one has no sign and a positive rank.
-/

namespace LtiUnit
namespace Number

open Float.Model

/-! ## Fields -/

section Fields

variable (b : BitVec 64)

theorem toNat_exponent : (@UnpackedFloat.unpackExponent .binary64 b).toNat =
    b.toNat / 2 ^ 52 % 2 ^ 11 := by
  simp [UnpackedFloat.unpackExponent, Nat.shiftRight_eq_div_pow]

theorem toNat_mantissa : (@UnpackedFloat.unpackMantissa .binary64 b).toNat =
    b.toNat % 2 ^ 52 := by
  simp [UnpackedFloat.unpackMantissa]

theorem toNat_sign : (@UnpackedFloat.unpackSign .binary64 b).toNat =
    b.toNat / 2 ^ 63 % 2 := by
  change (b.extractLsb 63 63).toNat = _
  simp [Nat.shiftRight_eq_div_pow]

theorem toBitVec_ofBitVec (s : BitVec 1) :
    (UnpackedFloat.Sign.ofBitVec s).toBitVec = s := by
  revert s
  decide

/-- The fields of a double put together again. -/
theorem packComponents_fields :
    UnpackedFloat.packComponents .binary64
      (UnpackedFloat.Sign.ofBitVec (@UnpackedFloat.unpackSign .binary64 b))
      (@UnpackedFloat.unpackExponent .binary64 b) (@UnpackedFloat.unpackMantissa .binary64 b) =
        b := by
  refine BitVec.eq_of_toNat_eq ?_
  have hexponent := toNat_exponent b
  have hmantissa := toNat_mantissa b
  have hsign := toNat_sign b
  have hlt := (@UnpackedFloat.unpackExponent .binary64 b).isLt
  have hlt' := (@UnpackedFloat.unpackMantissa .binary64 b).isLt
  have hbits := b.isLt
  rw [UnpackedFloat.packComponents, toBitVec_ofBitVec, BitVec.toNat_append, BitVec.toNat_append,
    ← Nat.shiftLeft_add_eq_or_of_lt hlt, ← Nat.shiftLeft_add_eq_or_of_lt hlt', hexponent, hmantissa,
    hsign, Nat.shiftLeft_eq, Nat.shiftLeft_eq]
  show (b.toNat / 2 ^ 63 % 2 * 2 ^ 11 + b.toNat / 2 ^ 52 % 2 ^ 11) * 2 ^ 52 + b.toNat % 2 ^ 52 =
    b.toNat
  omega

theorem packComponents_eq {b : BitVec 64} {exponent : BitVec 11} {mantissa : BitVec 52}
    (hexponent : @UnpackedFloat.unpackExponent .binary64 b = exponent)
    (hmantissa : @UnpackedFloat.unpackMantissa .binary64 b = mantissa) :
    UnpackedFloat.packComponents .binary64
      (UnpackedFloat.Sign.ofBitVec (@UnpackedFloat.unpackSign .binary64 b)) exponent mantissa =
        b := by
  subst hexponent hmantissa
  exact packComponents_fields b

end Fields

section Pack

variable {s : UnpackedFloat.Sign} {m : Nat} {e : Int} {h : 0 < m}

/-- A significand of 53 bits keeps its exponent, and its first bit is left out. -/
theorem pack_normal (exponent : Nat) (hm : m.log2 = 52) (he : e = exponent - 1075)
    (hlt : exponent < 2047) : UnpackedFloat.pack .binary64 (.finite s m e h) =
      UnpackedFloat.packComponents .binary64 s (BitVec.ofNat 11 exponent) (BitVec.ofNat 52 m) := by
  have hbiased : (e + 1023 + 52).toNat = exponent := by omega
  have hsmall : ¬2 ^ 11 ≤ exponent + 1 := by omega
  have hbits : m.log2 + 1 = 53 := by omega
  delta UnpackedFloat.pack
  show (if 2 ^ 11 ≤ (e + 1023 + 52).toNat + 1 then _ else if m.log2 + 1 = 53 then
    UnpackedFloat.packComponents .binary64 s (BitVec.ofNat 11 (e + 1023 + 52).toNat) _ else _) = _
  rw [hbiased, if_neg hsmall, if_pos hbits]

theorem pack_subnormal (hm : m < 2 ^ 52) (he : e = -1074) :
    UnpackedFloat.pack .binary64 (.finite s m e h) =
      UnpackedFloat.packComponents .binary64 s 0#11 (BitVec.ofNat 52 m) := by
  have hsmall : ¬2 ^ 11 ≤ (e + 1023 + 52).toNat + 1 := by omega
  have hbits : ¬m.log2 + 1 = 53 := by
    have := (Nat.log2_lt (Nat.ne_of_gt h)).2 hm
    omega
  delta UnpackedFloat.pack
  show (if 2 ^ 11 ≤ (e + 1023 + 52).toNat + 1 then _ else if m.log2 + 1 = 53 then _ else
    UnpackedFloat.packComponents .binary64 s 0#11 _) = _
  rw [if_neg hsmall, if_neg hbits]

/-- Bits that stand for a finite double are read and written without change. -/
theorem pack_unpack {b : BitVec 64}
    (hfinite : @UnpackedFloat.unpackExponent .binary64 b ≠ -1#11) :
    UnpackedFloat.pack .binary64 (UnpackedFloat.unpack .binary64 b) = b := by
  have hmantissa : (@UnpackedFloat.unpackMantissa .binary64 b).toNat < 2 ^ 52 := BitVec.isLt _
  delta UnpackedFloat.unpack
  dsimp only
  rw [if_neg hfinite]
  by_cases hsmall : @UnpackedFloat.unpackExponent .binary64 b = 0#11
  · rw [if_pos hsmall]
    by_cases hzero : @UnpackedFloat.unpackMantissa .binary64 b = 0#52
    · rw [dif_pos hzero]
      exact packComponents_eq hsmall hzero
    · rw [dif_neg hzero, pack_subnormal hmantissa (by rw [hsmall]; rfl)]
      exact packComponents_eq hsmall (BitVec.eq_of_toNat_eq (by simp))
  · have hexponent : (@UnpackedFloat.unpackExponent .binary64 b).toNat < 2 ^ 11 := BitVec.isLt _
    have hbelow : (@UnpackedFloat.unpackExponent .binary64 b).toNat ≠ 2047 := fun heq =>
      hfinite (BitVec.eq_of_toNat_eq heq)
    have happend : (1#1 ++ @UnpackedFloat.unpackMantissa .binary64 b).toNat =
        2 ^ 52 + (@UnpackedFloat.unpackMantissa .binary64 b).toNat := by
      rw [BitVec.toNat_append, ← Nat.shiftLeft_add_eq_or_of_lt hmantissa]
      rfl
    have hlog : (1#1 ++ @UnpackedFloat.unpackMantissa .binary64 b).toNat.log2 = 52 := by
      rw [Nat.log2_eq_iff (by omega)]
      omega
    rw [if_neg hsmall]
    refine (pack_normal _ hlog rfl (by omega)).trans
      (packComponents_eq (BitVec.eq_of_toNat_eq (by simp)) (BitVec.eq_of_toNat_eq ?_))
    rw [BitVec.toNat_ofNat, happend]
    show _ = (2 ^ 52 + _) % 2 ^ 52
    omega

end Pack

/-! ## Views -/

/-- The sign and the rank of the bits of a finite double. -/
theorem viewBits_of_isFinite {b : BitVec 64}
    (h : (UnpackedFloat.unpack .binary64 b).isFinite = true) :
    @UnpackedFloat.unpackExponent .binary64 b ≠ -1#11 ∧
      ∃ negative, viewBits b.toNat = .finite negative (b.toNat % 2 ^ 63) ∧
        b.toNat = if negative then 2 ^ 63 + b.toNat % 2 ^ 63 else b.toNat % 2 ^ 63 := by
  have hfinite : @UnpackedFloat.unpackExponent .binary64 b ≠ -1#11 := by
    intro heq
    delta UnpackedFloat.unpack at h
    dsimp only at h
    rw [if_pos heq] at h
    split at h <;> cases h
  have hexponent := toNat_exponent b
  have hbelow : (@UnpackedFloat.unpackExponent .binary64 b).toNat ≠ 2047 := fun heq =>
    hfinite (BitVec.eq_of_toNat_eq heq)
  have hbits := b.isLt
  have hinfinity : infinityRank = 2047 * 2 ^ 52 := rfl
  have hhalf : Nat.pow 2 63 = 2 ^ 63 := rfl
  refine ⟨hfinite, decide (2 ^ 63 ≤ b.toNat), ?_, ?_⟩
  · unfold viewBits
    dsimp only
    rw [hhalf, hinfinity, if_pos (by omega)]
  · by_cases hsign : 2 ^ 63 ≤ b.toNat
    · rw [decide_eq_true hsign, if_pos rfl]
      omega
    · rw [decide_eq_false hsign, if_neg Bool.false_ne_true]
      omega

theorem view_of_isFinite {x : Float} (h : x.isFinite = true) :
    ∃ negative r, view x = .finite negative r := by
  obtain ⟨-, negative, hview, -⟩ := viewBits_of_isFinite h
  exact ⟨negative, _, hview⟩

theorem ofBits_toBits {x : Float}
    (h : @UnpackedFloat.unpackExponent .binary64 x.toBits.toBitVec ≠ -1#11) :
    Float.ofBits x.toBits = x := by
  obtain ⟨⟨bits, hvalid⟩⟩ := x
  have hpack : UnpackedFloat.pack .binary64 (UnpackedFloat.unpack .binary64 bits.toBitVec) =
      bits.toBitVec := pack_unpack h
  have heq : ∀ {b : UInt64} (hb), b = bits → (⟨⟨b, hb⟩⟩ : Float) = ⟨⟨bits, hvalid⟩⟩ := by
    rintro _ _ rfl
    rfl
  exact heq _ (congrArg UInt64.ofBitVec hpack)

/-- A finite double is known by its sign and its rank. -/
theorem ofRank_of_view {x : Float} (hfinite : x.isFinite = true) {negative : Bool} {r : Nat}
    (h : view x = .finite negative r) : ofRank negative r = x := by
  obtain ⟨hexponent, negative', hview, hbits⟩ := viewBits_of_isFinite hfinite
  cases hview.symm.trans h
  have hback : UInt64.ofNat (if negative then 2 ^ 63 + x.toBits.toNat % 2 ^ 63
      else x.toBits.toNat % 2 ^ 63) = x.toBits :=
    (congrArg UInt64.ofNat hbits.symm).trans UInt64.ofNat_toNat
  exact (congrArg Float.ofBits hback).trans (ofBits_toBits hexponent)

/-! ## Positive doubles -/

theorem unpack_zero : (0 : Float).toModel.unpack = .zero .positive := rfl

theorem unpack_of_pos {x : Float} (hfinite : x.isFinite = true) (hpos : 0 < x) :
    ∃ m e h, x.toModel.unpack = .finite .positive m e h := by
  have hlt : (0 : Float).toModel.unpack.lt x.toModel.unpack = true := of_decide_eq_true hpos
  have hfin : x.toModel.unpack.isFinite = true := hfinite
  rw [unpack_zero] at hlt
  cases hx : x.toModel.unpack with
  | infinity s =>
    rw [hx] at hfin
    cases hfin
  | notANumber =>
    rw [hx] at hfin
    cases hfin
  | zero s =>
    rw [hx] at hlt
    cases hlt
  | finite s m e h =>
    cases s with
    | positive => exact ⟨m, e, h, rfl⟩
    | negative =>
      rw [hx] at hlt
      cases hlt

theorem viewBits_of_unpack {b : BitVec 64} {m : Nat} {e : Int} {h : 0 < m}
    (hb : UnpackedFloat.unpack .binary64 b = .finite .positive m e h) :
    ∃ r, 0 < r ∧ viewBits b.toNat = .finite false r := by
  have hexponent := toNat_exponent b
  have hmantissa := toNat_mantissa b
  have hsign := toNat_sign b
  have hbits := b.isLt
  have hfields : UnpackedFloat.Sign.ofBitVec (@UnpackedFloat.unpackSign .binary64 b) =
        .positive ∧
      @UnpackedFloat.unpackExponent .binary64 b ≠ -1#11 ∧
      ¬(@UnpackedFloat.unpackExponent .binary64 b = 0#11 ∧
        @UnpackedFloat.unpackMantissa .binary64 b = 0#52) := by
    delta UnpackedFloat.unpack at hb
    dsimp only at hb
    by_cases hlast : @UnpackedFloat.unpackExponent .binary64 b = -1#11
    · rw [if_pos hlast] at hb
      by_cases hempty : @UnpackedFloat.unpackMantissa .binary64 b = 0#52
      · rw [if_pos hempty] at hb
        cases hb
      · rw [if_neg hempty] at hb
        cases hb
    · rw [if_neg hlast] at hb
      by_cases hfirst : @UnpackedFloat.unpackExponent .binary64 b = 0#11
      · rw [if_pos hfirst] at hb
        by_cases hempty : @UnpackedFloat.unpackMantissa .binary64 b = 0#52
        · rw [dif_pos hempty] at hb
          cases hb
        · rw [dif_neg hempty] at hb
          injection hb with hsign
          exact ⟨hsign, hlast, fun hzero => hempty hzero.2⟩
      · rw [if_neg hfirst] at hb
        injection hb with hsign
        exact ⟨hsign, hlast, fun hzero => hfirst hzero.1⟩
  obtain ⟨hpositive, hfinite, hzero⟩ := hfields
  generalize @UnpackedFloat.unpackExponent .binary64 b = exponent at hexponent hfinite hzero
  generalize @UnpackedFloat.unpackMantissa .binary64 b = mantissa at hmantissa hzero
  generalize @UnpackedFloat.unpackSign .binary64 b = sign at hsign hpositive
  have hnotNegative : sign.toNat = 0 := by
    unfold UnpackedFloat.Sign.ofBitVec at hpositive
    split_ifs at hpositive with hsign
    rw [hsign]
    rfl
  have hbelow : exponent.toNat ≠ 2047 := fun heq => hfinite (BitVec.eq_of_toNat_eq heq)
  have hpos : ¬(exponent.toNat = 0 ∧ mantissa.toNat = 0) := fun heq =>
    hzero ⟨BitVec.eq_of_toNat_eq heq.1, BitVec.eq_of_toNat_eq heq.2⟩
  have hinfinity : infinityRank = 2047 * 2 ^ 52 := rfl
  have hhalf : Nat.pow 2 63 = 2 ^ 63 := rfl
  refine ⟨b.toNat, by omega, ?_⟩
  unfold viewBits
  dsimp only
  rw [hhalf, hinfinity, Nat.mod_eq_of_lt (by omega), if_pos (by omega),
    decide_eq_false (by omega)]

/-- A positive double has a positive rank and no sign. -/
theorem view_of_pos {x : Float} (hfinite : x.isFinite = true) (hpos : 0 < x) :
    ∃ r, 0 < r ∧ view x = .finite false r := by
  obtain ⟨m, e, h, hx⟩ := unpack_of_pos hfinite hpos
  exact viewBits_of_unpack hx

end Number
end LtiUnit
