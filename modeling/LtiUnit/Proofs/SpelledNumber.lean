import LtiUnit.Number.Digits
import LtiUnit.Number.Numeral
import LtiUnit.Number.Spelling
import LtiUnit.Proofs.FloatBits
import LtiUnit.Proofs.PlainText
import LtiUnit.Proofs.ShortestDecimal
import Mathlib.Data.Rat.Lemmas

/-!
# LtiUnit.Proofs.SpelledNumber

The constants in the text of a unit stand for the doubles they were written for, exactly.

* `rank_writeMagnitude` — the text of a magnitude is a numeral that rounds to its rank.
* `spelledValue_literal` — the text of a double has the double for its value.
-/

namespace LtiUnit
namespace Number

/-! ## Reading numerals -/

section Numeral

variable {whole fraction power : List Char} {e : Int}

theorem ofChars?_positional (hwhole : ∀ c ∈ whole, c.isDigit = true) (hne : whole ≠ [])
    (hfraction : ∀ c ∈ fraction, c.isDigit = true) :
    Numeral.ofChars? (whole ++ '.' :: fraction) = some ⟨whole, fraction, 0⟩ := by
  obtain ⟨htake, hdrop⟩ := Text.takeWhile_run ('.' :: fraction) hwhole (by simp)
  have hrest := Text.takeWhile_run [] hfraction (by simp)
  rw [List.append_nil] at hrest
  unfold Numeral.ofChars?
  simp [htake, hdrop, hrest.1, hrest.2, hne]

theorem ofChars?_scientific (hwhole : ∀ c ∈ whole, c.isDigit = true) (hne : whole ≠ [])
    (hfraction : ∀ c ∈ fraction, c.isDigit = true) (hpower : exponent? power = some e) :
    Numeral.ofChars? (whole ++ '.' :: (fraction ++ 'e' :: power)) = some ⟨whole, fraction, e⟩ := by
  obtain ⟨htake, hdrop⟩ := Text.takeWhile_run ('.' :: (fraction ++ 'e' :: power)) hwhole
    (by simp)
  obtain ⟨htake', hdrop'⟩ := Text.takeWhile_run ('e' :: power) hfraction (by simp)
  unfold Numeral.ofChars?
  simp [htake, hdrop, htake', hdrop', hne, hpower]

theorem ofChars?_whole (hwhole : ∀ c ∈ whole, c.isDigit = true) (hne : whole ≠ [])
    (hpower : exponent? power = some e) :
    Numeral.ofChars? (whole ++ 'e' :: power) = some ⟨whole, [], e⟩ := by
  obtain ⟨htake, hdrop⟩ := Text.takeWhile_run ('e' :: power) hwhole (by simp)
  unfold Numeral.ofChars?
  simp [htake, hdrop, hne, hpower]

theorem isDigit_toDigits {n : Nat} : ∀ c ∈ Nat.toDigits 10 n, c.isDigit = true := fun _ hc =>
  Nat.isDigit_of_mem_toDigits (by decide) (by decide) hc

/-- A sign is no digit. -/
theorem splitSign_of_digit {c : Char} (h : c.isDigit = true) (cs : List Char) :
    splitSign (c :: cs) = (false, c :: cs) := by
  unfold splitSign
  split
  · rename_i heq
    cases heq
    exact absurd h (by decide)
  · rename_i heq
    cases heq
    exact absurd h (by decide)
  · rfl

theorem splitSign_toDigits (n : Nat) :
    splitSign (Nat.toDigits 10 n) = (false, Nat.toDigits 10 n) := by
  obtain ⟨c, cs, hcs⟩ := List.exists_cons_of_ne_nil (Nat.toDigits_ne_nil (n := n) (b := 10))
  have hc : c ∈ Nat.toDigits 10 n := hcs ▸ List.mem_cons_self ..
  rw [hcs]
  exact splitSign_of_digit (isDigit_toDigits c hc) cs

theorem exponent?_toDigits (n : Nat) : exponent? (Nat.toDigits 10 n) = some (n : Int) := by
  have hne : Nat.toDigits 10 n ≠ [] := Nat.toDigits_ne_nil
  unfold exponent?
  rw [splitSign_toDigits]
  simp [hne, Nat.ofDigitChars_ten_toDigits]
  exact isDigit_toDigits

theorem exponent?_minus (n : Nat) : exponent? ('-' :: Nat.toDigits 10 n) = some (-(n : Int)) := by
  have hne : Nat.toDigits 10 n ≠ [] := Nat.toDigits_ne_nil
  unfold exponent?
  simp [splitSign, hne, Nat.ofDigitChars_ten_toDigits]
  exact isDigit_toDigits

end Numeral

/-! ## Magnitudes -/

/-- A numeral stands for `c · 10 ^ p`, if need be with zeros after the last digit of `c`. -/
def Numeral.StandsFor (n : Numeral) (c : Nat) (p : Int) : Prop :=
  ∃ zeros : Nat, Nat.ofDigitChars 10 (n.whole ++ n.fraction) 0 = c * 10 ^ zeros ∧
    n.exponent - n.fraction.length + zeros = p

section Magnitude

variable {digits : List Char} {c : Nat} {p : Int}

theorem isDigit_replicate (k : Nat) : ∀ c ∈ List.replicate k '0', c.isDigit = true := by
  intro c hc
  rw [List.eq_of_mem_replicate hc]
  rfl

theorem standsFor_writePositional {style : Spelling} (hpoint : style.pointAlways = true)
    (hdigits : ∀ c ∈ digits, c.isDigit = true) (hne : digits ≠ [])
    (hvalue : Nat.ofDigitChars 10 digits 0 = c) (p : Int) :
    ∃ n, Numeral.ofChars? (style.writePositional digits (p + digits.length)) = some n ∧
      n.StandsFor c p := by
  have hzero : ∀ c ∈ ['0'], c.isDigit = true := List.forall_mem_singleton.2 rfl
  unfold Spelling.writePositional
  split_ifs with hsmall hlarge
  · -- all digits come after the point
    have hfraction : ∀ c ∈ List.replicate (-(p + digits.length)).toNat '0' ++ digits,
        c.isDigit = true := List.forall_mem_append.2 ⟨isDigit_replicate _, hdigits⟩
    refine ⟨_, ofChars?_positional hzero (by simp) hfraction, 0, ?_, ?_⟩
    · simp [Nat.ofDigitChars_append, Nat.ofDigitChars_cons, Nat.ofDigitChars_replicate_zero, hvalue]
    · simp only [List.length_append, List.length_replicate]
      omega
  · -- all digits come before the point, and zeros after them
    have hwhole : ∀ c ∈ digits ++ List.replicate ((p + digits.length).toNat - digits.length) '0',
        c.isDigit = true := List.forall_mem_append.2 ⟨hdigits, isDigit_replicate _⟩
    refine ⟨_, ofChars?_positional hwhole (by simp [hne]) hzero,
      (p + digits.length).toNat - digits.length + 1, ?_, ?_⟩
    · simp [Nat.ofDigitChars_append, Nat.ofDigitChars_cons, Nat.ofDigitChars_replicate_zero, hvalue]
      ring
    · simp only [List.length_singleton]
      omega
  · -- the point is among the digits
    have hwhole : digits.take (p + digits.length).toNat ≠ [] := by
      rw [Ne, List.take_eq_nil_iff]
      rintro (h | h)
      · omega
      · exact hne h
    refine ⟨_, ofChars?_positional (fun c hc => hdigits c (List.mem_of_mem_take hc)) hwhole
      (fun c hc => hdigits c (List.mem_of_mem_drop hc)), 0, ?_, ?_⟩
    · simp [hvalue]
    · simp only [List.length_drop]
      omega

theorem exponent?_power {style : Spelling} (hplus : style.exponentPlus = "") (e : Int) :
    exponent? (if e < 0 then '-' :: Nat.toDigits 10 (-e).toNat
      else style.exponentPlus.toList ++ Nat.toDigits 10 e.toNat) = some e := by
  split_ifs with he
  · rw [exponent?_minus]
    congr 1
    omega
  · rw [hplus]
    show exponent? (Nat.toDigits 10 e.toNat) = some e
    rw [exponent?_toDigits]
    congr 1
    omega

theorem standsFor_writeScientific {style : Spelling} (hplus : style.exponentPlus = "")
    (hdigits : ∀ c ∈ digits, c.isDigit = true) (hne : digits ≠ [])
    (hvalue : Nat.ofDigitChars 10 digits 0 = c) (p : Int) :
    ∃ n, Numeral.ofChars? (style.writeScientific digits (p + digits.length - 1)) = some n ∧
      n.StandsFor c p := by
  have hpower := exponent?_power hplus (p + digits.length - 1)
  obtain ⟨first, rest, rfl⟩ := List.exists_cons_of_ne_nil hne
  obtain ⟨hfirst, hrest⟩ := List.forall_mem_cons.1 hdigits
  have hwhole : ∀ c ∈ [first], c.isDigit = true := List.forall_mem_singleton.2 hfirst
  cases rest with
  | nil =>
    refine ⟨_, ofChars?_whole hwhole (by simp) hpower, 0, ?_, ?_⟩
    · simpa using hvalue
    · simp
  | cons second rest =>
    refine ⟨_, ofChars?_scientific hwhole (by simp) hrest hpower, 0, ?_, ?_⟩
    · simpa using hvalue
    · simp only [List.length_cons]
      omega

/-- Zeros after the last digit make up for the power of ten. -/
theorem unitsIn_shift (c z : Nat) (e : Int) :
    (unitsIn c (e + z)).1 * (unitsIn (c * 10 ^ z) e).2 =
      (unitsIn (c * 10 ^ z) e).1 * (unitsIn c (e + z)).2 := by
  rcases power_cases e with ⟨k, rfl⟩ | ⟨k, hk, rfl⟩
  · have hpow : Nat.pow 10 (k + z) = 10 ^ z * Nat.pow 10 k := by
      rw [Nat.add_comm]
      exact Nat.pow_add 10 z k
    rw [← Int.natCast_add, unitsIn_of_nonneg, unitsIn_of_nonneg, hpow]
    ring
  rw [unitsIn_of_neg _ hk]
  rcases Nat.lt_or_ge z k with hz | hz
  · obtain ⟨j, rfl⟩ := Nat.exists_eq_add_of_lt hz
    have hpow : Nat.pow 10 (z + j + 1) = 10 ^ z * Nat.pow 10 (j + 1) := Nat.pow_add 10 z (j + 1)
    have he : -((z + j + 1 : Nat) : Int) + z = -((j + 1 : Nat) : Int) := by omega
    rw [he, unitsIn_of_neg _ (Nat.succ_pos j), hpow]
    ring
  · obtain ⟨j, rfl⟩ := Nat.exists_eq_add_of_le hz
    have hpow : 10 ^ (k + j) = Nat.pow 10 k * Nat.pow 10 j := Nat.pow_add 10 k j
    have he : -(k : Int) + (k + j : Nat) = (j : Int) := by omega
    rw [he, unitsIn_of_nonneg, hpow]
    ring

theorem withinDecimal_of_standsFor {r : Nat} {n : Numeral} (h : WithinDecimal r c p)
    (hn : n.StandsFor c p) (negative : Bool) :
    WithinDecimal r (n.decimal negative).digits (n.decimal negative).exponent := by
  obtain ⟨zeros, hdigits, rfl⟩ := hn
  rw [Numeral.decimal, hdigits]
  exact h.of_ratio (unitsIn_pos _ _) (unitsIn_pos _ _) (unitsIn_shift c zeros _)

/-- The text of a magnitude is a numeral that rounds to its rank. -/
theorem rank_writeMagnitude (style : Spelling) (hpoint : style.pointAlways = true)
    (hplus : style.exponentPlus = "") {r : Nat} (hfinite : r < infinityRank) (negative : Bool) :
    ∃ n, Numeral.ofChars? (style.writeMagnitude r) = some n ∧
      (n.decimal negative).rank = r := by
  rcases Nat.eq_zero_or_pos r with rfl | hr
  · refine ⟨⟨['0'], ['0'], 0⟩, ?_, rfl⟩
    rw [Spelling.writeMagnitude, if_pos rfl, if_pos hpoint]
    rfl
  have hwithin := shortest_within style.tie hr
  have hspelled : ∃ n, Numeral.ofChars? (style.writeMagnitude r) = some n ∧
      n.StandsFor (shortest style.tie r).coefficient (shortest style.tie r).exponent := by
    rw [Spelling.writeMagnitude, if_neg (Nat.ne_of_gt hr)]
    dsimp only
    split_ifs
    · exact standsFor_writePositional hpoint isDigit_toDigits Nat.toDigits_ne_nil
        Nat.ofDigitChars_ten_toDigits _
    · exact standsFor_writeScientific hplus isDigit_toDigits Nat.toDigits_ne_nil
        Nat.ofDigitChars_ten_toDigits _
  obtain ⟨n, hn, hstands⟩ := hspelled
  exact ⟨n, hn, rank_of_within (withinDecimal_of_standsFor hwithin hstands negative) hr hfinite⟩

/-- A literal has a point or a power of ten. -/
theorem mark_literal (r : Nat) :
    ∃ c ∈ Spelling.literal.writeMagnitude r, c = '.' ∨ c = 'e' := by
  have hpoint : Spelling.literal.pointAlways = true := rfl
  unfold Spelling.writeMagnitude
  rw [if_pos hpoint]
  simp only
  split_ifs
  · exact ⟨'.', by simp, .inl rfl⟩
  · unfold Spelling.writePositional
    rw [if_pos hpoint]
    split_ifs <;> exact ⟨'.', by simp, .inl rfl⟩
  · exact ⟨'e', by simp [Spelling.writeScientific], .inr rfl⟩

end Magnitude

/-! ## Exact values -/

def signed (negative : Bool) (q : ℚ) : ℚ := if negative then -q else q

def magnitude (r : Nat) : ℚ := unitsOf r / unit

/-- A double as a rational number; zero if it is infinite or no number. -/
def exact (x : Float) : ℚ :=
  match view x with
  | .finite negative r => signed negative (magnitude r)
  | _ => 0

/-- The value of a constant: the double nearest to its decimal number, or zero for no constant. -/
def spelledValue (cs : List Char) : ℚ :=
  match Numeral.ofChars? (splitSign cs).2 with
  | some n =>
    signed (splitSign cs).1 (magnitude (n.decimal (splitSign cs).1).rank)
  | none => 0

/-- Numerals have no sign. -/
theorem splitSign_of_ofChars? {cs : List Char} {n : Numeral} (h : Numeral.ofChars? cs = some n) :
    splitSign cs = (false, cs) := by
  unfold splitSign
  split
  · simp [Numeral.ofChars?] at h
  · simp [Numeral.ofChars?] at h
  · rfl

theorem lt_infinityRank_of_view {x : Float} {negative : Bool} {r : Nat}
    (h : view x = .finite negative r) : r < infinityRank := by
  unfold view viewBits at h
  dsimp only at h
  split_ifs at h with hfinite
  cases h
  exact hfinite

/-- The text of a double has the double for its value. -/
theorem spelledValue_literal (x : Float) :
    spelledValue (Spelling.literal.text x).toList = exact x := by
  rw [Spelling.text, String.toList_ofList]
  unfold Spelling.chars exact
  cases hview : view x with
  | nan => rfl
  | infinite negative => cases negative <;> rfl
  | finite negative r =>
    have hfinite := lt_infinityRank_of_view hview
    obtain ⟨n, hn, hrank⟩ := rank_writeMagnitude .literal rfl rfl hfinite negative
    cases negative with
    | false =>
      simp only [Bool.false_eq_true, if_false]
      rw [spelledValue, splitSign_of_ofChars? hn]
      simp only [hn, hrank]
    | true =>
      simp only [if_true]
      have hsign : splitSign ('-' :: Spelling.literal.writeMagnitude r) =
          (true, Spelling.literal.writeMagnitude r) := rfl
      rw [spelledValue, hsign]
      simp only [hn, hrank]

/-! ## Positive doubles -/

theorem exact_pos {x : Float} (hfinite : x.isFinite = true) (hpos : 0 < x) : 0 < exact x := by
  obtain ⟨r, hr, hview⟩ := view_of_pos hfinite hpos
  have hunits : 0 < unitsOf r := by
    have := (unitsOf_between hr).1
    omega
  have hpower : ∀ k, 0 < Nat.pow 2 k := Nat.two_pow_pos
  have hunit : 0 < unit := Nat.lt_of_lt_of_eq (hpower _) unit_eq.symm
  rw [exact, hview]
  exact div_pos (Nat.cast_pos.2 hunits) (Nat.cast_pos.2 hunit)

/-- The text of a positive double begins with a digit, but is no whole number. -/
theorem positive_literal {x : Float} (hfinite : x.isFinite = true) (hpos : 0 < x) :
    (Spelling.literal.text x).toList.head?.any Char.isDigit = true ∧
      ∃ c ∈ (Spelling.literal.text x).toList, digitValue? 10 c = none := by
  obtain ⟨r, hr, hview⟩ := view_of_pos hfinite hpos
  have htext : (Spelling.literal.text x).toList = Spelling.literal.writeMagnitude r := by
    rw [Spelling.text, String.toList_ofList, Spelling.chars, hview]
    rfl
  obtain ⟨c, hc, hmark⟩ := mark_literal r
  have hvalue : digitValue? 10 c = none := by
    rcases hmark with rfl | rfl <;> rfl
  rw [htext]
  refine ⟨?_, c, hc, hvalue⟩
  have hdigits := isDigit_toDigits (n := (shortest Spelling.literal.tie r).coefficient)
  have hne : Nat.toDigits 10 (shortest Spelling.literal.tie r).coefficient ≠ [] :=
    Nat.toDigits_ne_nil
  rw [Spelling.writeMagnitude, if_neg (Nat.ne_of_gt hr)]
  simp only
  generalize (shortest Spelling.literal.tie r).exponent = p
  generalize Nat.toDigits 10 (shortest Spelling.literal.tie r).coefficient = digits at hdigits hne ⊢
  obtain ⟨first, others, rfl⟩ := List.exists_cons_of_ne_nil hne
  have hfirst := hdigits first (List.mem_cons_self ..)
  split_ifs
  · unfold Spelling.writePositional
    split_ifs with hsmall hlarge
    · rfl
    · exact hfirst
    · exact hfirst
    · have hwhole : ∀ n : Nat, n ≠ 0 → ((first :: others).take n ++
          '.' :: (first :: others).drop n).head?.any Char.isDigit = true := by
        intro n hn
        cases n with
        | zero => exact absurd rfl hn
        | succ n => exact hfirst
      exact hwhole _ (by omega)
  · cases others <;> exact hfirst

end Number
end LtiUnit
