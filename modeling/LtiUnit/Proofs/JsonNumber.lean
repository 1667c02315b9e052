import LtiUnit.Proofs.JsonReader
import LtiUnit.Proofs.SpelledNumber

/-!
# LtiUnit.Proofs.JsonNumber

The numbers that are written in JSON documents are numbers of its grammar, which wants at least one
digit on either side of a point and no zero before other digits.

* `writtenNumber_chars` — a finite double is written as such a number.
-/

namespace LtiUnit
namespace Json

open Number (Spelling)

/-! ## The grammar -/

section Grammar

variable {whole fraction power : List Char}

theorem isWhole_of_head (hdigits : ∀ c ∈ whole, c.isDigit = true) (hne : whole ≠ [])
    (hhead : whole.head? ≠ some '0') : Numeral.isWhole whole = true := by
  have hall : whole.all Char.isDigit = true := List.all_eq_true.2 hdigits
  simp [Numeral.isWhole, Numeral.isDigits, hall, hne, hhead]

theorem isDigit_of_isWhole (h : Numeral.isWhole whole = true) : ∀ c ∈ whole, c.isDigit = true := by
  simp only [Numeral.isWhole, Numeral.isDigits, Bool.and_eq_true, List.all_eq_true] at h
  exact h.1.2

theorem ne_nil_of_isWhole (h : Numeral.isWhole whole = true) : whole ≠ [] := by
  rintro rfl
  cases h

/-- A sign in front of the digits. -/
def sign (negative : Bool) : List Char := if negative then ['-'] else []

/-- What follows the digits before the point. -/
def afterWhole? (negative : Bool) (whole : List Char) : List Char → Option Numeral
  | '.' :: rest =>
    if (rest.takeWhile Char.isDigit).isEmpty then none
    else Numeral.ofTail? negative whole (some (rest.takeWhile Char.isDigit))
      (rest.dropWhile Char.isDigit)
  | rest => Numeral.ofTail? negative whole none rest

/-- What follows the sign. -/
def afterSign? (negative : Bool) (cs : List Char) : Option Numeral :=
  if Numeral.isWhole (cs.takeWhile Char.isDigit) then
    afterWhole? negative (cs.takeWhile Char.isDigit) (cs.dropWhile Char.isDigit)
  else none

theorem ofChars?_of_ne {c : Char} (hc : c ≠ '-') (cs : List Char) :
    Numeral.ofChars? (c :: cs) = afterSign? false (c :: cs) := by
  unfold Numeral.ofChars?
  split
  rename_i heq
  split at heq
  · rename_i hcons
    cases hcons
    exact absurd rfl hc
  · cases heq
    rfl

theorem ofChars?_signed {tail : List Char} (hwhole : Numeral.isWhole whole = true)
    (htail : ∀ c ∈ tail.head?, c.isDigit = false) (negative : Bool) :
    Numeral.ofChars? (sign negative ++ (whole ++ tail)) = afterWhole? negative whole tail := by
  obtain ⟨htake, hdrop⟩ := Text.takeWhile_run tail (isDigit_of_isWhole hwhole) htail
  have hafter : afterSign? negative (whole ++ tail) = afterWhole? negative whole tail := by
    rw [afterSign?, htake, hdrop, if_pos hwhole]
  cases negative with
  | true => exact hafter
  | false =>
    obtain ⟨c, cs, rfl⟩ := List.exists_cons_of_ne_nil (ne_nil_of_isWhole hwhole)
    have hc : c ≠ '-' := by
      rintro rfl
      exact absurd (isDigit_of_isWhole hwhole '-' (List.mem_cons_self ..)) (by decide)
    exact (ofChars?_of_ne hc _).trans hafter

theorem isSome_positional (hwhole : Numeral.isWhole whole = true)
    (hfraction : ∀ c ∈ fraction, c.isDigit = true) (hne : fraction ≠ []) (negative : Bool) :
    (Numeral.ofChars? (sign negative ++ (whole ++ '.' :: fraction))).isSome = true := by
  obtain ⟨htake, hdrop⟩ := Text.takeWhile_run [] hfraction (by simp)
  rw [List.append_nil] at htake hdrop
  rw [ofChars?_signed hwhole (by simp)]
  simp [afterWhole?, htake, hdrop, hne, Numeral.ofTail?]

theorem isSome_scientific (hwhole : Numeral.isWhole whole = true)
    (hfraction : ∀ c ∈ fraction, c.isDigit = true) (hne : fraction ≠ [])
    (hpower : (Numeral.power? power).isSome = true) (negative : Bool) :
    (Numeral.ofChars? (sign negative ++ (whole ++ '.' :: (fraction ++ 'e' :: power)))).isSome =
      true := by
  obtain ⟨htake, hdrop⟩ := Text.takeWhile_run ('e' :: power) hfraction (by simp)
  rw [ofChars?_signed hwhole (by simp)]
  simp [afterWhole?, htake, hdrop, hne, Numeral.ofTail?, hpower]

theorem isSome_whole (hwhole : Numeral.isWhole whole = true)
    (hpower : (Numeral.power? power).isSome = true) (negative : Bool) :
    (Numeral.ofChars? (sign negative ++ (whole ++ 'e' :: power))).isSome = true := by
  rw [ofChars?_signed hwhole (by simp)]
  simp [afterWhole?, Numeral.ofTail?, hpower]

theorem isSome_power (negative : Bool) (n : Nat) :
    (Numeral.power? ((if negative then '-' else '+') :: Nat.toDigits 10 n)).isSome = true := by
  have hdigits : Numeral.isDigits (Nat.toDigits 10 n) = true := by
    have hall := List.all_eq_true.2 (Number.isDigit_toDigits (n := n))
    have hne : Nat.toDigits 10 n ≠ [] := Nat.toDigits_ne_nil
    simp [Numeral.isDigits, hall, hne]
  cases negative <;> simp [Numeral.power?, hdigits]

end Grammar

/-! ## Magnitudes -/

theorem head?_append {cs : List Char} (h : cs ≠ []) (ds : List Char) :
    (cs ++ ds).head? = cs.head? := by
  cases cs with
  | nil => exact absurd rfl h
  | cons c cs => rfl

theorem head?_toDigits {n : Nat} (h : 0 < n) : (Nat.toDigits 10 n).head? ≠ some '0' := by
  induction n using Nat.strongRecOn with
  | ind n ih =>
    by_cases hn : n < 10
    · have hdigit : ∀ n < 10, 0 < n → n.digitChar ≠ '0' := by decide
      rw [Nat.toDigits_of_lt_base hn]
      simpa using hdigit n hn h
    · have hne : Nat.toDigits 10 (n / 10) ≠ [] := Nat.toDigits_ne_nil
      rw [Nat.toDigits_of_base_le (by decide) (by omega), head?_append hne]
      exact ih (n / 10) (by omega) (by omega)

section Magnitude

variable {digits : List Char}

/-- The digits of a number, up to some of them or with zeros after them. -/
theorem isSome_writePositional (hdigits : ∀ c ∈ digits, c.isDigit = true) (hne : digits ≠ [])
    (hhead : digits.head? ≠ some '0') (d : Int) (negative : Bool) :
    (Numeral.ofChars? (sign negative ++ Spelling.json.writePositional digits d)).isSome = true := by
  have hpoint : Spelling.json.pointAlways = true := rfl
  unfold Spelling.writePositional
  split_ifs with hsmall hlarge
  · have hfraction : ∀ c ∈ List.replicate (-d).toNat '0' ++ digits, c.isDigit = true :=
      List.forall_mem_append.2 ⟨Number.isDigit_replicate _, hdigits⟩
    have hzero : Numeral.isWhole ['0'] = true := by decide
    exact isSome_positional hzero hfraction (by simp [hne]) negative
  · have hwhole : Numeral.isWhole (digits ++ List.replicate (d.toNat - digits.length) '0') =
        true := by
      refine isWhole_of_head (List.forall_mem_append.2 ⟨hdigits, Number.isDigit_replicate _⟩)
        (by simp [hne]) ?_
      rwa [head?_append hne]
    exact isSome_positional hwhole (List.forall_mem_singleton.2 rfl) (List.cons_ne_nil _ _) negative
  · have hwhole : Numeral.isWhole (digits.take d.toNat) = true := by
      refine isWhole_of_head (fun c hc => hdigits c (List.mem_of_mem_take hc)) ?_ ?_
      · rw [Ne, List.take_eq_nil_iff]
        rintro (h | h)
        · omega
        · exact hne h
      · rwa [List.head?_take, if_neg (by omega)]
    refine isSome_positional hwhole (fun c hc => hdigits c (List.mem_of_mem_drop hc)) ?_ negative
    rw [Ne, List.drop_eq_nil_iff]
    omega

theorem isWhole_singleton {c : Char} (h : c.isDigit = true) : Numeral.isWhole [c] = true := by
  simp [Numeral.isWhole, Numeral.isDigits, h]

theorem isSome_writeScientific (hdigits : ∀ c ∈ digits, c.isDigit = true) (hne : digits ≠ [])
    (e : Int) (negative : Bool) :
    (Numeral.ofChars? (sign negative ++ Spelling.json.writeScientific digits e)).isSome = true := by
  obtain ⟨power, hpower, htext⟩ : ∃ power, (Numeral.power? power).isSome = true ∧
      (if e < 0 then '-' :: Nat.toDigits 10 (-e).toNat
        else Spelling.json.exponentPlus.toList ++ Nat.toDigits 10 e.toNat) = power := by
    split
    · exact ⟨_, isSome_power true _, rfl⟩
    · exact ⟨_, isSome_power false _, rfl⟩
  unfold Spelling.writeScientific
  simp only
  rw [htext]
  obtain ⟨first, rest, rfl⟩ := List.exists_cons_of_ne_nil hne
  obtain ⟨hfirst, hrest⟩ := List.forall_mem_cons.1 hdigits
  have hwhole := isWhole_singleton hfirst
  cases rest with
  | nil => exact isSome_whole hwhole hpower negative
  | cons second rest => exact isSome_scientific hwhole hrest (List.cons_ne_nil _ _) hpower negative

theorem isSome_writeMagnitude (r : Nat) (negative : Bool) :
    (Numeral.ofChars? (sign negative ++ Spelling.json.writeMagnitude r)).isSome = true := by
  unfold Spelling.writeMagnitude
  split_ifs with hr hpoint
  · cases negative <;> rfl
  · exact absurd rfl hpoint
  · have hpos := (Number.shortest_within Spelling.json.tie (Nat.pos_of_ne_zero hr)).pos
      (Nat.pos_of_ne_zero hr)
    simp only
    split_ifs
    · exact isSome_writePositional Number.isDigit_toDigits Nat.toDigits_ne_nil
        (head?_toDigits hpos) _ negative
    · exact isSome_writeScientific Number.isDigit_toDigits Nat.toDigits_ne_nil _ negative

end Magnitude

theorem holdsNumbers_isNumberChar : Text.HoldsNumbers isNumberChar where
  digit c h := by simp [isNumberChar, h]
  point := by decide
  minus := by decide
  power := by decide

/-- A number begins with a digit or with its sign. -/
theorem exists_head {cs : List Char} (h : (Numeral.ofChars? cs).isSome = true) :
    ∃ c rest, cs = c :: rest ∧ (c.isDigit = true ∨ c = '-') := by
  cases cs with
  | nil => cases h
  | cons c rest =>
    refine ⟨c, rest, rfl, ?_⟩
    by_cases hc : c = '-'
    · exact .inr hc
    · by_contra hnot
      rw [not_or] at hnot
      rw [ofChars?_of_ne hc, afterSign?, List.takeWhile_cons, if_neg hnot.1] at h
      cases h

theorem writtenNumber_chars {x : Float} (h : x.isFinite = true) :
    WrittenNumber (Spelling.json.chars x) := by
  obtain ⟨negative, r, hview⟩ := Number.view_of_isFinite h
  have hchars : Spelling.json.chars x = sign negative ++ Spelling.json.writeMagnitude r := by
    unfold Spelling.chars
    rw [hview]
    cases negative <;> rfl
  have hplus : Text.Only isNumberChar Spelling.json.exponentPlus := by decide
  have hnumber := isSome_writeMagnitude r negative
  rw [hchars]
  refine ⟨hnumber, ?_, exists_head hnumber⟩
  rw [List.forall_mem_append]
  refine ⟨?_, holdsNumbers_isNumberChar.writeMagnitude hplus r⟩
  cases negative with
  | true => exact List.forall_mem_singleton.2 holdsNumbers_isNumberChar.minus
  | false => exact List.forall_mem_nil _

/-- The magnitude of a significand and of some digits after the point: both are rounded to doubles,
and so is their quotient. -/
def pointMagnitude (significand places : Nat) : Float :=
  Number.Decimal.toFloat ⟨false, significand, 0⟩ / Numeral.tenTo places

/-- The value of a number with a point and without a power of ten. -/
theorem float?_of_point {lexeme : List Char} {n : Numeral} (hn : Numeral.ofChars? lexeme = some n)
    (hpower : n.power = none) (hlow : -308 ≤ n.significand.2) (hhigh : n.significand.2 < 0) :
    float? lexeme = some
      (let x := pointMagnitude n.significand.1 (-n.significand.2).toNat
      if n.negative then -x else x) := by
  rw [float?, hn, Option.bind_some, Numeral.toFloat?, Numeral.magnitude?, hpower]
  simp only
  rw [Numeral.scale, if_neg (Int.not_lt.2 hlow), if_pos hhigh, Option.map_some]
  rfl

end Json
end LtiUnit
