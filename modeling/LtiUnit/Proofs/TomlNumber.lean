import LtiUnit.Proofs.NumberLists
import LtiUnit.Toml.Moment
import LtiUnit.Toml.Numeral

/-!
# LtiUnit.Proofs.TomlNumber

How the TOML reader takes a decimal number that is one for JSON as well: up to its end, whatever
follows, and as the nearest double. It is not taken for a date or a time, or for a number in another
base.

* `number?_run` — what is read, and what is left.
* `float?_eq_nearest?` — the number of a lexeme.
* `moment?_eq_none` — no date and no time.
-/

namespace LtiUnit
namespace Toml

open Json (Numeral)
open Json.Numeral (SignText PowerText FractionText isDigit_of_isDigits ne_nil_of_isDigits)

/-- The characters that may stand after a value: marks, blanks and line breaks. -/
def isStop (c : Char) : Bool :=
  c == ',' || c == ']' || c == ' ' || c == '\t' || c == '\n' || c == '\r'

/-- A value ends here. -/
def Stops (cs : List Char) : Prop := ∀ c ∈ cs.head?, isStop c = true

/-! ## Numbers -/

section Numbers

variable {whole fraction power ds cs rest : List Char} {n : Numeral} {c : Char}

/-- No digit goes on here. -/
def EndsDigits (cs : List Char) : Prop := ∀ c ∈ cs.head?, c.isDigit = false ∧ c ≠ '_'

theorem moreDigits?_run (hds : ∀ c ∈ ds, c.isDigit = true) (hrest : EndsDigits rest) :
    moreDigits? Char.isDigit (ds ++ rest) = some (ds, rest) := by
  induction ds with
  | nil =>
    cases rest with
    | nil => rfl
    | cons c rest =>
      obtain ⟨hdigit, hunderscore⟩ := hrest c rfl
      rw [List.nil_append, moreDigits?, if_neg (by simp [hdigit])]
      · exact fun _ _ h _ => hunderscore h
      · exact fun h _ => hunderscore h
  | cons c ds ih =>
    obtain ⟨hc, hds⟩ := List.forall_mem_cons.1 hds
    have hunderscore : c ≠ '_' := by
      rintro rfl
      exact absurd hc (by decide)
    rw [List.cons_append, moreDigits?, if_pos hc, ih hds]
    · rfl
    · exact fun _ _ h _ => hunderscore h
    · exact fun h _ => hunderscore h

theorem digits?_run (hds : Numeral.isDigits ds = true) (hrest : EndsDigits rest) :
    digits? Char.isDigit (ds ++ rest) = some (ds, rest) := by
  obtain ⟨hne, hall⟩ := Bool.and_eq_true_iff.1 hds
  cases ds with
  | nil => cases hne
  | cons c ds =>
    obtain ⟨hc, hds⟩ := List.forall_mem_cons.1 (List.all_eq_true.1 hall)
    rw [List.cons_append, digits?, if_pos hc, moreDigits?_run hds hrest]
    rfl

theorem whole?_run (hwhole : Numeral.isWhole whole = true) (hrest : EndsDigits rest) :
    whole? (whole ++ rest) = some (whole, rest) := by
  obtain ⟨hdigits, hzero⟩ := Bool.and_eq_true_iff.1 hwhole
  unfold whole?
  split
  · rename_i more heq
    have hlength : whole = ['0'] := by
      cases whole with
      | nil => cases hdigits
      | cons c ds =>
        cases heq
        simpa using hzero
    subst hlength
    cases heq
    rfl
  · exact digits?_run hdigits hrest

/-- What a power of ten stands for. -/
def exponentOf (negative : Bool) (digits : List Char) : Int :=
  let n : Int := Nat.ofDigitChars 10 digits 0
  if negative then -n else n

theorem isStop_iff : isStop c = true ↔
    c = ',' ∨ c = ']' ∨ c = ' ' ∨ c = '\t' ∨ c = '\n' ∨ c = '\r' := by
  simp [isStop, or_assoc]

theorem Stops.endsDigits (h : Stops rest) : EndsDigits rest := by
  intro c hc
  rcases isStop_iff.1 (h c hc) with rfl | rfl | rfl | rfl | rfl | rfl <;> decide

theorem power?_run {p : Option (Bool × List Char)} (hpower : PowerText p power)
    (hrest : Stops rest) :
    power? (power ++ rest) = some (p.map fun p => exponentOf p.1 p.2, rest) := by
  cases hpower with
  | none =>
    have hletter (l : Char) (hl : isStop l = false) (more : List Char) : rest ≠ l :: more := by
      rintro rfl
      exact Bool.false_ne_true (hl.symm.trans (hrest l rfl))
    rw [List.nil_append, power?]
    · rfl
    · exact hletter 'e' rfl
    · exact hletter 'E' rfl
  | @some letter negative sign digits hletter hsign hdigits =>
    have hsplit : Number.splitSign (sign ++ digits ++ rest) = (negative, digits ++ rest) := by
      cases hsign with
      | none =>
        obtain ⟨c, ds, rfl⟩ := List.exists_cons_of_ne_nil (ne_nil_of_isDigits hdigits)
        exact Number.splitSign_of_digit (isDigit_of_isDigits hdigits c (List.mem_cons_self ..)) _
      | plus => rfl
      | minus => rfl
    have heq : power? (letter :: (sign ++ digits ++ rest)) =
        (digits? Char.isDigit (digits ++ rest)).map
          fun p => (some (exponentOf negative p.1), p.2) := by
      rcases hletter with rfl | rfl <;> rw [power?, hsplit] <;> rfl
    rw [List.cons_append, heq, digits?_run hdigits hrest.endsDigits]
    rfl

theorem fraction?_run {f : Option (List Char)} (hfraction : FractionText f fraction)
    (hrest : EndsDigits rest) (hpoint : ∀ c ∈ rest.head?, c ≠ '.') :
    fraction? (fraction ++ rest) = some (f, rest) := by
  cases hfraction with
  | none =>
    rw [List.nil_append, fraction?]
    rintro more rfl
    exact hpoint '.' rfl rfl
  | some hdigits =>
    rw [List.cons_append, fraction?, digits?_run hdigits hrest]
    rfl

/-- A power of ten goes on with no digits, and neither does what ends a value. -/
theorem endsDigits_power {p : Option (Bool × List Char)} (hpower : PowerText p power)
    (hrest : Stops rest) :
    EndsDigits (power ++ rest) ∧ ∀ c ∈ (power ++ rest).head?, c ≠ '.' := by
  cases hpower with
  | none =>
    refine ⟨hrest.endsDigits, fun c hc => ?_⟩
    rintro rfl
    exact absurd (hrest '.' hc) (by decide)
  | some hletter hsign hdigits =>
    rcases hletter with rfl | rfl <;> refine ⟨fun c hc => ?_, fun c hc => ?_⟩ <;> cases hc <;>
      decide

theorem endsDigits_fraction {f : Option (List Char)} (hfraction : FractionText f fraction)
    (hrest : EndsDigits rest) : EndsDigits (fraction ++ rest) := by
  cases hfraction with
  | none => exact hrest
  | some hdigits =>
    intro c hc
    cases hc
    decide

/-- The double that a number with a fraction or a power of ten stands for: the nearest one, which
may not be plus infinity. -/
def nearest? (n : Numeral) : Option Float :=
  let exponent := (n.power.map fun p => exponentOf p.1 p.2).getD 0
  let x := Number.Numeral.toFloat ⟨n.whole, n.fraction.getD [], exponent⟩ n.negative
  if x.isInf && !n.negative then none else some x

theorem decimal?_run (hwhole : Numeral.isWhole n.whole = true)
    (hfraction : FractionText n.fraction fraction) (hpower : PowerText n.power power)
    (hreal : (n.fraction.isSome || n.power.isSome) = true) (hrest : Stops rest) :
    decimal? n.negative (n.whole ++ (fraction ++ (power ++ rest))) =
      (nearest? n).map (·, rest) := by
  obtain ⟨hdigits, hpoint⟩ := endsDigits_power hpower hrest
  have hkind : (n.fraction.isNone && (n.power.map fun p => exponentOf p.1 p.2).isNone) = false := by
    cases hf : n.fraction <;> cases hp : n.power <;> simp_all
  rw [decimal?, whole?_run hwhole (endsDigits_fraction hfraction hdigits)]
  simp only [Option.bind_eq_bind, Option.bind_some, fraction?_run hfraction hdigits hpoint,
    power?_run hpower hrest, hkind, nearest?, Bool.false_eq_true, if_false]
  split_ifs <;> rfl

theorem number?_of_digit (hc : c.isDigit = true)
    (hcs : ∀ d ∈ cs.head?, (Json.isNumberChar d || isStop d) = true) :
    number? (c :: cs) = decimal? false (c :: cs) := by
  have hbase (letter : Char) (hletter : (Json.isNumberChar letter || isStop letter) = false)
      (more : List Char) : cs ≠ letter :: more := by
    rintro rfl
    exact Bool.false_ne_true (hletter.symm.trans (hcs letter rfl))
  unfold number?
  split
  · rename_i heq
    cases heq
    exact absurd rfl (hbase 'x' (by decide) _)
  · rename_i heq
    cases heq
    exact absurd rfl (hbase 'o' (by decide) _)
  · rename_i heq
    cases heq
    exact absurd rfl (hbase 'b' (by decide) _)
  · rw [Number.splitSign_of_digit hc]
    simp only
    unfold unsigned?
    split
    · rename_i heq
      cases heq
      exact absurd hc (by decide)
    · rename_i heq
      cases heq
      exact absurd hc (by decide)
    · rfl

theorem number?_minus (hc : c.isDigit = true) :
    number? ('-' :: c :: cs) = decimal? true (c :: cs) := by
  show unsigned? true (c :: cs) = _
  unfold unsigned?
  split
  · rename_i heq
    cases heq
    exact absurd hc (by decide)
  · rename_i heq
    cases heq
    exact absurd hc (by decide)
  · rfl

/-- What is read for the characters of a number, if nothing else follows. -/
def float? (lexeme : List Char) : Option Float :=
  match number? lexeme with
  | some (x, []) => some x
  | _ => none

theorem stops_nil : Stops [] := by
  intro c hc
  cases hc

/-- A decimal number is a sign and digits, and something that is neither. -/
theorem exists_run_of_isDecimal (h : IsDecimal cs) :
    ∃ negative c ds mark more, cs = Json.sign negative ++ (c :: ds ++ mark :: more) ∧
      (∀ d ∈ c :: ds, d.isDigit = true) ∧ (mark = '.' ∨ mark = 'e' ∨ mark = 'E') := by
  obtain ⟨⟨negative, whole, f, p⟩, hn, hreal⟩ := h
  obtain ⟨fraction, power, rfl, hwhole, hfraction, hpower⟩ := Json.hasText_of_ofChars? hn
  obtain ⟨c, ds, rfl⟩ := List.exists_cons_of_ne_nil (Json.ne_nil_of_isWhole hwhole)
  obtain ⟨mark, more, hmore, hmark⟩ : ∃ mark more, fraction ++ power = mark :: more ∧
      (mark = '.' ∨ mark = 'e' ∨ mark = 'E') := by
    cases hfraction with
    | some _ => exact ⟨_, _, rfl, .inl rfl⟩
    | none =>
      cases hpower with
      | some hletter _ _ => exact ⟨_, _, rfl, .inr hletter⟩
      | none => cases hreal
  exact ⟨negative, c, ds, mark, more, by rw [hmore], Json.isDigit_of_isWhole hwhole, hmark⟩

theorem head_of_numberChars (hcs : ∀ c ∈ cs, Json.isNumberChar c = true) (hrest : Stops rest) :
    ∀ d ∈ (cs ++ rest).head?, (Json.isNumberChar d || isStop d) = true := by
  intro d hd
  cases cs with
  | nil => rw [hrest d hd, Bool.or_true]
  | cons c cs =>
    cases hd
    rw [hcs d (List.mem_cons_self ..), Bool.true_or]

theorem number?_run {n : Numeral} (hn : Numeral.ofChars? cs = some n)
    (hreal : (n.fraction.isSome || n.power.isSome) = true) (hrest : Stops rest) :
    number? (cs ++ rest) = (nearest? n).map (·, rest) := by
  have hchars := (Json.writtenNumber_of_ofChars? hn).chars
  obtain ⟨fraction, power, rfl, hwhole, hfraction, hpower⟩ := Json.hasText_of_ofChars? hn
  have hdecimal := decimal?_run hwhole hfraction hpower hreal hrest
  obtain ⟨negative, whole, f, p⟩ := n
  obtain ⟨c, ds, rfl⟩ := List.exists_cons_of_ne_nil (Json.ne_nil_of_isWhole hwhole)
  have hc : c.isDigit = true := Json.isDigit_of_isWhole hwhole c (List.mem_cons_self ..)
  simp only [List.append_assoc] at hdecimal ⊢
  rw [← hdecimal]
  cases negative with
  | true => exact number?_minus hc
  | false =>
    have hmore : ∀ d ∈ ds ++ (fraction ++ power), Json.isNumberChar d = true :=
      (List.forall_mem_cons.1 hchars).2
    have hhead := head_of_numberChars hmore hrest
    rw [List.append_assoc, List.append_assoc] at hhead
    exact number?_of_digit hc hhead

theorem float?_eq_nearest? {n : Numeral} (hn : Numeral.ofChars? cs = some n)
    (hreal : (n.fraction.isSome || n.power.isSome) = true) : float? cs = nearest? n := by
  have hnumber := number?_run hn hreal stops_nil
  rw [List.append_nil] at hnumber
  rw [float?, hnumber]
  cases nearest? n <;> rfl

/-! A decimal number is no date and no time: what follows its digits is no hyphen and no colon. -/

theorem of_fixedDigits? {k m : Nat} {mark : Char} {more after : List Char}
    (hmark : mark.isDigit = false) (h : fixedDigits? k (ds ++ mark :: more) = some (m, after)) :
    k ≤ ds.length ∧ after = ds.drop k ++ mark :: more := by
  simp only [fixedDigits?] at h
  split at h
  · rename_i hall
    cases h
    have hle : k ≤ ds.length := by
      by_contra hlt
      rw [Nat.not_le] at hlt
      have hmem : mark ∈ (ds ++ mark :: more).take k := by
        obtain ⟨j, rfl⟩ := Nat.exists_eq_add_of_lt hlt
        have hleft : ds.length + j + 1 - ds.length = j + 1 := by omega
        rw [List.take_append, hleft, List.take_succ_cons]
        exact List.mem_append_right _ (List.mem_cons_self ..)
      rw [List.all_eq_true.1 hall.2 mark hmem] at hmark
      cases hmark
    exact ⟨hle, List.drop_append_of_le_length hle⟩
  · cases h

/-- Only digits and the mark behind them can follow a number of so many digits. -/
theorem after?_drop {k : Nat} {mark c : Char} {more : List Char}
    (hds : ∀ d ∈ ds, d.isDigit = true) (hc : c.isDigit = false) (hmark : mark ≠ c) :
    after? c (ds.drop k ++ mark :: more) = none := by
  cases hdrop : ds.drop k with
  | nil => exact if_neg hmark
  | cons d rest =>
    refine if_neg ?_
    rintro rfl
    have hmem : d ∈ ds := List.mem_of_mem_drop (hdrop ▸ List.mem_cons_self ..)
    rw [hds d hmem] at hc
    cases hc

theorem date?_eq_none {mark : Char} {more : List Char} (hds : ∀ d ∈ ds, d.isDigit = true)
    (hmark : mark.isDigit = false) (hhyphen : mark ≠ '-' ∨ ds = []) :
    date? (ds ++ mark :: more) = none := by
  unfold date?
  cases hfixed : fixedDigits? 4 (ds ++ mark :: more) with
  | none => rfl
  | some p =>
    obtain ⟨hle, hafter⟩ := of_fixedDigits? hmark hfixed
    rcases hhyphen with hhyphen | rfl
    · simp [hafter, after?_drop hds (c := '-') rfl hhyphen]
    · cases hle

theorem time?_eq_none {mark : Char} {more : List Char} (hds : ∀ d ∈ ds, d.isDigit = true)
    (hmark : mark.isDigit = false) (hcolon : mark ≠ ':') : time? (ds ++ mark :: more) = none := by
  unfold time? twoDigits?
  cases hfixed : fixedDigits? 2 (ds ++ mark :: more) with
  | none => rfl
  | some p =>
    obtain ⟨-, hafter⟩ := of_fixedDigits? hmark hfixed
    by_cases hle : p.1 ≤ 23
    · simp [hle, hafter, after?_drop hds (c := ':') rfl hcolon]
    · simp [hle]

theorem moment?_eq_none (h : IsDecimal cs) (rest : List Char) : moment? (cs ++ rest) = none := by
  have hnone {ds more : List Char} {mark : Char} (hds : ∀ d ∈ ds, d.isDigit = true)
      (hmark : mark.isDigit = false) (hhyphen : mark ≠ '-' ∨ ds = []) (hcolon : mark ≠ ':') :
      moment? (ds ++ mark :: more) = none := by
    rw [moment?, date?_eq_none hds hmark hhyphen]
    exact time?_eq_none hds hmark hcolon
  obtain ⟨negative, c, ds, mark, more, rfl, hds, hmark⟩ := exists_run_of_isDecimal h
  cases negative with
  | true =>
    have hnil : ∀ d ∈ ([] : List Char), d.isDigit = true := List.forall_mem_nil _
    exact hnone hnil rfl (.inr rfl) (by decide)
  | false =>
    show moment? ((c :: ds ++ mark :: more) ++ rest) = none
    rw [List.append_assoc]
    rcases hmark with rfl | rfl | rfl <;>
      exact hnone hds (by decide) (.inl (by decide)) (by decide)

end Numbers

end Toml
end LtiUnit
