import LtiUnit.Proofs.NearestDecimal

/-!
# LtiUnit.Proofs.FloatingConstant

The literals of doubles are floating constants of C, and converting them loses nothing.

The constants are given by their grammar: digits with a point before, among or behind them, or a
power of ten, or both, and no suffix (`FloatingConstant`). Converting one takes the double that is
nearest to its decimal number (`Converts`).

* `floatingConstant_iff` — a numeral is such a constant exactly if it has a point or a power of ten.
* `literal_lossless` — a finite double is what its literal is converted to, and nothing else is.
-/

namespace LtiUnit
namespace Number

/-! ## The grammar -/

/-- Decimal digits and nothing else. -/
def IsDigits (cs : List Char) : Prop := ∀ c ∈ cs, c.isDigit = true

/-- The power of ten of a constant, from its mark on. -/
inductive PowerPart : List Char → Int → Prop
  | bare {mark : Char} {digits : List Char} (hmark : mark = 'e' ∨ mark = 'E')
    (hdigits : IsDigits digits) (hne : digits ≠ []) :
    PowerPart (mark :: digits) (Nat.ofDigitChars 10 digits 0 : Nat)
  | plus {mark : Char} {digits : List Char} (hmark : mark = 'e' ∨ mark = 'E')
    (hdigits : IsDigits digits) (hne : digits ≠ []) :
    PowerPart (mark :: '+' :: digits) (Nat.ofDigitChars 10 digits 0 : Nat)
  | minus {mark : Char} {digits : List Char} (hmark : mark = 'e' ∨ mark = 'E')
    (hdigits : IsDigits digits) (hne : digits ≠ []) :
    PowerPart (mark :: '-' :: digits) (-(Nat.ofDigitChars 10 digits 0 : Nat))

/-- The decimal floating constants of C without a suffix, and their parts. -/
inductive FloatingConstant : List Char → Numeral → Prop
  | pointed {whole fraction : List Char} (hwhole : IsDigits whole) (hfraction : IsDigits fraction)
    (hne : whole ≠ [] ∨ fraction ≠ []) :
    FloatingConstant (whole ++ '.' :: fraction) ⟨whole, fraction, 0⟩
  | pointedPower {whole fraction power : List Char} {e : Int} (hwhole : IsDigits whole)
    (hfraction : IsDigits fraction) (hne : whole ≠ [] ∨ fraction ≠ [])
    (hpower : PowerPart power e) :
    FloatingConstant (whole ++ '.' :: (fraction ++ power)) ⟨whole, fraction, e⟩
  | wholePower {whole power : List Char} {e : Int} (hwhole : IsDigits whole) (hne : whole ≠ [])
    (hpower : PowerPart power e) : FloatingConstant (whole ++ power) ⟨whole, [], e⟩

/-- The double that a constant is converted to, with or without a minus before it: the one that is
nearest to its number, with its sign. -/
def Converts (cs : List Char) (x : Float) : Prop :=
  ∃ negative digits n r, cs = (if negative then '-' :: digits else digits) ∧
    FloatingConstant digits n ∧ view x = .finite negative r ∧ Nearest (n.decimal negative).value r

/-! ## Reading constants -/

section Reading

variable {mark : Char} {cs digits whole fraction power rest : List Char} {n : Numeral} {e : Int}

theorem splitSign_digits (hdigits : IsDigits digits) : splitSign digits = (false, digits) := by
  cases digits with
  | nil => rfl
  | cons c cs => exact splitSign_of_digit (hdigits c (List.mem_cons_self ..)) cs

theorem exponent?_of_splitSign {negative : Bool} (hsign : splitSign cs = (negative, digits))
    (hdigits : IsDigits digits) (hne : digits ≠ []) :
    exponent? cs = some (if negative then -(Nat.ofDigitChars 10 digits 0 : Int)
      else (Nat.ofDigitChars 10 digits 0 : Int)) := by
  have hall : digits.all Char.isDigit = true := List.all_eq_true.2 hdigits
  rw [exponent?, hsign]
  simp only [List.isEmpty_eq_false_iff.2 hne, hall, Bool.not_true, Bool.or_self, Bool.false_eq_true,
    if_false]

theorem powerPart_iff (hmark : mark = 'e' ∨ mark = 'E') :
    PowerPart (mark :: cs) e ↔ exponent? cs = some e := by
  constructor
  · rintro (⟨-, hdigits, hne⟩ | @⟨-, digits, -, hdigits, hne⟩ | @⟨-, digits, -, hdigits, hne⟩)
    · exact exponent?_of_splitSign (splitSign_digits hdigits) hdigits hne
    · have hsign : splitSign ('+' :: digits) = (false, digits) := rfl
      exact exponent?_of_splitSign hsign hdigits hne
    · have hsign : splitSign ('-' :: digits) = (true, digits) := rfl
      exact exponent?_of_splitSign hsign hdigits hne
  · intro h
    rcases hsign : splitSign cs with ⟨negative, digits⟩
    have hgood : IsDigits digits ∧ digits ≠ [] := by
      rw [exponent?, hsign] at h
      by_contra hbad
      have htest : (digits.isEmpty || !digits.all Char.isDigit) = true := by
        rw [not_and_or] at hbad
        rcases hbad with hdigits | hempty
        · rw [Bool.or_eq_true, Bool.not_eq_true', ← Bool.not_eq_true, List.all_eq_true]
          exact .inr hdigits
        · rw [not_not.1 hempty]
          rfl
      simp only [htest, if_true] at h
      cases h
    obtain ⟨hdigits, hne⟩ := hgood
    rw [exponent?_of_splitSign hsign hdigits hne] at h
    obtain rfl := Option.some.inj h
    unfold splitSign at hsign
    split at hsign
    · cases hsign
      exact .minus hmark hdigits hne
    · cases hsign
      exact .plus hmark hdigits hne
    · cases hsign
      exact .bare hmark hdigits hne

/-- What a numeral comes to by what follows its digits. -/
def Numeral.ofRest? (whole fraction : List Char) : List Char → Option Numeral
  | [] => some ⟨whole, fraction, 0⟩
  | c :: power =>
    if c = 'e' ∨ c = 'E' then (exponent? power).map (⟨whole, fraction, ·⟩) else none

theorem ofChars?_pointed (hwhole : IsDigits whole) (hfraction : IsDigits fraction)
    (hne : whole ≠ [] ∨ fraction ≠ []) (hrest : ∀ c ∈ rest.head?, c.isDigit = false) :
    Numeral.ofChars? (whole ++ '.' :: (fraction ++ rest)) =
      Numeral.ofRest? whole fraction rest := by
  obtain ⟨htake, hdrop⟩ := Text.takeWhile_run ('.' :: (fraction ++ rest)) hwhole (by simp)
  obtain ⟨htake', hdrop'⟩ := Text.takeWhile_run rest hfraction hrest
  have hsome : ¬(whole.isEmpty && fraction.isEmpty) = true := by
    rw [Bool.and_eq_true, List.isEmpty_iff, List.isEmpty_iff, not_and_or]
    exact hne
  rw [Numeral.ofChars?, htake, hdrop]
  simp only [htake', hdrop', hsome]
  cases rest <;> rfl

theorem ofChars?_unpointed (hwhole : IsDigits whole) (hne : whole ≠ [])
    (hrest : ∀ c ∈ rest.head?, c.isDigit = false ∧ c ≠ '.') :
    Numeral.ofChars? (whole ++ rest) = Numeral.ofRest? whole [] rest := by
  obtain ⟨htake, hdrop⟩ := Text.takeWhile_run rest hwhole fun c hc => (hrest c hc).1
  have hsome : ¬whole.isEmpty = true := by rwa [List.isEmpty_iff]
  rw [Numeral.ofChars?, htake, hdrop]
  cases rest with
  | nil => simp [hsome, Numeral.ofRest?]
  | cons c power =>
    have hpoint : c ≠ '.' := (hrest c rfl).2
    simp [hsome, hpoint, Numeral.ofRest?]

theorem ofRest?_eq_some_iff : Numeral.ofRest? whole fraction rest = some n ↔
    rest = [] ∧ n = ⟨whole, fraction, 0⟩ ∨ ∃ e, PowerPart rest e ∧ n = ⟨whole, fraction, e⟩ := by
  cases rest with
  | nil =>
    have hnone (e : Int) : ¬PowerPart [] e := fun h => nomatch h
    simp [Numeral.ofRest?, hnone, eq_comm]
  | cons c power =>
    by_cases hmark : c = 'e' ∨ c = 'E'
    · rw [Numeral.ofRest?, if_pos hmark, Option.map_eq_some_iff]
      simp [powerPart_iff hmark, eq_comm]
    · have hnone (e : Int) : ¬PowerPart (c :: power) e := fun h => by
        cases h <;> exact hmark ‹_›
      simp [Numeral.ofRest?, hmark, hnone]

theorem head_power (h : PowerPart power e) : ∀ c ∈ power.head?, c.isDigit = false ∧ c ≠ '.' := by
  have hmarks (c : Char) (hc : c = 'e' ∨ c = 'E') : c.isDigit = false ∧ c ≠ '.' := by
    rcases hc with rfl | rfl <;> decide
  cases h with
  | bare hmark => exact fun _ hc => Option.some.inj hc ▸ hmarks _ hmark
  | plus hmark => exact fun _ hc => Option.some.inj hc ▸ hmarks _ hmark
  | minus hmark => exact fun _ hc => Option.some.inj hc ▸ hmarks _ hmark

/-- A numeral has at least one digit. -/
theorem ofChars?_of_nondigit (hrest : ∀ c ∈ rest.head?, c.isDigit = false) :
    Numeral.ofChars? ('.' :: rest) = none ∧
      ((∀ c ∈ rest.head?, c ≠ '.') → Numeral.ofChars? rest = none) := by
  have hnodigit : rest.takeWhile Char.isDigit = [] ∧ rest.dropWhile Char.isDigit = rest := by
    have hrun : ([] ++ rest).takeWhile Char.isDigit = [] ∧
        ([] ++ rest).dropWhile Char.isDigit = rest :=
      Text.takeWhile_run rest (List.forall_mem_nil _) hrest
    rwa [List.nil_append] at hrun
  constructor
  · simp [Numeral.ofChars?, hnodigit]
  · intro hpoint
    cases rest with
    | nil => rfl
    | cons c rest =>
      have hc : c ≠ '.' := hpoint c rfl
      simp [Numeral.ofChars?, hnodigit, hc]

theorem floatingConstant_of_ofChars? (h : Numeral.ofChars? cs = some n)
    (hmark : ∃ c ∈ cs, c = '.' ∨ c = 'e' ∨ c = 'E') : FloatingConstant cs n := by
  have hdigits (ds : List Char) : IsDigits (ds.takeWhile Char.isDigit) :=
    List.all_eq_true.1 List.all_takeWhile
  have hhead (ds : List Char) : ∀ c ∈ (ds.dropWhile Char.isDigit).head?, c.isDigit = false := by
    intro c hc
    have hnot := List.head?_dropWhile_not Char.isDigit ds
    rw [Option.mem_def.1 hc] at hnot
    simpa using hnot
  obtain ⟨whole, after, rfl, hwhole, hafter⟩ : ∃ whole after, cs = whole ++ after ∧
      IsDigits whole ∧ ∀ c ∈ after.head?, c.isDigit = false :=
    ⟨_, _, (List.takeWhile_append_dropWhile ..).symm, hdigits cs, hhead cs⟩
  by_cases hpoint : ∃ more, after = '.' :: more
  · obtain ⟨more, rfl⟩ := hpoint
    obtain ⟨fraction, rest, rfl, hfraction, hrest⟩ : ∃ fraction rest, more = fraction ++ rest ∧
        IsDigits fraction ∧ ∀ c ∈ rest.head?, c.isDigit = false :=
      ⟨_, _, (List.takeWhile_append_dropWhile ..).symm, hdigits more, hhead more⟩
    have hne : whole ≠ [] ∨ fraction ≠ [] := by
      by_contra hempty
      rw [not_or, not_not, not_not] at hempty
      obtain ⟨rfl, rfl⟩ := hempty
      rw [List.nil_append, List.nil_append, (ofChars?_of_nondigit hrest).1] at h
      cases h
    rw [ofChars?_pointed hwhole hfraction hne hrest, ofRest?_eq_some_iff] at h
    rcases h with ⟨rfl, rfl⟩ | ⟨e, hpower, rfl⟩
    · rw [List.append_nil]
      exact .pointed hwhole hfraction hne
    · exact .pointedPower hwhole hfraction hne hpower
  · have hrest : ∀ c ∈ after.head?, c.isDigit = false ∧ c ≠ '.' := by
      intro c hc
      refine ⟨hafter c hc, ?_⟩
      rintro rfl
      exact hpoint ⟨after.tail, (List.cons_head?_tail hc).symm⟩
    have hne : whole ≠ [] := by
      rintro rfl
      rw [List.nil_append, (ofChars?_of_nondigit hafter).2 fun c hc => (hrest c hc).2] at h
      cases h
    rw [ofChars?_unpointed hwhole hne hrest, ofRest?_eq_some_iff] at h
    rcases h with ⟨rfl, rfl⟩ | ⟨e, hpower, rfl⟩
    · -- digits alone have no mark
      obtain ⟨c, hc, hmark⟩ := hmark
      rw [List.append_nil] at hc
      have hdigit := hwhole c hc
      rcases hmark with rfl | rfl | rfl <;> exact absurd hdigit (by decide)
    · exact .wholePower hwhole hne hpower

/-- A numeral is a floating constant exactly if it has a point or a power of ten. -/
theorem floatingConstant_iff : FloatingConstant cs n ↔
    Numeral.ofChars? cs = some n ∧ ∃ c ∈ cs, c = '.' ∨ c = 'e' ∨ c = 'E' := by
  refine ⟨fun h => ?_, fun ⟨h, hmark⟩ => floatingConstant_of_ofChars? h hmark⟩
  cases h with
  | pointed hwhole hfraction hne =>
    refine ⟨?_, '.', by simp, .inl rfl⟩
    have hnone : ∀ c ∈ ([] : List Char).head?, c.isDigit = false := nofun
    have hread := ofChars?_pointed hwhole hfraction hne hnone
    rwa [List.append_nil] at hread
  | pointedPower hwhole hfraction hne hpower =>
    refine ⟨?_, '.', by simp, .inl rfl⟩
    rw [ofChars?_pointed hwhole hfraction hne fun c hc => (head_power hpower c hc).1]
    exact ofRest?_eq_some_iff.2 (.inr ⟨_, hpower, rfl⟩)
  | wholePower hwhole hne hpower =>
    refine ⟨?_, ?_⟩
    · rw [ofChars?_unpointed hwhole hne (head_power hpower)]
      exact ofRest?_eq_some_iff.2 (.inr ⟨_, hpower, rfl⟩)
    · cases hpower with
      | bare hmark => exact ⟨_, by simp, .inr hmark⟩
      | plus hmark => exact ⟨_, by simp, .inr hmark⟩
      | minus hmark => exact ⟨_, by simp, .inr hmark⟩

end Reading

/-! ## Converting -/

section Converting

variable {cs digits : List Char} {n : Numeral} {negative : Bool} {x y : Float} {r : Nat}

theorem splitSign_constant (negative : Bool) (h : FloatingConstant digits n) :
    splitSign (if negative then '-' :: digits else digits) = (negative, digits) := by
  cases negative with
  | false => exact splitSign_of_ofChars? (floatingConstant_iff.1 h).1
  | true => rfl

theorem isFinite_of_view (h : view x = .finite negative r) : x.isFinite = true := by
  have hrank : x.toBits.toBitVec.toNat % Nat.pow 2 63 < infinityRank := by
    unfold view viewBits at h
    dsimp only at h
    split at h
    · assumption
    · split at h <;> cases h
  have hexponent : @Float.Model.UnpackedFloat.unpackExponent .binary64 x.toBits.toBitVec ≠
      -1#11 := by
    intro heq
    have hones : 2047 = x.toBits.toBitVec.toNat / 2 ^ 52 % 2 ^ 11 :=
      (congrArg BitVec.toNat heq).symm.trans (toNat_exponent _)
    have hinfinity : infinityRank = 2047 * 2 ^ 52 := rfl
    rw [show Nat.pow 2 63 = 2 ^ 63 from rfl] at hrank
    omega
  show (Float.Model.UnpackedFloat.unpack .binary64 x.toBits.toBitVec).isFinite = true
  delta Float.Model.UnpackedFloat.unpack
  dsimp only
  rw [if_neg hexponent]
  by_cases hfirst : @Float.Model.UnpackedFloat.unpackExponent .binary64 x.toBits.toBitVec = 0#11
  · rw [if_pos hfirst]
    by_cases hempty :
        @Float.Model.UnpackedFloat.unpackMantissa .binary64 x.toBits.toBitVec = 0#52
    · rw [dif_pos hempty]
      rfl
    · rw [dif_neg hempty]
      rfl
  · rw [if_neg hfirst]
    rfl

/-- No constant is converted to an infinity. -/
theorem Converts.isFinite (h : Converts cs x) : x.isFinite = true := by
  obtain ⟨negative, digits, n, r, -, -, hview, -⟩ := h
  exact isFinite_of_view hview

/-- What a constant is converted to is determined. -/
theorem Converts.unique (hx : Converts cs x) (hy : Converts cs y) : x = y := by
  obtain ⟨negative, digits, n, r, hcs, hconstant, hview, hnearest⟩ := hx
  obtain ⟨negative', digits', n', r', hcs', hconstant', hview', hnearest'⟩ := hy
  have hsplit : (negative, digits) = (negative', digits') := by
    rw [← splitSign_constant negative hconstant, ← hcs, hcs',
      splitSign_constant negative' hconstant']
  obtain ⟨rfl, rfl⟩ := Prod.mk.inj hsplit
  obtain rfl : n = n' := Option.some.inj
    ((floatingConstant_iff.1 hconstant).1.symm.trans (floatingConstant_iff.1 hconstant').1)
  obtain rfl := hnearest.unique hnearest'
  rw [← ofRank_of_view (isFinite_of_view hview) hview,
    ← ofRank_of_view (isFinite_of_view hview') hview']

theorem Converts.literal (hx : x.isFinite = true) :
    Converts (Spelling.literal.text x).toList x := by
  obtain ⟨negative, r, hview⟩ := view_of_isFinite hx
  have hr := lt_infinityRank_of_view hview
  obtain ⟨n, hn, hrank⟩ := rank_writeMagnitude .literal rfl rfl hr negative
  obtain ⟨c, hc, hmark⟩ := mark_literal r
  have hconstant : FloatingConstant (Spelling.literal.writeMagnitude r) n :=
    floatingConstant_iff.2 ⟨hn, c, hc, hmark.imp_right .inl⟩
  refine ⟨negative, _, n, r, ?_, hconstant, hview, hrank ▸ Decimal.nearest_rank _⟩
  rw [Spelling.text, String.toList_ofList, Spelling.chars, hview]

/-- Only the literals of finite doubles are constants. -/
theorem isFinite_of_converts (h : Converts (Spelling.literal.text y).toList x) :
    y.isFinite = true := by
  obtain ⟨negative, digits, n, r, hcs, hconstant, -, -⟩ := h
  have hsplit := splitSign_constant negative hconstant
  rw [← hcs, Spelling.text, String.toList_ofList, Spelling.chars] at hsplit
  cases hview : view y with
  | finite negative r => exact isFinite_of_view hview
  | infinite negative' =>
    have hnone : digits = ['i', 'n', 'f'] := by
      rw [hview] at hsplit
      cases negative' <;> exact (Prod.mk.inj hsplit).2.symm
    have hread := (floatingConstant_iff.1 hconstant).1
    rw [hnone] at hread
    cases hread
  | nan =>
    have hnone : digits = ['N', 'a', 'N'] := by
      rw [hview] at hsplit
      exact (Prod.mk.inj hsplit).2.symm
    have hread := (floatingConstant_iff.1 hconstant).1
    rw [hnone] at hread
    cases hread

/-- The literal of a finite double is a floating constant, with a minus before it or not. It is
converted to that double and to no other, sign of zero included, and it is the literal of no
other. -/
theorem literal_lossless (hx : x.isFinite = true) (y : Float) :
    (Converts (Spelling.literal.text x).toList y ↔ y = x) ∧
      (Spelling.literal.text y = Spelling.literal.text x ↔ y = x) := by
  have hliteral := Converts.literal hx
  refine ⟨⟨fun h => h.unique hliteral, fun h => h ▸ hliteral⟩, fun h => ?_, fun h => h ▸ rfl⟩
  rw [← h] at hliteral
  exact (Converts.literal (isFinite_of_converts hliteral)).unique hliteral

/-- The smallest positive double and its literal. -/
theorem literal_lossless_smallest : (Float.ofBits 1).isFinite = true ∧
    Spelling.literal.text (Float.ofBits 1) = "5e-324" ∧
    Converts "5e-324".toList (Float.ofBits 1) := by
  have hfinite : (Float.ofBits 1).isFinite = true := by decide +kernel
  have htext : Spelling.literal.text (Float.ofBits 1) = "5e-324" := by decide +kernel
  refine ⟨hfinite, htext, ?_⟩
  rw [← htext]
  exact (literal_lossless hfinite _).1.2 rfl

end Converting

end Number
end LtiUnit
