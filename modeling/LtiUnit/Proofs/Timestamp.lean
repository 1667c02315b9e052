import LtiUnit.Identity.Calendar
import LtiUnit.Proofs.PlainText
import Mathlib.Algebra.Order.Group.Nat
import Mathlib.Data.List.GetD
import Mathlib.Data.List.Lex
import Mathlib.Tactic.IntervalCases

/-!
# LtiUnit.Proofs.Timestamp

The text of an instant is the right date of the Gregorian calendar, for every year.

The calendar is stated by what it says of leap years and months (`Leap`, `daysIn`) and by the days
that go by before a year (`daysBefore`, in closed form), so that a date and a time of day stand for
a number of seconds (`Stamp.seconds`). Walking over years and months is then taking off days one
span after the other (`findYear_eq`, `findMonth_eq`). Padding all numbers but the year to one length
makes the order of texts that of the fields, and that of the instants (`Stamp.Valid.text_lt`,
`Stamp.Valid.fields_lt_iff`).

* `Stamp.ofSeconds_spec` — the stamp of an instant is a date that stands for the instant.
* `Stamp.Valid.ofText?_text` — its text is read back.
* `text_timestamp` — what the text of an instant says, and its order.
-/

namespace LtiUnit
namespace Calendar

/-! ## The Gregorian calendar -/

/-- Every fourth year is a leap year, but of the years that end a century only every fourth. -/
def Leap (year : Nat) : Prop := 4 ∣ year ∧ (100 ∣ year → 400 ∣ year)

instance (year : Nat) : Decidable (Leap year) := by unfold Leap; infer_instance

/-- The days of a month, counted from one. -/
def daysIn (year : Nat) : Nat → Nat
  | 2 => if Leap year then 29 else 28
  | 4 | 6 | 9 | 11 => 30
  | _ => 31

/-- The days from the first of January of the year one to that of `year`. -/
def daysBefore (year : Nat) : Nat :=
  365 * (year - 1) + (year - 1) / 4 - (year - 1) / 100 + (year - 1) / 400

/-- The days of a year before the first of a month. -/
def daysBeforeMonth (year month : Nat) : Nat :=
  ((List.range (month - 1)).map fun i => daysIn year (i + 1)).sum

namespace Stamp

/-- A date of the calendar and a time of day. -/
structure Valid (s : Stamp) : Prop where
  year : 1970 ≤ s.year
  month : 1 ≤ s.month ∧ s.month ≤ 12
  day : 1 ≤ s.day ∧ s.day ≤ daysIn s.year s.month
  hour : s.hour < 24
  minute : s.minute < 60
  second : s.second < 60

/-- The days from the first of January 1970. -/
def days (s : Stamp) : Int :=
  daysBefore s.year + daysBeforeMonth s.year s.month + (s.day - 1) - daysBefore 1970

/-- The seconds since the start of 1970. -/
def seconds (s : Stamp) : Int :=
  s.days * 86400 + s.hour * 3600 + s.minute * 60 + s.second

end Stamp

/-! ## Years -/

theorem isLeap_iff {year : Nat} : isLeap year = true ↔ Leap year := by
  simp only [isLeap, Leap, Bool.and_eq_true, Bool.or_eq_true, beq_iff_eq, bne_iff_ne,
    Nat.dvd_iff_mod_eq_zero]
  omega

theorem yearLength_eq (year : Nat) : yearLength year = if Leap year then 366 else 365 := by
  simp only [yearLength, isLeap_iff]

theorem daysBefore_succ {year : Nat} (h : 1 ≤ year) :
    daysBefore (year + 1) = daysBefore year + yearLength year := by
  obtain ⟨n, rfl⟩ := Nat.exists_eq_add_of_le' h
  have h4 := Nat.succ_div (a := n) (b := 4)
  have h100 := Nat.succ_div (a := n) (b := 100)
  have h400 := Nat.succ_div (a := n) (b := 400)
  have hle : n / 100 ≤ n / 4 := Nat.div_le_div_left (by decide) (by decide)
  have hcentury : 400 ∣ n + 1 → 100 ∣ n + 1 := Nat.dvd_trans (by decide)
  have hfour : 100 ∣ n + 1 → 4 ∣ n + 1 := Nat.dvd_trans (by decide)
  rw [yearLength_eq]
  simp only [daysBefore, Leap, Nat.add_sub_cancel, h4, h100, h400]
  generalize n / 4 = fours at *
  generalize n / 100 = centuries at *
  generalize n / 400 = cycles at *
  by_cases d400 : 400 ∣ n + 1
  · simp only [d400, hcentury d400, hfour (hcentury d400), if_true, implies_true, and_self]
    omega
  · by_cases d100 : 100 ∣ n + 1
    · simp only [d400, d100, hfour d100, if_true, if_false, true_implies, and_false]
      omega
    · by_cases d4 : 4 ∣ n + 1
      · simp only [d400, d100, d4, if_true, if_false, false_implies, and_self]
        omega
      · simp only [d400, d100, d4, if_false, false_and]
        omega

/-- Whole years are taken off until what is left falls in one. -/
theorem findYear_eq {year days year' days' : Nat} (h : 1 ≤ year)
    (hfind : findYear year days = (year', days')) :
    year ≤ year' ∧ days' < yearLength year' ∧
      daysBefore year + days = daysBefore year' + days' := by
  induction year, days using findYear.induct with
  | case1 year days hlt =>
    rw [findYear, if_pos hlt] at hfind
    cases hfind
    exact ⟨Nat.le_refl _, hlt, rfl⟩
  | case2 year days hlt ih =>
    rw [findYear, if_neg hlt] at hfind
    obtain ⟨hyear, hdays, hsum⟩ := ih (by omega) hfind
    have hsucc := daysBefore_succ h
    exact ⟨by omega, hdays, by omega⟩

/-! ## Months -/

/-- Whole months are taken off until what is left falls in one. -/
theorem findMonth_eq (month : Nat) {days : Nat} {lengths : List Nat} (h : days < lengths.sum) :
    ∃ k, k < lengths.length ∧ (findMonth month days lengths).1 = month + k ∧
      (findMonth month days lengths).2 < lengths.getD k 0 ∧
      days = (lengths.take k).sum + (findMonth month days lengths).2 := by
  induction lengths generalizing month days with
  | nil => simp at h
  | cons length more ih =>
    by_cases hlt : days < length
    · have hfind : findMonth month days (length :: more) = (month, days) := by
        cases more with
        | nil => rfl
        | cons next more => rw [findMonth, if_pos hlt]; simp
      exact ⟨0, Nat.succ_pos _, by rw [hfind]; rfl, by rw [hfind]; exact hlt, by rw [hfind]; simp⟩
    · cases more with
      | nil =>
        simp only [List.sum_cons, List.sum_nil] at h
        omega
      | cons next more =>
        have hfind : findMonth month days (length :: next :: more) =
            findMonth (month + 1) (days - length) (next :: more) := by
          rw [findMonth, if_neg hlt]
          simp
        rw [List.sum_cons] at h
        have hrest : days - length < (next :: more).sum := by omega
        obtain ⟨k, hk, hmonth, hday, hsum⟩ := ih (month + 1) hrest
        rw [hfind]
        refine ⟨k + 1, Nat.succ_lt_succ hk, ?_, ?_, ?_⟩
        · rw [hmonth]
          omega
        · rw [List.getD_cons_succ]
          exact hday
        · rw [List.take_succ_cons, List.sum_cons]
          omega

theorem length_monthLengths (year : Nat) : (monthLengths year).length = 12 := rfl

theorem getD_monthLengths (year : Nat) {k : Nat} (h : k < 12) :
    (monthLengths year).getD k 0 = daysIn year (k + 1) := by
  simp only [monthLengths, isLeap_iff]
  interval_cases k <;> rfl

theorem sum_monthLengths (year : Nat) : (monthLengths year).sum = yearLength year := by
  unfold monthLengths yearLength
  cases isLeap year <;> rfl

theorem sum_take_monthLengths (year : Nat) {k : Nat} (h : k ≤ 12) :
    ((monthLengths year).take k).sum = daysBeforeMonth year (k + 1) := by
  have htake : (monthLengths year).take k = (List.range k).map fun i => daysIn year (i + 1) := by
    refine List.ext_getElem ?_ fun i hi _ => ?_
    · rw [List.length_take, length_monthLengths, List.length_map, List.length_range]
      omega
    · rw [List.length_take, length_monthLengths] at hi
      have hi' : i < (monthLengths year).length := by
        rw [length_monthLengths]
        omega
      rw [List.getElem_take, List.getElem_map, List.getElem_range, ← getD_monthLengths year
        (by omega), List.getD_eq_getElem _ _ hi']
  rw [htake]
  rfl

/-! ## Instants -/

namespace Stamp

/-- The date of an instant is a date, and the instant is the only one that it stands for. -/
theorem ofSeconds_spec (n : Nat) : (ofSeconds n).Valid ∧ (ofSeconds n).seconds = n := by
  obtain ⟨year, rest, hyear⟩ : ∃ year rest, findYear 1970 (n / 86400) = (year, rest) := ⟨_, _, rfl⟩
  obtain ⟨hle, hrest, hdays⟩ := findYear_eq (by decide) hyear
  have hspan : rest < (monthLengths year).sum := by
    rw [sum_monthLengths]
    exact hrest
  obtain ⟨k, hk, hmonth, hday, hsum⟩ := findMonth_eq 1 hspan
  obtain ⟨month, day, hfind⟩ : ∃ month day, findMonth 1 rest (monthLengths year) = (month, day) :=
    ⟨_, _, rfl⟩
  rw [length_monthLengths] at hk
  rw [hfind] at hmonth hday hsum
  rw [getD_monthLengths year hk] at hday
  rw [sum_take_monthLengths year (Nat.le_of_lt hk)] at hsum
  simp only at hmonth hday hsum
  obtain rfl : month = k + 1 := by omega
  have hstamp : ofSeconds n = ⟨year, k + 1, day + 1, n % 86400 / 3600, n % 86400 % 3600 / 60,
      n % 86400 % 60⟩ := by
    simp only [ofSeconds, hyear, hfind]
  rw [hstamp]
  constructor
  · constructor <;> simp only
    · exact hle
    · omega
    · omega
    · omega
    · omega
    · omega
  · simp only [seconds, days]
    omega

/-! ## The order of dates -/

/-- The numbers of a stamp from the year down to the second. -/
def fields (s : Stamp) : List Nat := [s.year, s.month, s.day, s.hour, s.minute, s.second]

theorem daysBeforeMonth_succ (year : Nat) {month : Nat} (h : 1 ≤ month) :
    daysBeforeMonth year (month + 1) = daysBeforeMonth year month + daysIn year month := by
  obtain ⟨k, rfl⟩ := Nat.exists_eq_add_of_le' h
  simp only [daysBeforeMonth, Nat.add_sub_cancel, List.range_succ, List.map_append,
    List.sum_append, List.map_cons, List.map_nil, List.sum_cons, List.sum_nil, Nat.add_zero]

theorem daysBeforeMonth_add_le (year : Nat) {month month' : Nat} (h : 1 ≤ month)
    (hlt : month < month') :
    daysBeforeMonth year month + daysIn year month ≤ daysBeforeMonth year month' := by
  induction month', hlt using Nat.le_induction with
  | base => rw [daysBeforeMonth_succ year h]
  | succ month' hle ih =>
    rw [daysBeforeMonth_succ year (by omega)]
    omega

theorem daysBefore_add_le {year year' : Nat} (h : 1 ≤ year) (hlt : year < year') :
    daysBefore year + yearLength year ≤ daysBefore year' := by
  induction year', hlt using Nat.le_induction with
  | base => rw [daysBefore_succ h]
  | succ year' hle ih =>
    rw [daysBefore_succ (by omega)]
    omega

/-- A day of a year comes before the end of the year. -/
theorem Valid.day_le {s : Stamp} (hs : s.Valid) :
    daysBeforeMonth s.year s.month + s.day ≤ yearLength s.year := by
  have hyear : daysBeforeMonth s.year 13 = yearLength s.year := by
    rw [← sum_monthLengths, ← sum_take_monthLengths s.year (Nat.le_refl 12)]
    rfl
  have hmonth := hs.month
  have hday := hs.day
  have hle := daysBeforeMonth_add_le s.year hmonth.1 (show s.month < 13 by omega)
  omega

theorem Valid.seconds_lt {s t : Stamp} (hs : s.Valid) (ht : t.Valid) (h : s.fields < t.fields) :
    s.seconds < t.seconds := by
  obtain ⟨hsy, hsm, hsd, hsh, hsi, hss⟩ := hs
  obtain ⟨hty, htm, htd, hth, hti, hts⟩ := ht
  have hend := Valid.day_le ⟨hsy, hsm, hsd, hsh, hsi, hss⟩
  simp only [fields, List.cons_lt_cons_iff, List.not_lt_nil, and_false, or_false] at h
  simp only [seconds, days]
  rcases h with hyear | ⟨hyear, hmonth | ⟨hmonth, h⟩⟩
  · have := daysBefore_add_le (by omega) hyear
    omega
  · have := daysBeforeMonth_add_le s.year hsm.1 hmonth
    rw [← hyear]
    omega
  · rw [← hyear, ← hmonth]
    omega

theorem eq_of_fields {s t : Stamp} (h : s.fields = t.fields) : s = t := by
  cases s
  cases t
  simpa [fields] using h

theorem Valid.fields_lt_iff {s t : Stamp} (hs : s.Valid) (ht : t.Valid) :
    s.fields < t.fields ↔ s.seconds < t.seconds := by
  refine ⟨hs.seconds_lt ht, fun h => ?_⟩
  rcases lt_trichotomy s.fields t.fields with hlt | heq | hgt
  · exact hlt
  · rw [eq_of_fields heq] at h
    exact absurd h (Int.lt_irrefl _)
  · exact absurd (ht.seconds_lt hs hgt) (by omega)

end Stamp

/-! ## Padded numbers -/

theorem toList_padded (width n : Nat) : (padded width n).toList =
    List.replicate (width - (Nat.toDigits 10 n).length) '0' ++ Nat.toDigits 10 n := by
  rw [padded, String.toList_ofList]

theorem isDigit_padded {width n : Nat} : ∀ c ∈ (padded width n).toList, c.isDigit = true := by
  intro c hc
  rw [toList_padded] at hc
  rcases List.mem_append.1 hc with hc | hc
  · rw [(List.mem_replicate.1 hc).2]
    rfl
  · exact Nat.isDigit_of_mem_toDigits (by decide) (by decide) hc

theorem width_le_length_padded (width n : Nat) : width ≤ (padded width n).toList.length := by
  rw [toList_padded, List.length_append, List.length_replicate]
  omega

theorem length_padded {width n : Nat} (hwidth : 0 < width) (h : n < 10 ^ width) :
    (padded width n).toList.length = width := by
  have hdigits := (Nat.length_toDigits_le_iff (b := 10) (by decide) hwidth).2 h
  rw [toList_padded, List.length_append, List.length_replicate]
  omega

/-- Zeros in front of the digits of a number are read as nothing. -/
theorem ofDigits?_padded (width n : Nat) :
    Number.ofDigits? 10 (padded width n).toList = some n := by
  have hzeros (k : Nat) : Nat.ofDigitChars 10 (List.replicate k '0') 0 = 0 := by
    induction k with
    | zero => rfl
    | succ k ih => rw [List.replicate_succ]; exact ih
  rw [Number.ofDigits?, Text.appendDigits?_eq isDigit_padded, toList_padded,
    Nat.ofDigitChars_append, hzeros, Nat.ofDigitChars_ten_toDigits]

theorem padded_one {n : Nat} (h : n < 10) : (padded 1 n).toList = [Nat.digitChar n] := by
  rw [toList_padded, Nat.toDigits_of_lt_base h]
  rfl

/-- The last digit is that of the rest of the division by ten. -/
theorem padded_succ {width : Nat} (hwidth : 0 < width) (n : Nat) :
    (padded (width + 1) n).toList = (padded width (n / 10)).toList ++ [Nat.digitChar (n % 10)] := by
  rw [toList_padded, toList_padded]
  by_cases h : n < 10
  · rw [Nat.toDigits_of_lt_base h, Nat.div_eq_of_lt h, Nat.mod_eq_of_lt h]
    obtain ⟨zeros, rfl⟩ := Nat.exists_eq_add_of_le' hwidth
    simp [List.replicate_succ']
  · rw [Nat.toDigits_of_base_le (by decide) (Nat.le_of_not_lt h)]
    simp

theorem padded_two {n : Nat} (h : n < 100) :
    (padded 2 n).toList = [Nat.digitChar (n / 10), Nat.digitChar (n % 10)] := by
  rw [padded_succ (by decide), padded_one (by omega)]
  rfl

theorem append_lt_append {p q : List Char} (hlength : p.length = q.length) (h : p < q)
    (x y : List Char) : p ++ x < q ++ y := by
  induction p generalizing q with
  | nil =>
    rw [List.length_eq_zero_iff.1 hlength.symm] at h
    exact absurd h (List.not_lt_nil _)
  | cons c p ih =>
    cases q with
    | nil => cases hlength
    | cons d q =>
      rw [List.cons_append, List.cons_append, List.cons_lt_cons_iff]
      rcases List.cons_lt_cons_iff.1 h with hlt | ⟨heq, hlt⟩
      · exact .inl hlt
      · exact .inr ⟨heq, ih (Nat.succ.inj hlength) hlt⟩

/-- Of numbers padded to one length the smaller one comes first. -/
theorem padded_lt {width m n : Nat} (hwidth : 0 < width) (hmn : m < n) (hn : n < 10 ^ width) :
    (padded width m).toList < (padded width n).toList := by
  have hdigit : ∀ n < 10, ∀ m < n, Nat.digitChar m < Nat.digitChar n := by decide
  induction width, hwidth using Nat.le_induction generalizing m n with
  | base =>
    rw [padded_one (by omega), padded_one (by omega), List.cons_lt_cons_iff]
    exact .inl (hdigit n (by omega) m hmn)
  | succ width hle ih =>
    rw [padded_succ hle, padded_succ hle]
    rw [Nat.pow_succ] at hn
    have hlast := hdigit (n % 10) (by omega) (m % 10)
    rcases Nat.lt_or_ge (m / 10) (n / 10) with hlt | hge
    · refine append_lt_append ?_ (ih hlt (by omega)) _ _
      rw [length_padded hle (by omega), length_padded hle (by omega)]
    · have heq : m / 10 = n / 10 := by omega
      rw [heq]
      refine List.append_left_lt ?_
      rw [List.cons_lt_cons_iff]
      exact .inl (hlast (by omega))

/-- What follows a number is looked at only when the numbers are the same. -/
theorem padded_append_lt {width m n : Nat} (hwidth : 0 < width) (hm : m < 10 ^ width)
    (hn : n < 10 ^ width) {x y : List Char} (h : m < n ∨ m = n ∧ x < y) :
    (padded width m).toList ++ x < (padded width n).toList ++ y := by
  rcases h with hlt | ⟨rfl, hxy⟩
  · refine append_lt_append ?_ (padded_lt hwidth hlt hn) x y
    rw [length_padded hwidth hm, length_padded hwidth hn]
  · exact List.append_left_lt hxy

/-! ## Texts -/

namespace Stamp

/-- The stamp that is written as four or more digits of the year and two of everything else. -/
def ofText? (text : String) : Option Stamp :=
  let year := text.toList.takeWhile Char.isDigit
  if year.length < 4 then none
  else
    match text.toList.drop year.length with
    | ['-', m₁, m₀, '-', d₁, d₀, 'T', h₁, h₀, ':', i₁, i₀, ':', s₁, s₀, 'Z'] => do
      return {
        year := ← Number.ofDigits? 10 year
        month := ← Number.ofDigits? 10 [m₁, m₀]
        day := ← Number.ofDigits? 10 [d₁, d₀]
        hour := ← Number.ofDigits? 10 [h₁, h₀]
        minute := ← Number.ofDigits? 10 [i₁, i₀]
        second := ← Number.ofDigits? 10 [s₁, s₀] }
    | _ => none

theorem toList_text (s : Stamp) : s.text.toList =
    (padded 4 s.year).toList ++ '-' :: ((padded 2 s.month).toList ++
      '-' :: ((padded 2 s.day).toList ++ 'T' :: ((padded 2 s.hour).toList ++
        ':' :: ((padded 2 s.minute).toList ++ ':' :: ((padded 2 s.second).toList ++ ['Z']))))) := by
  simp [text]

variable {s t : Stamp}

theorem Valid.lt_hundred (hs : s.Valid) : s.month < 100 ∧ s.day < 100 := by
  have hmonth := hs.month
  have hday := hs.day
  have hdays : daysIn s.year s.month ≤ 31 := by
    unfold daysIn
    split <;> (try split) <;> omega
  omega

theorem Valid.ofText?_text (hs : s.Valid) : ofText? s.text = some s := by
  have hyear : s.text.toList.takeWhile Char.isDigit = (padded 4 s.year).toList := by
    rw [toList_text, List.takeWhile_append_of_pos isDigit_padded]
    simp
  have hlength : ¬(padded 4 s.year).toList.length < 4 :=
    Nat.not_lt.2 (width_le_length_padded 4 s.year)
  have htwo {n : Nat} (h : n < 100) :
      Number.ofDigits? 10 [Nat.digitChar (n / 10), Nat.digitChar (n % 10)] = some n := by
    rw [← padded_two h, ofDigits?_padded]
  obtain ⟨hmonth, hday⟩ := hs.lt_hundred
  have hhour : s.hour < 100 := Nat.lt_trans hs.hour (by decide)
  have hminute : s.minute < 100 := Nat.lt_trans hs.minute (by decide)
  have hsecond : s.second < 100 := Nat.lt_trans hs.second (by decide)
  unfold ofText?
  simp only [hyear]
  rw [if_neg hlength, toList_text, List.drop_left, padded_two hmonth, padded_two hday,
    padded_two hhour, padded_two hminute, padded_two hsecond]
  simp only [List.cons_append, List.nil_append, ofDigits?_padded, htwo hmonth, htwo hday,
    htwo hhour, htwo hminute, htwo hsecond, Option.bind_eq_bind, Option.bind_some, Option.pure_def]

theorem Valid.text_lt (hs : s.Valid) (ht : t.Valid) (hyear : t.year ≤ 9999)
    (h : s.fields < t.fields) : s.text < t.text := by
  obtain ⟨hsmonth, hsday⟩ := hs.lt_hundred
  obtain ⟨htmonth, htday⟩ := ht.lt_hundred
  have hshour := hs.hour
  have hthour := ht.hour
  have hsminute := hs.minute
  have htminute := ht.minute
  have hssecond := hs.second
  have htsecond := ht.second
  rw [String.lt_iff, toList_text, toList_text]
  simp only [fields, List.cons_lt_cons_iff, List.not_lt_nil, and_false, or_false] at h
  have hmark {c : Char} {x y : List Char} (hxy : x < y) : c :: x < c :: y :=
    List.cons_lt_cons_iff.2 (.inr ⟨rfl, hxy⟩)
  refine padded_append_lt (by decide) (by omega) (by omega) (h.imp_right (.imp_right fun h => ?_))
  refine hmark (padded_append_lt (by decide) hsmonth htmonth
    (h.imp_right (.imp_right fun h => ?_)))
  refine hmark (padded_append_lt (by decide) hsday htday (h.imp_right (.imp_right fun h => ?_)))
  refine hmark (padded_append_lt (by decide) (by omega) (by omega)
    (h.imp_right (.imp_right fun h => ?_)))
  refine hmark (padded_append_lt (by decide) (by omega) (by omega)
    (h.imp_right (.imp_right fun h => ?_)))
  exact hmark (padded_append_lt (by decide) (by omega) (by omega) (.inl h))

end Stamp

/-! ## Instants and their texts -/

theorem text_of_nonneg {s : Int} (h : 0 ≤ s) :
    ∃ stamp : Stamp, stamp.Valid ∧ stamp.seconds = s ∧ text s = stamp.text := by
  obtain ⟨hvalid, hseconds⟩ := Stamp.ofSeconds_spec s.toNat
  rw [Int.toNat_of_nonneg h] at hseconds
  exact ⟨_, hvalid, hseconds, rfl⟩

theorem ofSeconds_zero : Stamp.ofSeconds 0 = ⟨1970, 1, 1, 0, 0, 0⟩ := by
  rw [Stamp.ofSeconds, findYear]
  rfl

/-- The text of an instant from 1970 on is that of a date of the Gregorian calendar and a time of
day, which the instant is the only one to have. Up to the year 9999 later instants have later
texts, and what comes before 1970 has the text of its start. -/
theorem text_timestamp :
    (∀ s : Int, 0 ≤ s → ∃ stamp : Stamp, Stamp.ofText? (text s) = some stamp ∧ stamp.Valid ∧
      stamp.seconds = s) ∧
    (∀ s t : Int, 0 ≤ s → 0 ≤ t → text s = text t → s = t) ∧
    (∀ (s t : Int) (stamp : Stamp), 0 ≤ s → s < t → Stamp.ofText? (text t) = some stamp →
      stamp.year ≤ 9999 → text s < text t) ∧
    ∀ s : Int, s ≤ 0 → text s = "1970-01-01T00:00:00Z" := by
  refine ⟨fun s hs => ?_, fun s t hs ht h => ?_, fun s t stamp hs hst hstamp hyear => ?_,
    fun s hs => ?_⟩
  · obtain ⟨stamp, hvalid, hseconds, htext⟩ := text_of_nonneg hs
    exact ⟨stamp, by rw [htext, hvalid.ofText?_text], hvalid, hseconds⟩
  · obtain ⟨stamp, hvalid, hseconds, htext⟩ := text_of_nonneg hs
    obtain ⟨stamp', hvalid', hseconds', htext'⟩ := text_of_nonneg ht
    have hread := hvalid.ofText?_text
    rw [← htext, h, htext', hvalid'.ofText?_text] at hread
    cases hread
    exact hseconds.symm.trans hseconds'
  · obtain ⟨earlier, hvalid, hseconds, htext⟩ := text_of_nonneg hs
    obtain ⟨later, hvalid', hseconds', htext'⟩ := text_of_nonneg (by omega : 0 ≤ t)
    rw [htext', hvalid'.ofText?_text] at hstamp
    cases hstamp
    rw [htext, htext']
    refine hvalid.text_lt hvalid' hyear ((hvalid.fields_lt_iff hvalid').2 ?_)
    rw [hseconds, hseconds']
    exact hst
  · have hzero : s.toNat = 0 := by omega
    rw [text, hzero, ofSeconds_zero]
    rfl

/-- The last second of a leap day, the one after it, and an instant before 1970. -/
theorem text_timestamp_leapDay :
    (∃ stamp : Stamp, Stamp.ofText? (text 951868799) = some stamp ∧ stamp.Valid ∧
      stamp.seconds = 951868799) ∧
    Stamp.ofText? (text 951868800) = some ⟨2000, 3, 1, 0, 0, 0⟩ ∧
    text 951868799 ≠ text 951868800 ∧ text 951868799 < text 951868800 ∧
    text (-1) = "1970-01-01T00:00:00Z" := by
  obtain ⟨hdate, hinjective, hmonotone, hbefore⟩ := text_timestamp
  have hmarch : Stamp.ofText? (text 951868800) = some ⟨2000, 3, 1, 0, 0, 0⟩ := by decide +kernel
  refine ⟨hdate 951868799 (by decide), hmarch, fun h => ?_, ?_, hbefore (-1) (by decide)⟩
  · exact absurd (hinjective 951868799 951868800 (by decide) (by decide) h) (by decide)
  · exact hmonotone 951868799 951868800 _ (by decide) (by decide) hmarch (by decide)

end Calendar
end LtiUnit
