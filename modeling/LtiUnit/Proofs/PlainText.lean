import LtiUnit.Identity
import LtiUnit.Number.Spelling
import LtiUnit.Proofs.ByteOrder

/-!
# LtiUnit.Proofs.PlainText

What the texts are made of that go into generated files: names, identifiers, times and numbers hold
letters, digits and four marks (`IsPlain`), so they can stand in a line, in a quoted value or in an
initializer without ending it. Decimal numbers are read back (`decimal?_toString`). The characters
of a text are read off its bytes where each stands for one (`toList_eq_ascii`).
-/

namespace LtiUnit
namespace Text

/-! ## Characters by their bytes

Decoding looks up every byte by its place, so its cost grows with the square of the length. Where
each byte stands for one character, the list of the bytes has the characters in order. -/

/-- Whether each byte of a text stands for a character. -/
def isAscii (s : String) : Bool := (bytes s).all (· < 128)

/-- The characters of a text each of whose bytes stands for one. -/
def ascii (s : String) : List Char := (bytes s).map Char.ofUInt8

/-- The first byte of a character from 128 on is not below 128. -/
theorem map_ofUInt8_encoded {c : Char} (h : ∀ b ∈ String.utf8EncodeChar c, b < 128) :
    (String.utf8EncodeChar c).map Char.ofUInt8 = [c] := by
  have hvalid : c.toNat < 0x110000 := by
    rcases c.valid with h | h
    · exact Nat.lt_trans h (by decide)
    · exact h.2
  rw [encode_eq] at h ⊢
  by_cases hc : c.toNat ≤ 127
  · have hdigits : digits c.toNat = [c.toNat] := if_pos hc
    rw [hdigits, List.map_singleton, List.map_singleton, List.singleton_inj]
    have hcode : (Char.ofUInt8 (UInt8.ofNat c.toNat)).val = (UInt8.ofNat c.toNat).toUInt32 := rfl
    refine Char.ext (UInt32.toNat_inj.1 ?_)
    rw [hcode]
    simp
    omega
  · exfalso
    revert h
    unfold digits
    simp only [if_neg hc, UInt8.lt_iff_toNat_lt]
    split
    · simp
      omega
    · split
      · simp
        omega
      · simp
        omega

theorem toList_eq_ascii {s : String} (h : isAscii s = true) : s.toList = ascii s := by
  rw [isAscii, bytes_eq, List.all_eq_true] at h
  rw [ascii, bytes_eq, List.map_flatMap]
  generalize s.toList = cs at h ⊢
  induction cs with
  | nil => rfl
  | cons c cs ih =>
    rw [List.flatMap_cons, List.forall_mem_append] at h
    rw [List.flatMap_cons, map_ofUInt8_encoded fun b hb => of_decide_eq_true (h.1 b hb), ← ih h.2]
    rfl

/-- The characters of a text, without decoding where there is nothing to decode. -/
def characters (s : String) : List Char := if isAscii s then ascii s else s.toList

theorem characters_eq (s : String) : characters s = s.toList := by
  unfold characters
  split
  · rename_i h
    exact (toList_eq_ascii h).symm
  · rfl

/-! ## Classes of characters -/

/-- Whether all characters of a text have a property. -/
def Only (p : Char → Bool) (s : String) : Prop := ∀ c ∈ s.toList, p c = true

instance (p : Char → Bool) (s : String) : Decidable (Only p s) :=
  decidable_of_iff ((characters s).all p = true) (by rw [characters_eq, Only, List.all_eq_true])

@[simp] theorem only_append {p : Char → Bool} {s t : String} :
    Only p (s ++ t) ↔ Only p s ∧ Only p t := by
  simp [Only, or_imp, forall_and]

@[simp] theorem only_ofList {p : Char → Bool} {cs : List Char} :
    Only p (String.ofList cs) ↔ ∀ c ∈ cs, p c = true := by
  simp [Only]

/-- A text that is written out, by its characters. -/
theorem only_chars {p : Char → Bool} {cs : List Char} (h : cs.all p = true) :
    Only p (String.ofList cs) :=
  only_ofList.2 (List.all_eq_true.1 h)

theorem Only.mono {p q : Char → Bool} {s : String} (h : Only p s)
    (hpq : ∀ c, p c = true → q c = true) : Only q s :=
  fun c hc => hpq c (h c hc)

theorem Only.not_mem {p : Char → Bool} {s : String} (h : Only p s) {c : Char} (hc : p c = false) :
    c ∉ s.toList :=
  fun hmem => by rw [h c hmem] at hc; cases hc

theorem only_separated {p : Char → Bool} {separator : String} (hs : Only p separator)
    {texts : List String} (h : ∀ s ∈ texts, Only p s) : Only p (separated separator texts) := by
  unfold separated
  induction texts with
  | nil => simp [Only]
  | cons s texts ih =>
    have ih := ih fun t ht => h t (List.mem_cons_of_mem _ ht)
    have hhead := h s (List.mem_cons_self ..)
    cases texts with
    | nil => rwa [String.intercalate_singleton]
    | cons t texts =>
      rw [String.intercalate_cons_cons, only_append, only_append]
      exact ⟨⟨hhead, hs⟩, ih⟩

/-- Characters of a class, with none of it after them. -/
theorem takeWhile_run {p : Char → Bool} {cs : List Char} (rest : List Char)
    (h : ∀ c ∈ cs, p c = true) (hrest : ∀ c ∈ rest.head?, p c = false) :
    (cs ++ rest).takeWhile p = cs ∧ (cs ++ rest).dropWhile p = rest := by
  rw [List.takeWhile_append_of_pos h, List.dropWhile_append_of_pos h]
  cases rest with
  | nil => simp
  | cons c rest => simp [hrest c rfl]

/-- The letters stand in two ranges. -/
theorem code_of_isAlpha {c : Char} (h : c.isAlpha = true) :
    (65 ≤ c.toNat ∧ c.toNat ≤ 90) ∨ (97 ≤ c.toNat ∧ c.toNat ≤ 122) := by
  rcases Bool.or_eq_true_iff.1 h with hupper | hlower
  · have hcodes : 'A'.val ≤ c.val ∧ c.val ≤ 'Z'.val := of_decide_eq_true hupper
    exact .inl ⟨UInt32.le_iff_toNat_le.1 hcodes.1, UInt32.le_iff_toNat_le.1 hcodes.2⟩
  · obtain ⟨hfirst, hlast⟩ := Bool.and_eq_true_iff.1 hlower
    exact .inr ⟨UInt32.le_iff_toNat_le.1 (of_decide_eq_true hfirst),
      UInt32.le_iff_toNat_le.1 (of_decide_eq_true hlast)⟩

/-- Letters, digits, and the marks between the parts of numbers, identifiers and times. -/
def isPlain (c : Char) : Bool := c.isAlphanum || c == '.' || c == '-' || c == '_' || c == ':'

/-- Plain characters, and the blanks between words. -/
def isProse (c : Char) : Bool := isPlain c || c == ' '

theorem isProse_of_isPlain {c : Char} (h : isPlain c = true) : isProse c = true := by
  rw [isProse, h, Bool.true_or]

theorem isPlain_of_isDigit {c : Char} (h : c.isDigit = true) : isPlain c = true := by
  simp [isPlain, Char.isAlphanum, h]

theorem isPlain_of_mem_toDigits {n : Nat} {c : Char} (hc : c ∈ Nat.toDigits 10 n) :
    isPlain c = true :=
  isPlain_of_isDigit (Nat.isDigit_of_mem_toDigits (by decide) (by decide) hc)

theorem plain_toString (n : Nat) : Only isPlain (toString n) := by
  rw [Nat.toString_eq_ofList_toDigits, only_ofList]
  exact fun c hc => isPlain_of_mem_toDigits hc

theorem isDigit_of_mem_toString {n : Nat} {c : Char} (h : c ∈ (toString n).toList) :
    c.isDigit = true := by
  rw [Nat.toString_eq_ofList_toDigits, String.toList_ofList] at h
  exact Nat.isDigit_of_mem_toDigits (by decide) (by decide) h

theorem not_mem_toString {c : Char} (h : c.isDigit = false) (n : Nat) :
    c ∉ (toString n).toList := by
  intro hc
  rw [isDigit_of_mem_toString hc] at h
  cases h

theorem plain_of_isName {name : String} (h : isName name = true) : Only isPlain name := by
  intro c hc
  have := isNameRest_of_mem h hc
  simp only [isNameRest, Bool.or_eq_true, beq_iff_eq] at this
  rcases this with rfl | h
  · decide
  · simp [isPlain, h]

/-! ## Identifiers and times -/

theorem mem_of_mem_cut {α : Type} {ns : List Nat} {xs piece : List α} {x : α}
    (h : piece ∈ Guid.cut ns xs) (hx : x ∈ piece) : x ∈ xs := by
  induction ns generalizing xs with
  | nil => cases h
  | cons n ns ih =>
    rcases List.mem_cons.1 h with rfl | h
    · exact List.mem_of_mem_take hx
    · exact List.mem_of_mem_drop (ih h)

theorem plain_guid (g : Guid) : Only isPlain g.text := by
  have hdigit : ∀ d < 16, isPlain (Nat.digitChar d) = true := by decide
  refine only_separated (by decide) fun s hs => ?_
  obtain ⟨piece, hpiece, rfl⟩ := List.mem_map.1 hs
  rw [only_ofList]
  intro c hc
  obtain ⟨i, -, rfl⟩ := List.mem_map.1 (mem_of_mem_cut hpiece hc)
  exact hdigit _ (Nat.mod_lt _ (by decide))

theorem plain_padded (width n : Nat) : Only isPlain (Calendar.padded width n) := by
  rw [Calendar.padded, only_ofList]
  intro c hc
  rcases List.mem_append.1 hc with hc | hc
  · rw [(List.mem_replicate.1 hc).2]
    decide
  · exact isPlain_of_mem_toDigits hc

theorem plain_timestamp (seconds : Int) : Only isPlain (Calendar.text seconds) := by
  have hmark : Only isPlain "-" ∧ Only isPlain "T" ∧ Only isPlain ":" ∧ Only isPlain "Z" := by
    decide
  simp [Calendar.text, Calendar.Stamp.text, plain_padded, hmark]

/-! ## Numbers -/

section Spelling

open Number

/-- A class that all characters of numbers belong to. -/
structure HoldsNumbers (p : Char → Bool) : Prop where
  digit : ∀ c, c.isDigit = true → p c = true
  point : p '.' = true
  minus : p '-' = true
  power : p 'e' = true

theorem holdsNumbers_isPlain : HoldsNumbers isPlain where
  digit _ h := isPlain_of_isDigit h
  point := by decide
  minus := by decide
  power := by decide

variable {p : Char → Bool} {style : Spelling} {digits : List Char}

theorem HoldsNumbers.toDigits (hp : HoldsNumbers p) (n : Nat) :
    ∀ c ∈ Nat.toDigits 10 n, p c = true := fun c hc =>
  hp.digit c (Nat.isDigit_of_mem_toDigits (by decide) (by decide) hc)

theorem HoldsNumbers.writePositional (hp : HoldsNumbers p) (h : ∀ c ∈ digits, p c = true)
    (d : Int) : ∀ c ∈ style.writePositional digits d, p c = true := by
  have hzero : p '0' = true := hp.digit '0' rfl
  intro c hc
  unfold Spelling.writePositional at hc
  split at hc
  · simp only [List.mem_cons, List.mem_append, List.mem_replicate] at hc
    rcases hc with rfl | rfl | ⟨-, rfl⟩ | hc
    · exact hzero
    · exact hp.point
    · exact hzero
    · exact h c hc
  · split at hc
    · simp only [List.mem_append, List.mem_replicate] at hc
      rcases hc with (hc | ⟨-, rfl⟩) | hc
      · exact h c hc
      · exact hzero
      · split at hc
        · simp only [List.mem_cons, List.not_mem_nil, or_false] at hc
          rcases hc with rfl | rfl
          · exact hp.point
          · exact hzero
        · cases hc
    · simp only [List.mem_append, List.mem_cons] at hc
      rcases hc with hc | rfl | hc
      · exact h c (List.mem_of_mem_take hc)
      · exact hp.point
      · exact h c (List.mem_of_mem_drop hc)

theorem HoldsNumbers.writeScientific (hp : HoldsNumbers p) (hplus : Only p style.exponentPlus)
    (h : ∀ c ∈ digits, p c = true) (exponent : Int) :
    ∀ c ∈ style.writeScientific digits exponent, p c = true := by
  intro c hc
  simp only [Spelling.writeScientific, List.mem_append, List.mem_cons] at hc
  rcases hc with hc | rfl | hc
  · split at hc
    · cases hc
    · exact h c hc
    · rename_i first rest
      simp only [List.mem_cons] at hc
      rcases hc with rfl | rfl | hc
      · exact h c (List.mem_cons_self ..)
      · exact hp.point
      · exact h c (List.mem_cons_of_mem _ hc)
  · exact hp.power
  · split at hc
    · rcases List.mem_cons.1 hc with rfl | hc
      · exact hp.minus
      · exact hp.toDigits _ c hc
    · rcases List.mem_append.1 hc with hc | hc
      · exact hplus c hc
      · exact hp.toDigits _ c hc

theorem HoldsNumbers.writeMagnitude (hp : HoldsNumbers p) (hplus : Only p style.exponentPlus)
    (rank : Nat) : ∀ c ∈ style.writeMagnitude rank, p c = true := by
  intro c hc
  unfold Spelling.writeMagnitude at hc
  split at hc
  · have hzero : ∀ c ∈ ['0', '.', '0'], p c = true := by
      simp [hp.digit '0' rfl, hp.point]
    split at hc
    · exact hzero c hc
    · exact hzero c (List.mem_of_mem_take (i := 1) hc)
  · dsimp only at hc
    split at hc
    · exact hp.writePositional (hp.toDigits _) _ c hc
    · exact hp.writeScientific hplus (hp.toDigits _) _ c hc

theorem plain_literal (x : Float) : Only isPlain (Spelling.literal.text x) := by
  have hplus : Only isPlain Spelling.literal.exponentPlus := by decide
  rw [Spelling.text, only_ofList]
  intro c hc
  unfold Spelling.chars at hc
  split at hc
  · split at hc
    · rcases List.mem_cons.1 hc with rfl | hc
      · decide
      · exact holdsNumbers_isPlain.writeMagnitude hplus _ c hc
    · exact holdsNumbers_isPlain.writeMagnitude hplus _ c hc
  · have hinfinity : Only isPlain "-inf" ∧ Only isPlain "inf" := by decide
    split at hc
    · exact hinfinity.1 c hc
    · exact hinfinity.2 c hc
  · have hnan : Only isPlain "NaN" := by decide
    exact hnan c hc

end Spelling

/-! ## Reading decimal numbers -/

/-- The number that a decimal text stands for. -/
def decimal? (s : String) : Option Nat :=
  if s.toList = [] then none else Number.ofDigits? 10 s.toList

theorem digitValue?_of_isDigit {c : Char} (h : c.isDigit = true) :
    Number.digitValue? 10 c = some (c.toNat - '0'.toNat) := by
  have hlt : c.toNat - '0'.toNat < 10 := by
    simp only [Char.isDigit, Bool.and_eq_true, decide_eq_true_eq, ge_iff_le,
      UInt32.le_iff_toNat_le] at h
    have hc : c.toNat = c.val.toNat := rfl
    have h0 : '0'.toNat = 48 := rfl
    have h9 : '9'.val.toNat = 57 := rfl
    omega
  simp only [Number.digitValue?, h, if_true, if_pos hlt]

theorem appendDigits?_eq {cs : List Char} (h : ∀ c ∈ cs, c.isDigit = true) (n : Nat) :
    Number.appendDigits? 10 n cs = some (Nat.ofDigitChars 10 cs n) := by
  induction cs generalizing n with
  | nil => rfl
  | cons c cs ih =>
    rw [Number.appendDigits?, digitValue?_of_isDigit (h c (List.mem_cons_self ..)),
      Option.bind_some, ih fun c hc => h c (List.mem_cons_of_mem _ hc)]
    rfl

theorem decimal?_toString (n : Nat) : decimal? (toString n) = some n := by
  have hne : Nat.toDigits 10 n ≠ [] := List.ne_nil_of_length_pos Nat.length_toDigits_pos
  rw [decimal?, Nat.toString_eq_ofList_toDigits, String.toList_ofList, if_neg hne,
    Number.ofDigits?, appendDigits?_eq, Nat.ofDigitChars_ten_toDigits]
  exact fun c hc => Nat.isDigit_of_mem_toDigits (by decide) (by decide) hc

end Text
end LtiUnit
