import LtiUnit.Proofs.JsonNumber
import LtiUnit.Toml.Line

/-!
# LtiUnit.Proofs.NumberLists

Lists of numbers as they may be written in JSON documents and in TOML documents alike: decimal
numbers with a fraction or a power of ten, divided by commas, in brackets, with blanks and line
breaks between them.

* `parts_of_ofChars?` — what the characters of a number are.
* `ListText` — the texts of a list, by the texts of its items.
* `ListText.writtenAs` — they are read as the list by the JSON reader.
-/

namespace LtiUnit

/-! ## Numbers -/

namespace Json
namespace Numeral

/-- A sign that may be a plus or be left out. -/
inductive SignText : Bool → List Char → Prop
  | none : SignText false []
  | plus : SignText false ['+']
  | minus : SignText true ['-']

/-- A power of ten, if there is one. -/
inductive PowerText : Option (Bool × List Char) → List Char → Prop
  | none : PowerText none []
  | some {letter : Char} {negative : Bool} {sign digits : List Char}
    (hletter : letter = 'e' ∨ letter = 'E') (hsign : SignText negative sign)
    (hdigits : isDigits digits = true) :
    PowerText (some (negative, digits)) (letter :: (sign ++ digits))

/-- A fraction with its point, if there is one. -/
inductive FractionText : Option (List Char) → List Char → Prop
  | none : FractionText none []
  | some {digits : List Char} (hdigits : isDigits digits = true) :
    FractionText (some digits) ('.' :: digits)

/-- The characters are those of the number. -/
def HasText (n : Numeral) (cs : List Char) : Prop :=
  ∃ fraction power, cs = sign n.negative ++ (n.whole ++ (fraction ++ power)) ∧
    isWhole n.whole = true ∧ FractionText n.fraction fraction ∧ PowerText n.power power

theorem isDigit_of_isDigits {ds : List Char} (h : isDigits ds = true) :
    ∀ c ∈ ds, c.isDigit = true :=
  List.all_eq_true.1 (Bool.and_eq_true_iff.1 h).2

theorem ne_nil_of_isDigits {ds : List Char} (h : isDigits ds = true) : ds ≠ [] := by
  rintro rfl
  cases h

theorem power?_eq_some {cs digits : List Char} {negative : Bool}
    (h : power? cs = some (negative, digits)) :
    ∃ sign, SignText negative sign ∧ isDigits digits = true ∧ cs = sign ++ digits := by
  unfold power? at h
  split at h
  rename_i negative' digits' heq
  split at h
  · rename_i hdigits
    cases h
    split at heq
    · cases heq
      exact ⟨_, .minus, hdigits, rfl⟩
    · cases heq
      exact ⟨_, .plus, hdigits, rfl⟩
    · cases heq
      exact ⟨_, .none, hdigits, rfl⟩
  · cases h

theorem ofTail?_eq_some {negative : Bool} {whole cs : List Char} {fraction : Option (List Char)}
    {n : Numeral} (h : ofTail? negative whole fraction cs = some n) :
    n.negative = negative ∧ n.whole = whole ∧ n.fraction = fraction ∧ PowerText n.power cs := by
  unfold ofTail? at h
  split at h
  · cases h
    exact ⟨rfl, rfl, rfl, .none⟩
  · split at h
    · rename_i hletter
      obtain ⟨⟨_, digits⟩, hpower, rfl⟩ := Option.map_eq_some_iff.1 h
      obtain ⟨sign, hsign, hdigits, rfl⟩ := power?_eq_some hpower
      exact ⟨rfl, rfl, rfl, .some hletter hsign hdigits⟩
    · cases h

end Numeral

open Numeral

theorem afterWhole?_eq_some {negative : Bool} {whole cs : List Char} {n : Numeral}
    (h : afterWhole? negative whole cs = some n) :
    n.negative = negative ∧ n.whole = whole ∧
      ∃ fraction power, cs = fraction ++ power ∧ FractionText n.fraction fraction ∧
        PowerText n.power power := by
  unfold afterWhole? at h
  split at h
  · rename_i rest
    split at h
    · cases h
    · rename_i hne
      obtain ⟨hnegative, hwhole, hfraction, hpower⟩ := ofTail?_eq_some h
      have hdigits : isDigits (rest.takeWhile Char.isDigit) = true := by simp [isDigits, hne]
      refine ⟨hnegative, hwhole, '.' :: rest.takeWhile Char.isDigit, _, ?_,
        hfraction ▸ .some hdigits, hpower⟩
      rw [List.cons_append, List.takeWhile_append_dropWhile]
  · obtain ⟨hnegative, hwhole, hfraction, hpower⟩ := ofTail?_eq_some h
    exact ⟨hnegative, hwhole, [], cs, rfl, hfraction ▸ .none, hpower⟩

theorem hasText_of_afterSign? {negative : Bool} {cs : List Char} {n : Numeral}
    (h : afterSign? negative cs = some n) : n.HasText (sign negative ++ cs) := by
  unfold afterSign? at h
  split at h
  · rename_i hwhole
    obtain ⟨hnegative, hdigits, fraction, power, hrest, hfraction, hpower⟩ :=
      afterWhole?_eq_some h
    refine ⟨fraction, power, ?_, hdigits ▸ hwhole, hfraction, hpower⟩
    rw [hnegative, hdigits, ← hrest, List.takeWhile_append_dropWhile]
  · cases h

theorem hasText_of_ofChars? {cs : List Char} {n : Numeral} (h : Numeral.ofChars? cs = some n) :
    n.HasText cs := by
  obtain ⟨c, rest, rfl, -⟩ := exists_head (Option.isSome_of_eq_some h)
  by_cases hc : c = '-'
  · subst hc
    have htext : n.HasText (sign true ++ rest) := hasText_of_afterSign? h
    exact htext
  · rw [ofChars?_of_ne hc] at h
    have htext : n.HasText (sign false ++ c :: rest) := hasText_of_afterSign? h
    exact htext

theorem isNumberChar_of_hasText {cs : List Char} {n : Numeral} (h : n.HasText cs) :
    ∀ c ∈ cs, isNumberChar c = true := by
  have hisDigits {ds : List Char} (hds : isDigits ds = true) : ∀ c ∈ ds, isNumberChar c = true :=
    fun c hc => holdsNumbers_isNumberChar.digit c (isDigit_of_isDigits hds c hc)
  obtain ⟨negative, _, _, _⟩ := n
  obtain ⟨fraction, power, rfl, hwhole, hfraction, hpower⟩ := h
  simp only [List.forall_mem_append]
  refine ⟨?_, hisDigits (Bool.and_eq_true_iff.1 hwhole).1, ?_, ?_⟩
  · cases negative <;> exact List.all_eq_true.1 (by decide)
  · cases hfraction with
    | none => exact List.forall_mem_nil _
    | some hdigits => exact List.forall_mem_cons.2 ⟨by decide, hisDigits hdigits⟩
  · cases hpower with
    | none => exact List.forall_mem_nil _
    | some hletter hsign hdigits =>
      refine List.forall_mem_cons.2 ⟨?_, List.forall_mem_append.2 ⟨?_, hisDigits hdigits⟩⟩
      · rcases hletter with rfl | rfl <;> decide
      · cases hsign <;> exact List.all_eq_true.1 (by decide)

theorem writtenNumber_of_ofChars? {cs : List Char} {n : Numeral}
    (h : Numeral.ofChars? cs = some n) : WrittenNumber cs where
  isNumber := Option.isSome_of_eq_some h
  chars := isNumberChar_of_hasText (hasText_of_ofChars? h)
  head := exists_head (Option.isSome_of_eq_some h)

end Json

/-! ## Lists -/

/-- The characters of a number of both notations that is no whole number for either of them. -/
def IsDecimal (cs : List Char) : Prop :=
  ∃ n, Json.Numeral.ofChars? cs = some n ∧ (n.fraction.isSome || n.power.isSome) = true

/-- Blanks and line breaks, of which a list may have any number between its parts. -/
inductive Gap : List Char → Prop
  | nil : Gap []
  | blank {c : Char} {cs : List Char} (hc : Toml.isBlank c = true) (h : Gap cs) : Gap (c :: cs)
  | feed {cs : List Char} (h : Gap cs) : Gap ('\n' :: cs)
  | lineBreak {cs : List Char} (h : Gap cs) : Gap ('\r' :: '\n' :: cs)

/-- Blanks within a line. -/
def Blanks (cs : List Char) : Prop := ∀ c ∈ cs, Toml.isBlank c = true

section Texts

variable {α : Type} {gap : List Char → Prop} {Item : α → List Char → Prop} {x : α} {xs : List α}
  {cs : List Char}

/-- Something with a gap on either side. -/
def Padded (gap : List Char → Prop) (Item : α → List Char → Prop) (x : α) (cs : List Char) : Prop :=
  ∃ before text after, gap before ∧ Item x text ∧ gap after ∧ cs = before ++ text ++ after

/-- The texts of a list. -/
inductive ListText (Item : α → List Char → Prop) : List α → List Char → Prop
  | empty {cs : List Char} (h : Gap cs) : ListText Item [] ('[' :: (cs ++ [']']))
  | items {x : α} {xs : List α} {parts : List (List Char)}
    (h : List.Forall₂ (Padded Gap Item) (x :: xs) parts) :
    ListText Item (x :: xs) ('[' :: (Text.joinWith ',' parts ++ [']']))

/-- The text of a number is the number itself. -/
def NumberText (token cs : List Char) : Prop := cs = token ∧ IsDecimal token

end Texts

/-! ## The JSON reader -/

namespace Json

variable {α : Type} {cs before after : List Char} {ts : List Token} {v : Value}

theorem isBlank_of_gap (h : Gap cs) : ∀ c ∈ cs, isBlank c = true := by
  induction h with
  | nil => exact List.forall_mem_nil _
  | blank hc _ ih => exact List.forall_mem_cons.2 ⟨by simp_all [Toml.isBlank, isBlank], ih⟩
  | feed _ ih => exact List.forall_mem_cons.2 ⟨rfl, ih⟩
  | lineBreak _ ih => exact List.forall_mem_cons.2 ⟨rfl, List.forall_mem_cons.2 ⟨rfl, ih⟩⟩

theorem isBlank_of_blanks (h : Blanks cs) : ∀ c ∈ cs, isBlank c = true := by
  intro c hc
  have := h c hc
  simp_all [Toml.isBlank, isBlank]

theorem scan_blanks (h : ∀ c ∈ before, isBlank c = true) (rest : List Char) :
    Token.scan (before ++ rest) = Token.scan rest := by
  induction before with
  | nil => rfl
  | cons c before ih =>
    obtain ⟨hc, hbefore⟩ := List.forall_mem_cons.1 h
    rw [List.cons_append, Token.scan, if_pos hc, ih hbefore]

theorem Ends.blanks {rest : List Char} (h : ∀ c ∈ after, isBlank c = true) (hrest : Ends rest) :
    Ends (after ++ rest) := by
  cases after with
  | nil => exact hrest
  | cons c after =>
    intro d hd
    cases hd
    have hblank := h c (List.mem_cons_self ..)
    simp only [isBlank, Bool.or_eq_true, beq_iff_eq] at hblank
    rcases hblank with ((rfl | rfl) | rfl) | rfl <;> exact ⟨by decide, by decide⟩

/-- Blanks around a stretch of characters are cut off. -/
theorem Scans.blanks (hbefore : ∀ c ∈ before, isBlank c = true)
    (hafter : ∀ c ∈ after, isBlank c = true) (h : Scans cs ts) :
    Scans (before ++ cs ++ after) ts := by
  intro rest hrest
  rw [List.append_assoc, List.append_assoc, scan_blanks hbefore, h _ (hrest.blanks hafter),
    scan_blanks hafter]

theorem WrittenAs.padded {gap : List Char → Prop} {Item : α → List Char → Prop} {x : α}
    (hgap : ∀ g, gap g → ∀ c ∈ g, isBlank c = true) (hitem : ∀ text, Item x text → WrittenAs text v)
    (h : Padded gap Item x cs) : WrittenAs cs v := by
  obtain ⟨before, text, after, hbefore, htext, hafter, rfl⟩ := h
  obtain ⟨ts, hscans, hreads⟩ := hitem text htext
  exact ⟨ts, hscans.blanks (hgap _ hbefore) (hgap _ hafter), hreads⟩

theorem writtenAs_numberText {token : List Char} (h : NumberText token cs) :
    WrittenAs cs (.number token) := by
  obtain ⟨rfl, n, hn, -⟩ := h
  exact writtenAs_scalar fun rest hrest => scan_number (writtenNumber_of_ofChars? hn) hrest

/-- The text of a list is read as the list of what is read for the texts of its items. -/
theorem writtenAs_listText {Item : α → List Char → Prop} {value : α → Value} {xs : List α}
    (hitem : ∀ x text, Item x text → WrittenAs text (value x)) (h : ListText Item xs cs) :
    WrittenAs cs (.array (xs.map value)) := by
  cases h with
  | empty hgap =>
    have hclose : Scans [']'] [.closeArray] := .mark rfl
    have hscans := hclose.blanks (isBlank_of_gap hgap) (List.forall_mem_nil _)
    rw [List.append_nil] at hscans
    exact ⟨[.openArray, .closeArray], .mark_append rfl hscans, fun _ _ => rfl⟩
  | items h =>
    exact writtenAs_items (List.forall₂_map_right_iff.2
      (h.flip.imp fun _ x => .padded (fun _ => isBlank_of_gap) (hitem x)))

end Json
end LtiUnit
