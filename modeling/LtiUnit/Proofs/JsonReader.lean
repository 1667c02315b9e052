import LtiUnit.Json.Parser
import LtiUnit.Json.Printer
import LtiUnit.Proofs.PlainText
import Mathlib.Data.List.Forall2

/-!
# LtiUnit.Proofs.JsonReader

The compact text of a JSON value is read back as the value.

Reading goes in two steps, and so does the proof. A stretch of characters is cut into tokens whatever
follows it, as long as that does not go on with a number or a word (`Scans`); and the machine that
takes the tokens goes from waiting for a value to having read it, whatever is open around it
(`Reads`). Both are closed under what arrays and objects are made of.

* `writtenAs_compact` — the text of every value that can be written is read as the value.
* `parse?_compact` — so is a document.
-/

namespace LtiUnit
namespace Json

/-! ## What can be written -/

/-- The characters of a number, none of which can be taken for the beginning of something else. -/
structure WrittenNumber (lexeme : List Char) : Prop where
  isNumber : (Numeral.ofChars? lexeme).isSome = true
  chars : ∀ c ∈ lexeme, isNumberChar c = true
  head : ∃ c rest, lexeme = c :: rest ∧ (c.isDigit = true ∨ c = '-')

/-- The parts of a string without control characters and `\u` escapes. -/
def WrittenString (parts : List Part) : Prop :=
  ∀ p ∈ parts, ∃ c : Char, p = .char c ∧ ¬c.toNat < 0x20

/-- Values made of such numbers and strings. -/
inductive Written : Value → Prop
  | null : Written .null
  | bool (b : Bool) : Written (.bool b)
  | number {lexeme : List Char} (h : WrittenNumber lexeme) : Written (.number lexeme)
  | string {parts : List Part} (h : WrittenString parts) : Written (.string parts)
  | array {items : List Value} (h : ∀ v ∈ items, Written v) : Written (.array items)
  | object {members : List (List Part × Value)}
    (hkeys : ∀ m ∈ members, WrittenString m.1) (hvalues : ∀ m ∈ members, Written m.2) :
    Written (.object members)

/-! ## Tokens -/

/-- Neither a number nor a word goes on here. -/
def Ends (cs : List Char) : Prop := ∀ c ∈ cs.head?, isNumberChar c = false ∧ c.isAlpha = false

theorem ends_nil : Ends [] := by
  intro c hc
  cases hc

theorem ends_mark {c : Char} {t : Token} (h : mark? c = some t) (cs : List Char) :
    Ends (c :: cs) := by
  intro d hd
  cases hd
  unfold mark? at h
  split at h <;> first | exact ⟨by decide, by decide⟩ | cases h

theorem scan_mark {c : Char} {t : Token} (h : mark? c = some t) (rest : List Char) :
    Token.scan (c :: rest) = (Token.scan rest).map (t :: ·) := by
  have hblank : isBlank c = false ∧ c ≠ '"' := by
    unfold mark? at h
    split at h <;> first | exact ⟨by decide, by decide⟩ | cases h
  rw [Token.scan]
  simp [hblank.1, hblank.2, h]

/-- What is left of a string after a character of it. -/
def andChar (c : Char) (p : List Part × List Char) : List Part × List Char := (.char c :: p.1, p.2)

theorem scanString_char {c : Char} (hquote : c ≠ '"') (hslash : c ≠ '\\') (hc : ¬c.toNat < 0x20)
    (rest : List Char) : scanString (c :: rest) = (scanString rest).map (andChar c) := by
  rw [scanString]
  · rw [if_neg (by simp [hc, hslash])]
    cases scanString rest <;> rfl
  · exact hquote
  · exact fun _ _ _ _ _ h => absurd h hslash
  · exact fun _ _ h => absurd h hslash

theorem scanString_escape {c d : Char} (hu : d ≠ 'u') (hc : escaped? d = some c)
    (rest : List Char) : scanString ('\\' :: d :: rest) = (scanString rest).map (andChar c) := by
  rw [scanString]
  · rw [hc]
    cases scanString rest <;> rfl
  · intro _ _ _ _ _ h
    exact absurd h hu

theorem scanString_charText {c : Char} (hc : ¬c.toNat < 0x20) (rest : List Char) :
    scanString ((charText c).toList ++ rest) = (scanString rest).map (andChar c) := by
  unfold charText
  split
  · exact scanString_escape (by decide) rfl rest
  · exact scanString_escape (by decide) rfl rest
  all_goals first | exact absurd (by decide) hc | skip
  rename_i hquote hslash _ _ _ _ _
  have hchar : c.toString.toList = [c] := String.toList_singleton c
  rw [if_neg hc, hchar]
  exact scanString_char hquote hslash hc rest

theorem scanString_parts {parts : List Part} (h : WrittenString parts) (rest : List Char) :
    scanString ((String.join (parts.map Part.text)).toList ++ '"' :: rest) = some (parts, rest) := by
  induction parts with
  | nil => rfl
  | cons p parts ih =>
    obtain ⟨hp, hparts⟩ := List.forall_mem_cons.1 h
    obtain ⟨c, rfl, hc⟩ := hp
    rw [List.map_cons, String.join_cons, String.toList_append, List.append_assoc]
    exact (scanString_charText hc _).trans (by rw [ih hparts]; rfl)

theorem scan_quoted {parts : List Part} (h : WrittenString parts) (rest : List Char) :
    Token.scan ((quoted parts).toList ++ rest) =
      (Token.scan rest).map (.scalar (.string parts) :: ·) := by
  have htext : (quoted parts).toList ++ rest =
      '"' :: ((String.join (parts.map Part.text)).toList ++ '"' :: rest) := by
    simp [quoted]
  have hblank : isBlank '"' = false := rfl
  rw [htext, Token.scan, hblank]
  simp only [Bool.false_eq_true, if_false, if_true]
  split
  · rename_i hnone
    rw [scanString_parts h] at hnone
    cases hnone
  · rename_i hsome
    rw [scanString_parts h] at hsome
    cases hsome
    rfl

theorem scan_number {lexeme : List Char} (h : WrittenNumber lexeme) {rest : List Char}
    (hrest : Ends rest) :
    Token.scan (lexeme ++ rest) = (Token.scan rest).map (.scalar (.number lexeme) :: ·) := by
  obtain ⟨c, cs, rfl, hc⟩ := h.head
  have hmark : mark? c = none ∧ isBlank c = false ∧ c ≠ '"' := by
    rcases hc with hc | rfl
    · refine ⟨?_, ?_, ?_⟩
      · unfold mark?
        split <;> first | exact absurd hc (by decide) | rfl
      · unfold isBlank
        simp only [Bool.or_eq_false_iff, beq_eq_false_iff_ne]
        refine ⟨⟨⟨?_, ?_⟩, ?_⟩, ?_⟩ <;> rintro rfl <;> exact absurd hc (by decide)
      · rintro rfl
        exact absurd hc (by decide)
    · decide
  have hfirst : (c.isDigit || c == '-') = true := by
    rcases hc with hc | rfl
    · rw [hc, Bool.true_or]
    · rfl
  obtain ⟨htake, hdrop⟩ := Text.takeWhile_run rest
    (fun d hd => h.chars d (List.mem_cons_of_mem c hd)) fun d hd => (hrest d hd).1
  rw [List.cons_append, Token.scan]
  simp only [hmark.1, hmark.2.1, hmark.2.2, hfirst, htake, hdrop, h.isNumber, Bool.false_eq_true,
    if_false, if_true]

theorem scan_word {c : Char} {cs rest : List Char} {v : Value} (hword : word? (c :: cs) = some v)
    (hrest : Ends rest) :
    Token.scan (c :: cs ++ rest) = (Token.scan rest).map (.scalar v :: ·) := by
  have hcs : (c :: cs = "true".toList ∨ c :: cs = "false".toList ∨ c :: cs = "null".toList) := by
    unfold word? at hword
    split at hword
    · exact .inl ‹_›
    split at hword
    · exact .inr (.inl ‹_›)
    split at hword
    · exact .inr (.inr ‹_›)
    cases hword
  have hchars : isBlank c = false ∧ c ≠ '"' ∧ mark? c = none ∧ (c.isDigit || c == '-') = false ∧
      ∀ d ∈ cs, d.isAlpha = true := by
    simp only [← List.all_eq_true]
    rcases hcs with h | h | h <;> cases h <;> decide
  obtain ⟨hblank, hquote, hmark, hdigit, halpha⟩ := hchars
  obtain ⟨htake, hdrop⟩ := Text.takeWhile_run rest halpha fun d hd => (hrest d hd).2
  rw [List.cons_append, Token.scan]
  simp only [hblank, hquote, hmark, hdigit, htake, hdrop, hword, Bool.false_eq_true, if_false]

/-! ## Stretches of tokens -/

/-- The characters are cut into the tokens. -/
def Scans (cs : List Char) (ts : List Token) : Prop :=
  ∀ rest, Ends rest → Token.scan (cs ++ rest) = (Token.scan rest).map (ts ++ ·)

/-- The tokens are those of a value. -/
def Reads (v : Value) (ts : List Token) : Prop :=
  ∀ stack rest, run (.value stack) (ts ++ rest) = run (.after v stack) rest

/-- The characters are read as the value. -/
def WrittenAs (cs : List Char) (v : Value) : Prop := ∃ ts, Scans cs ts ∧ Reads v ts

theorem writtenAs_scalar {cs : List Char} {v : Value} (h : Scans cs [.scalar v]) :
    WrittenAs cs v := ⟨[.scalar v], h, fun _ _ => rfl⟩

theorem Scans.mark {c : Char} {t : Token} (h : mark? c = some t) : Scans [c] [t] :=
  fun rest _ => scan_mark h rest

/-- What comes before a mark need not be followed by anything else. -/
theorem Scans.append_mark {cs ds : List Char} {ts us : List Token} {c : Char} {t : Token}
    (hcs : Scans cs ts) (hc : mark? c = some t) (hds : Scans ds us) :
    Scans (cs ++ c :: ds) (ts ++ t :: us) := by
  intro rest hrest
  rw [List.append_assoc, List.cons_append, hcs _ (ends_mark hc _), scan_mark hc, hds rest hrest,
    Option.map_map, Option.map_map]
  congr 1
  funext l
  simp

theorem Scans.mark_append {cs : List Char} {ts : List Token} {c : Char} {t : Token}
    (hc : mark? c = some t) (hcs : Scans cs ts) : Scans (c :: cs) (t :: ts) :=
  fun rest hrest => by rw [List.cons_append, scan_mark hc, hcs rest hrest, Option.map_map]; rfl

theorem scans_nil : Scans [] [] := fun rest _ => by simp

/-- A value does not begin with the end of an array, so that it may also come first in one. -/
theorem Reads.first {v : Value} {ts : List Token} (h : Reads v ts) (stack : List Frame)
    (rest : List Token) :
    run (.firstItem stack) (ts ++ rest) = run (.value (.array [] :: stack)) (ts ++ rest) := by
  cases ts with
  | nil => cases (h [] [] : none = some v)
  | cons t ts =>
    cases t with
    | closeArray => cases (h [] [] : none = some v)
    | _ => rfl

/-! ## Arrays -/

/-- The tokens are those of the items of an array, up to its end. -/
structure ReadsItems (items : List Value) (ts : List Token) : Prop where
  first : ∀ stack rest,
    run (.firstItem stack) (ts ++ rest) = run (.value (.array [] :: stack)) (ts ++ rest)
  items : ∀ done stack rest, run (.value (.array done :: stack)) (ts ++ .closeArray :: rest) =
    run (.after (.array (done.reverse ++ items)) stack) rest

theorem exists_items {cs : List Char} {v : Value} {parts : List (List Char)} {items : List Value}
    (h : List.Forall₂ WrittenAs (cs :: parts) (v :: items)) :
    ∃ ts, Scans (Text.joinWith ',' (cs :: parts)) ts ∧ ReadsItems (v :: items) ts := by
  obtain ⟨⟨ts, hscans, hreads⟩, hmore⟩ := List.forall₂_cons.1 h
  induction hmore generalizing cs v ts with
  | nil =>
    refine ⟨ts, hscans, hreads.first, fun done stack rest => ?_⟩
    rw [hreads, ← List.reverse_cons]
    rfl
  | @cons next w parts items hnext hmore ih =>
    obtain ⟨ws, hws, hw⟩ := hnext
    obtain ⟨us, hothers, hread⟩ := ih (.cons ⟨ws, hws, hw⟩ hmore) ws hws hw
    refine ⟨ts ++ .comma :: us, hscans.append_mark rfl hothers, fun stack rest => ?_,
      fun done stack rest => ?_⟩
    · rw [List.append_assoc]
      exact hreads.first stack _
    · have hitems : (v :: done).reverse ++ w :: items = done.reverse ++ v :: w :: items := by simp
      rw [List.append_assoc, List.cons_append, hreads, ← hitems]
      exact hread.items (v :: done) stack rest

/-- Characters that are read as values, with commas between them and in brackets. -/
theorem writtenAs_items {parts : List (List Char)} {items : List Value}
    (h : List.Forall₂ WrittenAs parts items) :
    WrittenAs ('[' :: (Text.joinWith ',' parts ++ [']'])) (.array items) := by
  cases h with
  | nil => exact ⟨[.openArray, .closeArray], .mark_append rfl (.mark rfl), fun _ _ => rfl⟩
  | cons hv hmore =>
    obtain ⟨ts, hscans, hread⟩ := exists_items (.cons hv hmore)
    refine ⟨.openArray :: (ts ++ [.closeArray]),
      .mark_append rfl (hscans.append_mark rfl scans_nil), fun stack rest => ?_⟩
    rw [List.cons_append, List.append_assoc]
    exact (hread.first stack _).trans (hread.items [] stack rest)

theorem compactItems_eq (items : List Value) :
    Value.compactItems items = items.map Value.compact := by
  induction items with
  | nil => rfl
  | cons v items ih => rw [Value.compactItems, ih, List.map_cons]

theorem writtenAs_array {items : List Value} (h : ∀ v ∈ items, WrittenAs v.compact.toList v) :
    WrittenAs (Value.array items).compact.toList (.array items) := by
  have htext : (Value.array items).compact.toList =
      '[' :: (Text.joinWith ',' (items.map (·.compact.toList)) ++ [']']) := by
    rw [Value.compact, String.toList_append, String.toList_append, Text.toList_separated rfl,
      compactItems_eq, List.map_map]
    rfl
  rw [htext]
  exact writtenAs_items (List.forall₂_map_left_iff.2 (List.forall₂_same.2 h))

/-! ## Objects -/

/-- The characters are read as the key and the value of a member of an object. -/
def MemberAs (cs : List Char) (m : List Part × Value) : Prop :=
  ∃ ts, Scans cs (.scalar (.string m.1) :: .colon :: ts) ∧ Reads m.2 ts

theorem memberAs_quoted {key : List Part} {v : Value} {cs : List Char} (hkey : WrittenString key)
    (h : WrittenAs cs v) : MemberAs ((quoted key).toList ++ ':' :: cs) (key, v) := by
  obtain ⟨ts, hscans, hreads⟩ := h
  have hquoted : Scans (quoted key).toList [.scalar (.string key)] :=
    fun rest _ => scan_quoted hkey rest
  exact ⟨ts, hquoted.append_mark rfl hscans, hreads⟩

/-- The tokens are those of the members of an object, up to its end. -/
structure ReadsMembers (members : List (List Part × Value)) (ts : List Token) : Prop where
  first : ∀ stack rest, run (.firstKey stack) (ts ++ rest) = run (.key [] stack) (ts ++ rest)
  members : ∀ done stack rest, run (.key done stack) (ts ++ .closeObject :: rest) =
    run (.after (.object (done.reverse ++ members)) stack) rest

theorem exists_members {cs : List Char} {m : List Part × Value} {parts : List (List Char)}
    {members : List (List Part × Value)}
    (h : List.Forall₂ MemberAs (cs :: parts) (m :: members)) :
    ∃ ts, Scans (Text.joinWith ',' (cs :: parts)) ts ∧ ReadsMembers (m :: members) ts := by
  obtain ⟨⟨ts, hscans, hreads⟩, hmore⟩ := List.forall₂_cons.1 h
  induction hmore generalizing cs m ts with
  | nil =>
    refine ⟨_, hscans, fun _ _ => rfl, fun done stack rest => ?_⟩
    show run (.value (.object done m.1 :: stack)) (ts ++ .closeObject :: rest) = _
    rw [hreads, ← List.reverse_cons]
    rfl
  | @cons next n parts members hnext hmore ih =>
    obtain ⟨ws, hws, hn⟩ := hnext
    obtain ⟨us, hothers, hread⟩ := ih (.cons ⟨ws, hws, hn⟩ hmore) ws hws hn
    refine ⟨_, hscans.append_mark rfl hothers, fun _ _ => rfl, fun done stack rest => ?_⟩
    have hmembers : (m :: done).reverse ++ n :: members = done.reverse ++ m :: n :: members := by
      simp
    show run (.value (.object done m.1 :: stack)) (ts ++ .comma :: us ++ .closeObject :: rest) = _
    rw [List.append_assoc, List.cons_append, hreads, ← hmembers]
    exact hread.members (m :: done) stack rest

/-- Characters that are read as members, with commas between them and in braces. -/
theorem writtenAs_members {parts : List (List Char)} {members : List (List Part × Value)}
    (h : List.Forall₂ MemberAs parts members) :
    WrittenAs ('\x7b' :: (Text.joinWith ',' parts ++ ['\x7d'])) (.object members) := by
  cases h with
  | nil => exact ⟨[.openObject, .closeObject], .mark_append rfl (.mark rfl), fun _ _ => rfl⟩
  | cons hm hmore =>
    obtain ⟨ts, hscans, hread⟩ := exists_members (.cons hm hmore)
    refine ⟨.openObject :: (ts ++ [.closeObject]),
      .mark_append rfl (hscans.append_mark rfl scans_nil), fun stack rest => ?_⟩
    rw [List.cons_append, List.append_assoc]
    exact (hread.first stack _).trans (hread.members [] stack rest)

/-- The characters of a member of an object. -/
def memberText (m : List Part × Value) : List Char := (quoted m.1).toList ++ ':' :: m.2.compact.toList

theorem compactMembers_eq (members : List (List Part × Value)) :
    (Value.compactMembers members).map String.toList = members.map memberText := by
  induction members with
  | nil => rfl
  | cons m members ih =>
    rw [Value.compactMembers, List.map_cons, ih, List.map_cons, memberText, String.toList_append,
      String.toList_append, List.append_assoc]
    rfl

theorem writtenAs_object {members : List (List Part × Value)}
    (h : ∀ m ∈ members, WrittenString m.1 ∧ WrittenAs m.2.compact.toList m.2) :
    WrittenAs (Value.object members).compact.toList (.object members) := by
  have htext : (Value.object members).compact.toList =
      '\x7b' :: (Text.joinWith ',' (members.map memberText) ++ ['\x7d']) := by
    rw [Value.compact, String.toList_append, String.toList_append, Text.toList_separated rfl,
      compactMembers_eq]
    rfl
  rw [htext]
  exact writtenAs_members (List.forall₂_map_left_iff.2 (List.forall₂_same.2
    fun m hm => memberAs_quoted (h m hm).1 (h m hm).2))

/-! ## Documents -/

theorem writtenAs_compact {v : Value} (h : Written v) : WrittenAs v.compact.toList v := by
  induction h with
  | null => exact writtenAs_scalar fun rest hrest => scan_word rfl hrest
  | bool b =>
    cases b with
    | false => exact writtenAs_scalar fun rest hrest => scan_word rfl hrest
    | true => exact writtenAs_scalar fun rest hrest => scan_word rfl hrest
  | number h =>
    rw [Value.compact, String.toList_ofList]
    exact writtenAs_scalar fun rest hrest => scan_number h hrest
  | string h => exact writtenAs_scalar fun rest _ => scan_quoted h rest
  | array _ ih => exact writtenAs_array ih
  | object hkeys _ ih => exact writtenAs_object fun m hm => ⟨hkeys m hm, ih m hm⟩

theorem parse?_of_writtenAs {s : String} {v : Value} (h : WrittenAs s.toList v) :
    parse? s = some v := by
  obtain ⟨ts, hscans, hreads⟩ := h
  have hts : Token.scan s.toList = some ts := by
    have hall := hscans [] ends_nil
    rw [List.append_nil, Token.scan] at hall
    simpa using hall
  have hrun := hreads [] []
  rw [List.append_nil] at hrun
  rw [parse?, hts]
  exact hrun

theorem parse?_compact {v : Value} (h : Written v) : parse? v.compact = some v :=
  parse?_of_writtenAs (writtenAs_compact h)

end Json
end LtiUnit
