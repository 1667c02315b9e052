/-!
# LtiUnit.Text

Texts cut at a character, and texts put together with one between them; putting together undoes
cutting (`joinWith_cutAt`), and cutting undoes putting together what is free of the character
(`cutAt_joinWith`). Blanks of any script, and texts without those at their ends.
-/

namespace LtiUnit
namespace Text

/-- The stretches of characters around every occurrence of `sep`. -/
def cutAt (sep : Char) : List Char → List (List Char)
  | [] => [[]]
  | c :: cs =>
    if c = sep then [] :: cutAt sep cs
    else
      match cutAt sep cs with
      | [] => [[c]]
      | piece :: more => (c :: piece) :: more

/-- Stretches of characters with `sep` between them. -/
def joinWith (sep : Char) : List (List Char) → List Char
  | [] => []
  | [piece] => piece
  | piece :: more => piece ++ sep :: joinWith sep more

/-- The parts of a text around every occurrence of `sep`. -/
def pieces (sep : Char) (s : String) : List String := (cutAt sep s.toList).map String.ofList

/-- Texts with a separator between them. -/
def separated (separator : String) (texts : List String) : String := separator.intercalate texts

/-- A blank of any script. -/
def isWhiteSpace (c : Char) : Bool :=
  let n := c.toNat
  decide (9 ≤ n ∧ n ≤ 13) || n == 0x20 || n == 0x85 || n == 0xA0 || n == 0x1680 ||
    decide (0x2000 ≤ n ∧ n ≤ 0x200A) || n == 0x2028 || n == 0x2029 || n == 0x202F ||
    n == 0x205F || n == 0x3000

def isBlank (s : String) : Bool := s.toList.all isWhiteSpace

/-- Characters without the blanks at their end. -/
def dropBlanksAtEnd (cs : List Char) : List Char :=
  (cs.reverse.dropWhile isWhiteSpace).reverse

def trimEnd (s : String) : String := String.ofList (dropBlanksAtEnd s.toList)

def trim (s : String) : String := String.ofList (dropBlanksAtEnd (s.toList.dropWhile isWhiteSpace))

/-- The first line of a text that is not empty. -/
def firstLine? (s : String) : Option String :=
  if s.isEmpty then none else (pieces '\n' s).head?

theorem cutAt_ne_nil (sep : Char) (cs : List Char) : cutAt sep cs ≠ [] := by
  induction cs with
  | nil => simp [cutAt]
  | cons c cs ih =>
    unfold cutAt
    split
    · simp
    · split <;> simp

theorem joinWith_cutAt (sep : Char) (cs : List Char) : joinWith sep (cutAt sep cs) = cs := by
  induction cs with
  | nil => rfl
  | cons c cs ih =>
    have hne := cutAt_ne_nil sep cs
    rw [cutAt]
    split
    · cases h : cutAt sep cs with
      | nil => exact absurd h hne
      | cons piece more => rw [h] at ih; simp_all [joinWith]
    · cases h : cutAt sep cs with
      | nil => exact absurd h hne
      | cons piece more =>
        rw [h] at ih
        cases more <;> simp_all [joinWith]

theorem not_mem_of_mem_cutAt {sep : Char} {cs piece : List Char} (h : piece ∈ cutAt sep cs) :
    sep ∉ piece := by
  induction cs generalizing piece with
  | nil => simp [cutAt] at h; simp [h]
  | cons c cs ih =>
    rw [cutAt] at h
    split at h
    · rcases List.mem_cons.1 h with rfl | h
      · simp
      · exact ih h
    · rename_i hc
      cases hcut : cutAt sep cs with
      | nil => exact absurd hcut (cutAt_ne_nil sep cs)
      | cons first more =>
        simp only [hcut, List.mem_cons] at h ih
        rcases h with rfl | h
        · simp only [List.mem_cons, not_or]
          exact ⟨fun he => hc he.symm, ih (.inl rfl)⟩
        · exact ih (.inr h)

theorem cutAt_of_not_mem {sep : Char} {cs : List Char} (h : sep ∉ cs) : cutAt sep cs = [cs] := by
  induction cs with
  | nil => rfl
  | cons c cs ih =>
    simp only [List.mem_cons, not_or] at h
    rw [cutAt, if_neg (Ne.symm h.1), ih h.2]

theorem cutAt_sep (sep : Char) (xs ys : List Char) :
    cutAt sep (xs ++ sep :: ys) = cutAt sep xs ++ cutAt sep ys := by
  induction xs with
  | nil => simp [cutAt]
  | cons x xs ih =>
    have hne := cutAt_ne_nil sep xs
    rw [List.cons_append, cutAt, cutAt, ih]
    split
    · rfl
    · cases hcut : cutAt sep xs with
      | nil => exact absurd hcut hne
      | cons piece more => rfl

theorem cutAt_append {sep : Char} {piece : List Char} (h : sep ∉ piece) (cs : List Char) :
    cutAt sep (piece ++ sep :: cs) = piece :: cutAt sep cs := by
  rw [cutAt_sep, cutAt_of_not_mem h]
  rfl

theorem cutAt_joinWith {sep : Char} {parts : List (List Char)} (hne : parts ≠ [])
    (h : ∀ piece ∈ parts, sep ∉ piece) : cutAt sep (joinWith sep parts) = parts := by
  induction parts with
  | nil => exact absurd rfl hne
  | cons piece more ih =>
    have hp := h piece (List.mem_cons_self ..)
    cases more with
    | nil => rw [joinWith, cutAt_of_not_mem hp]
    | cons next rest =>
      have hm : ∀ q ∈ next :: rest, sep ∉ q := fun q hq => h q (List.mem_cons_of_mem _ hq)
      rw [joinWith, cutAt_append hp, ih (List.cons_ne_nil next rest) hm]
      exact List.cons_ne_nil next rest

theorem toList_separated {sep : Char} {separator : String} (hs : separator.toList = [sep])
    (texts : List String) :
    (separated separator texts).toList = joinWith sep (texts.map String.toList) := by
  rw [separated, String.toList_intercalate, hs]
  induction texts with
  | nil => rfl
  | cons s texts ih => cases texts <;> simp_all [joinWith]

theorem pieces_ne_nil (sep : Char) (s : String) : pieces sep s ≠ [] := by
  simp [pieces, cutAt_ne_nil]

theorem not_mem_of_mem_pieces {sep : Char} {s piece : String} (h : piece ∈ pieces sep s) :
    sep ∉ piece.toList := by
  obtain ⟨cs, hcs, rfl⟩ := List.mem_map.1 h
  rw [String.toList_ofList]
  exact not_mem_of_mem_cutAt hcs

/-- Cutting a text at a separator gives back what was put together, if that is free of it. -/
theorem pieces_separated {sep : Char} {separator : String} (hs : separator.toList = [sep])
    {texts : List String} (hne : texts ≠ []) (h : ∀ s ∈ texts, sep ∉ s.toList) :
    pieces sep (separated separator texts) = texts := by
  rw [pieces, toList_separated hs, cutAt_joinWith (by simpa using hne) (by simpa using h)]
  simp [Function.comp_def]

/-- Putting the parts of a text together gives it back. -/
theorem separated_pieces {sep : Char} {separator : String} (hs : separator.toList = [sep])
    (s : String) : separated separator (pieces sep s) = s := by
  apply String.toList_inj.1
  rw [toList_separated hs, pieces, List.map_map]
  simp [Function.comp_def, joinWith_cutAt]

/-- A text without the separator is its own and only part. -/
theorem pieces_of_not_mem {sep : Char} {s : String} (h : sep ∉ s.toList) : pieces sep s = [s] := by
  simp [pieces, cutAt_of_not_mem h]

end Text
end LtiUnit
