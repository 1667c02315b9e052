import LtiUnit.Proofs.GatheredPieces

/-!
# LtiUnit.Proofs.TableEntries

The entries of tables: the name that is defined, the lengths that are declared, and the brackets of
the initializer.

* `reads_matrix`, `reads_vector`, `reads_references` — from the lines of a table its entry is read.
-/

namespace LtiUnit
namespace Source

open Model (Grid)

/-! ## Reading entries -/

/-- From some characters some entries are read, and nothing is left unfinished. -/
def Reads (cs : List Char) (es : List Entry) : Prop :=
  ∃ ts ps, Scans cs ts ∧ Gathers ts ps ∧ ps.map Piece.entry = es

theorem reads_nil : Reads [] [] := ⟨[], [], scans_nil, rfl, rfl⟩

theorem Reads.append {cs ds : List Char} {es fs : List Entry} (hcs : Reads cs es)
    (hds : Reads ds fs) : Reads (cs ++ ds) (es ++ fs) := by
  obtain ⟨ts, ps, hscan, hgather, rfl⟩ := hcs
  obtain ⟨us, qs, hscan', hgather', rfl⟩ := hds
  exact ⟨_, _, hscan.append hscan', hgather.append hgather', List.map_append⟩

theorem entriesOf?_eq_some_iff {cs : List Char} {es : List Entry} :
    entriesOf? cs = some es ↔ Reads cs es := by
  unfold entriesOf? Reads Scans Gathers
  constructor
  · intro h
    simp only [Option.ite_none_right_eq_some, Option.some_inj] at h
    obtain ⟨⟨hscan, hgather⟩, hentries⟩ := h
    exact ⟨_, _, Prod.ext hscan rfl, Prod.ext hgather rfl, hentries⟩
  · rintro ⟨ts, ps, hscan, hgather, rfl⟩
    simp [hscan, hgather]

@[simp] theorem wordsOf_append (ts us : List Lexeme) :
    wordsOf (ts ++ us) = wordsOf ts ++ wordsOf us :=
  List.filterMap_append

/-! ## Initializers -/

/-- The initializer with the given number of single values in each row. -/
def Initializer.row {α : Type} (xs : List α) : Initializer := .list (xs.map fun _ => .value)

/-- Lexemes of a number with or without a sign. -/
def Lexeme.inNumber : Lexeme → Bool
  | .number _ => true
  | .mark c => c == '-'
  | _ => false

/-- The lexemes of a single number. -/
def IsNumber (v : List Lexeme) : Prop := v ≠ [] ∧ ∀ t ∈ v, t.inNumber = true

theorem outer_inNumber {t : Lexeme} (h : t.inNumber = true) :
    t.isOuter = true ∧ t.word? = none := by
  cases t with
  | number s => exact ⟨rfl, rfl⟩
  | mark c => obtain rfl := beq_iff_eq.1 h; exact ⟨rfl, rfl⟩
  | _ => cases h

theorem outer_numbers {vs : List (List Lexeme)} (h : ∀ v ∈ vs, IsNumber v) :
    ∀ t ∈ withCommas vs, t.isOuter = true ∧ t.word? = none :=
  forall_withCommas (P := fun t => t.isOuter = true ∧ t.word? = none) ⟨rfl, rfl⟩
    fun v hv t ht => outer_inNumber ((h v hv).2 t ht)

section Initializer

variable {items : List Initializer} {stack : List (List Initializer)} {last : Option Initializer}

theorem read_lexeme {t : Lexeme} (h : t.inNumber = true) (ts : List Lexeme) :
    Initializer.read (items :: stack) last (t :: ts) =
      Initializer.read (items :: stack) (some .value) ts := by
  cases t with
  | number s => rfl
  | mark c => obtain rfl := beq_iff_eq.1 h; rfl
  | _ => cases h

theorem read_number {v : List Lexeme} (h : IsNumber v) (ts : List Lexeme) :
    Initializer.read (items :: stack) last (v ++ ts) =
      Initializer.read (items :: stack) (some .value) ts := by
  obtain ⟨hne, hv⟩ := h
  induction v generalizing last with
  | nil => exact absurd rfl hne
  | cons t v ih =>
    obtain ⟨ht, hv⟩ := List.forall_mem_cons.1 hv
    rw [List.cons_append, read_lexeme ht]
    cases v with
    | nil => rfl
    | cons u v => exact ih (List.cons_ne_nil u v) hv

theorem read_row {vs : List (List Lexeme)} (h : ∀ v ∈ vs, IsNumber v)
    (ts : List Lexeme) :
    Initializer.read (items :: stack) none (withCommas vs ++ Lexeme.mark '\x7d' :: ts) =
      Initializer.read stack (some (.list (items ++ vs.map fun _ => .value))) ts := by
  induction vs generalizing items with
  | nil => rfl
  | cons v more ih =>
    obtain ⟨hv, hmore⟩ := List.forall_mem_cons.1 h
    cases more with
    | nil => rw [withCommas, read_number hv]; rfl
    | cons w more =>
      have hcomma (us : List Lexeme) :
          Initializer.read (items :: stack) (some .value) (.mark ',' :: us) =
            Initializer.read ((items ++ [.value]) :: stack) none us := rfl
      rw [withCommas, List.append_assoc, List.cons_append, read_number hv, hcomma, ih hmore]
      · simp
      · exact List.cons_ne_nil w more

/-- The lexemes of a row of a matrix, which a comma ends. -/
def rowLexemes (row : List (List Lexeme)) : List Lexeme :=
  .mark '\x7b' :: (withCommas row ++ [.mark '\x7d', .mark ','])

theorem read_rows {rows : List (List (List Lexeme))}
    (h : ∀ row ∈ rows, ∀ v ∈ row, IsNumber v) (ts : List Lexeme) :
    Initializer.read (items :: stack) none (rows.flatMap rowLexemes ++ Lexeme.mark '\x7d' :: ts) =
      Initializer.read stack (some (.list (items ++ rows.map Initializer.row))) ts := by
  induction rows generalizing items with
  | nil => rfl
  | cons row rows ih =>
    obtain ⟨hrow, hrows⟩ := List.forall_mem_cons.1 h
    have hall : (row :: rows).flatMap rowLexemes ++ Lexeme.mark '\x7d' :: ts = .mark '\x7b' ::
        (withCommas row ++ Lexeme.mark '\x7d' :: .mark ',' ::
          (rows.flatMap rowLexemes ++ Lexeme.mark '\x7d' :: ts)) := by
      simp [rowLexemes]
    have hopen (us : List Lexeme) : Initializer.read (items :: stack) none (.mark '\x7b' :: us) =
        Initializer.read ([] :: items :: stack) none us := rfl
    have hcomma (i : Initializer) (us : List Lexeme) :
        Initializer.read (items :: stack) (some i) (.mark ',' :: us) =
          Initializer.read ((items ++ [i]) :: stack) none us := rfl
    rw [hall, hopen, read_row hrow, hcomma, ih hrows]
    simp [Initializer.row]

end Initializer

/-! ## Tables -/

/-- The lexemes of the lengths of an array. -/
def boundLexemes (lengths : List Nat) : List Lexeme :=
  lengths.flatMap fun n => [.mark '[', .number (toString n), .mark ']']

theorem forall_boundLexemes {P : Lexeme → Prop} (hopen : P (.mark '[')) (hclose : P (.mark ']'))
    (hnumber : ∀ s, P (.number s)) (lengths : List Nat) : ∀ t ∈ boundLexemes lengths, P t := by
  refine List.forall_mem_flatMap.2 fun n _ => ?_
  simp only [List.forall_mem_cons]
  exact ⟨hopen, hnumber _, hclose, List.forall_mem_nil _⟩

theorem bounds_boundLexemes (lengths : List Nat) :
    bounds (boundLexemes lengths) = lengths.map Bound.count := by
  induction lengths with
  | nil => rfl
  | cons n lengths ih =>
    have hstep (ts : List Lexeme) : bounds (.mark '[' :: .number (toString n) :: .mark ']' :: ts) =
        ((Text.decimal? (toString n)).map Bound.count).getD .other :: bounds ts := rfl
    have hcons : boundLexemes (n :: lengths) =
        .mark '[' :: .number (toString n) :: .mark ']' :: boundLexemes lengths := rfl
    rw [hcons, hstep, Text.decimal?_toString, ih]
    rfl

theorem arrays_boundLexemes (lengths : List Nat) : arrays (boundLexemes lengths) = [] := by
  induction lengths with
  | nil => rfl
  | cons n lengths ih => exact ih

theorem wordsOf_boundLexemes (lengths : List Nat) : wordsOf (boundLexemes lengths) = [] := by
  induction lengths with
  | nil => rfl
  | cons n lengths ih => exact ih

/-- The lexemes of a constant table up to its lengths. -/
def tableWords (type name : String) : List Lexeme :=
  [.word "static", .word "const", .word type, .word name]

/-- The lexemes of a constant table up to its initializer. -/
def tableHead (type name : String) (lengths : List Nat) : List Lexeme :=
  tableWords type name ++ boundLexemes lengths ++ [.mark '=']

/-- The entry of a table with some lengths. -/
def Entry.table (name : String) (lengths : List Nat) (i : Initializer) : Entry :=
  ⟨⟨.data, some name, []⟩, [lengths.map Bound.count], some i⟩

theorem outer_tableHead (type name : String) (lengths : List Nat) :
    ∀ t ∈ tableHead type name lengths, t.isOuter = true ∧ t ≠ .mark '(' := by
  have hbounds : ∀ t ∈ boundLexemes lengths, t.isOuter = true ∧ t ≠ .mark '(' :=
    forall_boundLexemes (by decide) (by decide) (fun _ => ⟨rfl, Lexeme.noConfusion⟩) lengths
  simp only [tableHead, tableWords, List.forall_mem_append, List.forall_mem_cons]
  refine ⟨⟨⟨?_, ?_, ?_, ?_, List.forall_mem_nil _⟩, hbounds⟩, by decide, List.forall_mem_nil _⟩
  all_goals exact ⟨rfl, Lexeme.noConfusion⟩

theorem entry_table {type : String}
    (htype : mentions [.word "static", .word "const", .word type] = []) (name : String)
    {lengths : List Nat} (hlengths : lengths ≠ []) {more : List Lexeme} (hmore : wordsOf more = [])
    {i : Initializer} (hi : Initializer.read [] none (.mark '\x7b' :: more) = some i) :
    Entry.ofDeclaration (tableHead type name lengths ++ Lexeme.mark '\x7b' :: more) =
      .table name lengths i := by
  obtain ⟨n, others, rfl⟩ := List.exists_cons_of_ne_nil hlengths
  have hfunction :
      isFunction (tableHead type name (n :: others) ++ Lexeme.mark '\x7b' :: more) = false := by
    rw [isFunction_bracketed fun t ht => (outer_tableHead type name _ t ht).1, Bool.eq_false_iff]
    exact fun h => (outer_tableHead type name _ _ (List.contains_iff_mem.1 h)).2 rfl
  have hall : tableHead type name (n :: others) ++ Lexeme.mark '\x7b' :: more =
      (tableWords type name ++ boundLexemes (n :: others)) ++
        .mark '=' :: .mark '\x7b' :: more := by
    rw [tableHead, List.append_assoc _ [_], List.singleton_append]
  have hbefore : ∀ t ∈ tableWords type name ++ boundLexemes (n :: others),
      (t != .mark '=') = true := by
    refine List.forall_mem_append.2 ⟨by simp [tableWords], ?_⟩
    exact forall_boundLexemes (P := fun t => (t != .mark '=') = true) rfl rfl (fun _ => rfl) _
  have harrays : arrays (tableWords type name ++ boundLexemes (n :: others)) =
      [(n :: others).map Bound.count] := by
    have hname : bounds (boundLexemes (n :: others)) ≠ [] := by simp [bounds_boundLexemes]
    have hwords (ts : List Lexeme) : arrays (tableWords type name ++ ts) =
        arrays (.word name :: ts) := rfl
    rw [← bounds_boundLexemes, ← arrays_boundLexemes (n :: others)]
    exact (hwords _).trans (if_neg hname)
  have hmentions : mentions ([.word "static", .word "const", .word type] ++
      (boundLexemes (n :: others) ++ Lexeme.mark '=' :: .mark '\x7b' :: more)) = [] := by
    have hmarks : wordsOf (.mark '=' :: .mark '\x7b' :: more) = [] := hmore
    rw [mentions, wordsOf_append, wordsOf_append, wordsOf_boundLexemes, hmarks, List.append_nil]
    exact htype
  rw [hall] at hfunction ⊢
  have hfront : ((tableWords type name ++ boundLexemes (n :: others)) ++
      .mark '=' :: .mark '\x7b' :: more).takeWhile (!endsName ·) = tableWords type name := rfl
  have hrest : ((tableWords type name ++ boundLexemes (n :: others)) ++
      .mark '=' :: .mark '\x7b' :: more).dropWhile (!endsName ·) =
      boundLexemes (n :: others) ++ Lexeme.mark '=' :: .mark '\x7b' :: more := rfl
  have hequals : ((tableWords type name ++ boundLexemes (n :: others)) ++
      .mark '=' :: .mark '\x7b' :: more).takeWhile (· != .mark '=') =
      tableWords type name ++ boundLexemes (n :: others) := by
    rw [List.takeWhile_append_of_pos hbefore, List.takeWhile_cons]
    simp
  have hvalue : (boundLexemes (n :: others) ++
      .mark '=' :: .mark '\x7b' :: more).dropWhile (· != .mark '=') =
      .mark '=' :: .mark '\x7b' :: more := by
    rw [List.dropWhile_append_of_pos fun t ht => hbefore t (List.mem_append_right _ ht)]
    rfl
  have hhead : ((tableWords type name ++ boundLexemes (n :: others)) ++
      .mark '=' :: .mark '\x7b' :: more).head? = some (.word "static") := rfl
  have hlast : (tableWords type name).getLast? = some (.word name) := rfl
  have hopen : ¬(boundLexemes (n :: others) ++ Lexeme.mark '=' :: .mark '\x7b' :: more).head? =
      some (.mark '(') := by
    simp [boundLexemes]
  have hdrop : (tableWords type name).dropLast =
      [.word "static", .word "const", .word type] := rfl
  unfold Entry.ofDeclaration
  simp only [hfront, hrest, hfunction, hequals, harrays, hvalue, hi, hhead, hlast, hdrop,
    hmentions, if_neg hopen]
  rfl

section Table

variable (type : String) {name : String} {lengths : List Nat}

theorem reads_table (htype : mentions [.word "static", .word "const", .word type] = [])
    (hlengths : lengths ≠ []) {body : List Lexeme} (hbody : Nested body)
    (hwords : wordsOf (visible body) = []) {i : Initializer}
    (hi : Initializer.read [[]] none (visible body ++ [Lexeme.mark '\x7d', .mark ';']) = some i)
    {cs : List Char} (hcs : Scans cs (tableHead type name lengths ++
      .mark '\x7b' :: (body ++ [Lexeme.mark '\x7d', .mark ';', .lineBreak]))) :
    Reads cs [.table name lengths i] := by
  have hhead := outer_tableHead type name lengths
  have hlinkage : tableHead type name lengths ≠ [.word "extern", .quoted] := by
    simp [tableHead, tableWords]
  have hgather := gathers_data [] (fun t ht => (hhead t ht).1)
    (fun hcall => (hhead _ hcall).2 rfl) hlinkage hbody (List.forall_mem_nil _)
  refine ⟨_, _, hcs, hgather, ?_⟩
  have hmore : wordsOf (visible body ++ [Lexeme.mark '\x7d', .mark ';']) = [] := by
    rw [wordsOf_append, hwords]
    rfl
  rw [List.map_singleton]
  exact congrArg (fun e => [e]) (entry_table htype name hlengths hmore hi)

theorem scans_tableWords (htype : isName type = true) (hname : isName name = true) {cs : List Char}
    {ts : List Lexeme} (hcs : Scans ('[' :: cs) ts) :
    Scans ("static const ".toList ++ (type.toList ++ ' ' :: (name.toList ++ '[' :: cs)))
      (tableWords type name ++ ts) := by
  have hwords : "static const ".toList = "static".toList ++ ' ' :: ("const".toList ++ [' ']) := by
    decide
  have hnamed := scans_name htype rfl (scans_blank (scans_name hname rfl hcs))
  rw [hwords]
  simp only [List.append_assoc, List.cons_append, List.nil_append]
  exact scans_name (by decide) rfl (scans_blank (scans_name (by decide) rfl (scans_blank hnamed)))

theorem scans_bound (n : Nat) {cs : List Char} {ts : List Lexeme} (hcs : Scans cs ts) :
    Scans ('[' :: ((toString n).toList ++ ']' :: cs))
      (.mark '[' :: .number (toString n) :: .mark ']' :: ts) :=
  scans_mark rfl (scans_number (numberText_toString n) rfl (scans_mark rfl hcs))

/-- A table whose elements stand on the line of its declaration. -/
theorem reads_listed (hmentions : mentions [.word "static", .word "const", .word type] = [])
    (htype : isName type = true) (hname : isName name = true) (n : Nat) {elements : String}
    {vs : List (List Lexeme)} (hvs : ∀ v ∈ vs, IsNumber v)
    (helements : Stands elements (withCommas vs)) :
    Reads (chars ["static const " ++ type ++ " " ++ name ++ "[" ++ toString n ++ "] = \x7b " ++
      elements ++ " \x7d;"]) [.table name [n] (.row vs)] := by
  have hall := outer_numbers hvs
  have houter : ∀ t ∈ withCommas vs, t.isOuter = true := fun t ht => (hall t ht).1
  have hvisible := visible_of_outer houter
  refine reads_table type hmentions (List.cons_ne_nil n []) (nested_outer houter) ?_ ?_ ?_
  · rw [hvisible]
    exact List.filterMap_eq_nil_iff.2 fun t ht => (hall t ht).2
  · rw [hvisible, read_row hvs]
    rfl
  · have htext : chars ["static const " ++ type ++ " " ++ name ++ "[" ++ toString n ++
        "] = \x7b " ++ elements ++ " \x7d;"] = "static const ".toList ++ (type.toList ++ ' ' ::
          (name.toList ++ '[' :: ((toString n).toList ++ ']' :: ' ' :: '=' :: ' ' :: '\x7b' :: ' ' ::
            (elements.toList ++ ' ' :: '\x7d' :: ';' :: '\n' :: [])))) := by
      simp
    have hclosed := scans_blank (scans_mark (c := '\x7d') rfl (scans_ended scans_nil))
    have hopened := scans_blank (scans_mark (c := '=') rfl (scans_blank
      (scans_mark (c := '\x7b') rfl (scans_blank (helements _ _ _ rfl hclosed)))))
    rw [htext]
    have hscan := scans_tableWords type htype hname (scans_bound n hopened)
    simpa [tableHead, boundLexemes] using hscan

/-- The lexemes of the lines of a matrix. -/
def lineLexemes (rows : List (List (List Lexeme))) : List Lexeme :=
  rows.flatMap fun row => rowLexemes row ++ [.lineBreak]

section Rows

variable {rows : List (List (List Lexeme))} (h : ∀ row ∈ rows, ∀ v ∈ row, IsNumber v)
include h

theorem nested_lineLexemes : Nested (lineLexemes rows) := by
  induction rows with
  | nil => exact .nil
  | cons row rows ih =>
    have hrow : Nested (rowLexemes row ++ [Lexeme.lineBreak]) := by
      have hinner : Nested (withCommas row) :=
        nested_outer fun t ht => (outer_numbers (h row (List.mem_cons_self ..)) t ht).1
      have hall : rowLexemes row ++ [Lexeme.lineBreak] =
          .mark '\x7b' :: (withCommas row ++ Lexeme.mark '\x7d' :: [.mark ',', .lineBreak]) := by
        simp [rowLexemes]
      rw [hall]
      exact .bracketed hinner (.cons rfl (.cons rfl .nil))
    exact hrow.append (ih fun row hrow => h row (List.mem_cons_of_mem _ hrow))

theorem visible_lineLexemes : visible (lineLexemes rows) = rows.flatMap rowLexemes := by
  induction rows with
  | nil => rfl
  | cons row rows ih =>
    have hrow : visible (rowLexemes row) = rowLexemes row := by
      have hnumbers := outer_numbers (h row (List.mem_cons_self ..))
      have hinner := visible_of_outer fun t ht => (hnumbers t ht).1
      have hmarks (ts : List Lexeme) :
          visible (.mark '\x7b' :: ts) = .mark '\x7b' :: visible ts := rfl
      rw [rowLexemes, hmarks, visible_append, hinner]
      rfl
    have hcons : lineLexemes (row :: rows) =
        rowLexemes row ++ [Lexeme.lineBreak] ++ lineLexemes rows := rfl
    rw [hcons, visible_append, visible_append, hrow,
      ih fun row hrow => h row (List.mem_cons_of_mem _ hrow)]
    simp [visible]

theorem wordsOf_rowLexemes : wordsOf (rows.flatMap rowLexemes) = [] := by
  refine List.filterMap_eq_nil_iff.2 (List.forall_mem_flatMap.2 fun row hrow => ?_)
  simp only [rowLexemes, List.forall_mem_cons, List.forall_mem_append]
  exact ⟨rfl, fun t ht => (outer_numbers (h row hrow) t ht).2, rfl, rfl, List.forall_mem_nil _⟩

end Rows

theorem number_literal {x : Float} (hx : x.isFinite = true) : IsNumber (literalLexemes x) := by
  obtain ⟨negative, r, hview⟩ := Number.view_of_isFinite hx
  rw [literalLexemes, hview]
  cases negative with
  | false => exact ⟨List.cons_ne_nil _ _, List.forall_mem_singleton.2 rfl⟩
  | true =>
    exact ⟨List.cons_ne_nil _ _, List.forall_mem_cons.2 ⟨rfl, List.forall_mem_singleton.2 rfl⟩⟩

theorem stands_literals {xs : List Float} (h : ∀ x ∈ xs, x.isFinite = true) :
    Stands (literals xs) (withCommas (xs.map literalLexemes)) :=
  stands_separated fun x hx _ _ _ hc hcs => scans_literal (h x hx) hc hcs

theorem scans_rows {rows : List (List Float)} (h : ∀ row ∈ rows, ∀ x ∈ row, x.isFinite = true)
    {cs : List Char} {ts : List Lexeme} (hcs : Scans cs ts) :
    Scans (chars (rows.map fun row => "    \x7b " ++ literals row ++ " \x7d,") ++ cs)
      (lineLexemes (rows.map fun row => row.map literalLexemes) ++ ts) := by
  induction rows with
  | nil => exact hcs
  | cons row rows ih =>
    obtain ⟨hrow, hrows⟩ := List.forall_mem_cons.1 h
    have hindent : Text.Only (· == ' ') "    " := by decide
    have htext : chars ((row :: rows).map fun row => "    \x7b " ++ literals row ++ " \x7d,") ++
        cs = "    ".toList ++ '\x7b' :: ' ' :: ((literals row).toList ++ ' ' :: '\x7d' :: ',' :: '\n' ::
          (chars (rows.map fun row => "    \x7b " ++ literals row ++ " \x7d,") ++ cs)) := by
      simp
    have hlexemes : lineLexemes ((row :: rows).map fun row => row.map literalLexemes) ++ ts =
        .mark '\x7b' :: (withCommas (row.map literalLexemes) ++ Lexeme.mark '\x7d' :: .mark ',' ::
          .lineBreak :: (lineLexemes (rows.map fun row => row.map literalLexemes) ++ ts)) := by
      simp [lineLexemes, rowLexemes]
    rw [htext, hlexemes]
    exact scans_indent hindent (scans_mark rfl (scans_blank (stands_literals hrow _ _ _ rfl
      (scans_blank (scans_mark rfl (scans_mark rfl (scans_lineBreak (ih hrows))))))))

theorem reads_matrix (hname : isName name = true) (grid : Grid Float)
    (h : ∀ row ∈ grid.rows, ∀ x ∈ row, x.isFinite = true) :
    Reads (chars (Item.matrix name grid).lines)
      [.table name [grid.height, grid.cols] (.list (grid.rows.map Initializer.row))] := by
  have hnumbers : ∀ row ∈ grid.rows.map fun row => row.map literalLexemes, ∀ v ∈ row,
      IsNumber v := by
    refine List.forall_mem_map.2 fun row hrow => List.forall_mem_map.2 fun x hx => ?_
    exact number_literal (h row hrow x hx)
  have hvisible : visible
      (.lineBreak :: lineLexemes (grid.rows.map fun row => row.map literalLexemes)) =
      (grid.rows.map fun row => row.map literalLexemes).flatMap rowLexemes :=
    visible_lineLexemes hnumbers
  refine reads_table "fmi2Real" (by decide) (List.cons_ne_nil _ _)
    (.cons (t := .lineBreak) rfl (nested_lineLexemes hnumbers)) ?_ ?_ ?_
  · rw [hvisible]
    exact wordsOf_rowLexemes hnumbers
  · rw [hvisible, read_rows hnumbers]
    simp [Initializer.read, Initializer.row, Function.comp_def]
  · have htext : chars (Item.matrix name grid).lines = "static const ".toList ++
        ("fmi2Real".toList ++ ' ' :: (name.toList ++ '[' :: ((toString grid.height).toList ++ ']' ::
          '[' :: ((toString grid.cols).toList ++ ']' :: ' ' :: '=' :: ' ' :: '\x7b' :: '\n' ::
            (chars (grid.rows.map fun row => "    \x7b " ++ literals row ++ " \x7d,") ++
              '\x7d' :: ';' :: '\n' :: []))))) := by
      simp [Item.lines]
    have hrows := scans_rows h (scans_mark (c := '\x7d') rfl (scans_ended scans_nil))
    have hopened := scans_blank (scans_mark (c := '=') rfl (scans_blank
      (scans_mark (c := '\x7b') rfl (scans_lineBreak hrows))))
    have hscan := scans_tableWords "fmi2Real" (by decide) hname
      (scans_bound grid.height (scans_bound grid.cols hopened))
    rw [htext]
    simpa [tableHead, boundLexemes] using hscan

theorem reads_vector (hname : isName name = true) {values : List Float}
    (h : ∀ x ∈ values, x.isFinite = true) :
    Reads (chars (Item.vector name values).lines) [.table name [values.length] (.row values)] := by
  have hnumbers : ∀ v ∈ values.map literalLexemes, IsNumber v :=
    List.forall_mem_map.2 fun x hx => number_literal (h x hx)
  have hread := reads_listed "fmi2Real" (by decide) (by decide) hname
    values.length hnumbers (stands_literals h)
  have hrow : Initializer.row (values.map literalLexemes) = .row values := by
    simp [Initializer.row, Function.comp_def]
  have hline : (Item.vector name values).lines = ["static const " ++ "fmi2Real" ++ " " ++ name ++
      "[" ++ toString values.length ++ "] = \x7b " ++ literals values ++ " \x7d;"] := by
    have hstart : "static const " ++ "fmi2Real" ++ " " = "static const fmi2Real " := by decide
    rw [Item.lines, hstart]
  rw [hline, ← hrow]
  exact hread

theorem reads_references (hname : isName name = true) (values : List Nat) :
    Reads (chars (Item.references name values).lines)
      [.table name [values.length] (.row values)] := by
  have hnumbers : ∀ v ∈ values.map fun n => [Lexeme.number (toString n)], IsNumber v :=
    List.forall_mem_map.2 fun n _ => ⟨List.cons_ne_nil _ _, List.forall_mem_singleton.2 rfl⟩
  have helements : Stands (indices values)
      (withCommas (values.map fun n => [Lexeme.number (toString n)])) :=
    stands_separated fun n _ _ _ _ hc hcs => scans_number (numberText_toString n) hc hcs
  have hread := reads_listed "fmi2ValueReference" (by decide) (by decide) hname
    values.length hnumbers helements
  have hrow : Initializer.row (values.map fun n => [Lexeme.number (toString n)]) = .row values := by
    simp [Initializer.row, Function.comp_def]
  have hline : (Item.references name values).lines = ["static const " ++ "fmi2ValueReference" ++
      " " ++ name ++ "[" ++ toString values.length ++ "] = \x7b " ++ indices values ++
        " \x7d;"] := by
    have hstart : "static const " ++ "fmi2ValueReference" ++ " " =
        "static const fmi2ValueReference " := by decide
    rw [Item.lines, hstart]
  rw [hline, ← hrow]
  exact hread

end Table

end Source
end LtiUnit
