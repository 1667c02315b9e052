import LtiUnit.Proofs.HookTexts
import LtiUnit.Proofs.SourceLines

/-!
# LtiUnit.Proofs.UnitDeclarations

What is read as a declaration from the lines of a unit: the number of register slots, the tables of
numbers and the routines, in this order, and nothing else.

* `Declares` — what is read from the lines of some pieces, whatever follows them.
* `declarations_source` — the declarations in the unit of a model.
-/

namespace LtiUnit
namespace Source

open Text (cutAt decimal? Only)

/-! ## Lines that declare nothing -/

/-- A line that opens no declaration. -/
def Inert (line : List Char) : Prop := ∀ rest, declarationAt? line rest = none

theorem routineAt?_of_heading {line : List Char} (h : heading? line = none)
    (rest : List (List Char)) : routineAt? line rest = none := by
  rw [routineAt?, h]
  rfl

theorem numbersAt?_of_start {line : List Char} (h : ¬realsStart <+: line)
    (rest : List (List Char)) : numbersAt? line rest = none := if_neg h

theorem slotsAt?_of_ne {line : List Char} (h : line ≠ instanceStart) (rest : List (List Char)) :
    slotsAt? line rest = none := if_neg h

theorem inert_of_starts {line : List Char} (hslots : line ≠ instanceStart)
    (hreals : ¬realsStart <+: line) (hheading : heading? line = none) : Inert line := by
  intro rest
  rw [declarationAt?, slotsAt?_of_ne hslots, numbersAt?_of_start hreals,
    routineAt?_of_heading hheading]

theorem not_prefix_of_head {start line : List Char} {c : Char} (hstart : start.head? = some c)
    (h : line.head? ≠ some c) : ¬start <+: line := by
  rintro ⟨rest, rfl⟩
  rw [List.head?_append, hstart] at h
  exact h rfl

/-- All declarations start alike. -/
theorem inert_of_head {line : List Char} (hs : line.head? ≠ some 's')
    (ht : line.head? ≠ some 't') : Inert line := by
  refine inert_of_starts ?_ (not_prefix_of_head rfl hs) (if_neg ?_)
  · rintro rfl
    exact ht rfl
  · exact fun h => not_prefix_of_head rfl hs h.1

def isInert (line : List Char) : Bool :=
  line != instanceStart && !decide (realsStart <+: line) && (heading? line).isNone

theorem inert_of_isInert {line : List Char} (h : isInert line = true) : Inert line := by
  simp only [isInert, Bool.and_eq_true, bne_iff_ne, ne_eq, Bool.not_eq_true',
    decide_eq_false_iff_not, Option.isNone_iff_eq_none] at h
  exact inert_of_starts h.1.1 h.1.2 h.2

theorem inert_ofList {cs : List Char} (h : isInert cs = true) :
    Inert (String.ofList cs).toList := by
  rw [String.toList_ofList]
  exact inert_of_isInert h

/-- Whether constants of another type than that of the tables begin so. -/
def isOtherConstant (start : List Char) : Bool :=
  decide (constantStart <+: start) && decide (17 < start.length) && start[17]? != realsStart[17]?

theorem inert_constant {start : List Char} (h : isOtherConstant start = true) (rest : String) :
    Inert (String.ofList start ++ rest).toList := by
  simp only [isOtherConstant, Bool.and_eq_true, decide_eq_true_eq, bne_iff_ne] at h
  obtain ⟨⟨hconstant, hlength⟩, htype⟩ := h
  rw [String.toList_append, String.toList_ofList]
  have hstart : constantStart <+: start ++ rest.toList :=
    hconstant.trans (List.prefix_append _ _)
  have hplace : (start ++ rest.toList)[17]? = start[17]? := List.getElem?_append_left hlength
  generalize start ++ rest.toList = line at hstart hplace
  refine inert_of_starts ?_ ?_ (if_neg fun h => h.2 hstart)
  · rintro rfl
    exact absurd hstart (by decide)
  · rintro ⟨others, rfl⟩
    rw [List.getElem?_append_left (by decide)] at hplace
    exact htype hplace.symm

/-! ## Items -/

/-- What is read from the lines of some items, whatever follows them. -/
def Declares (items : List (Item Float)) (ds : List Declaration) : Prop :=
  ∀ rest, declarations ((items.flatMap Item.lines).map String.toList ++ rest) =
    ds ++ declarations rest

theorem declarations_inert {lines : List (List Char)} (h : ∀ line ∈ lines, Inert line)
    (rest : List (List Char)) : declarations (lines ++ rest) = declarations rest := by
  induction lines with
  | nil => rfl
  | cons line lines ih =>
    obtain ⟨hline, hlines⟩ := List.forall_mem_cons.1 h
    rw [List.cons_append, declarations, hline, ih hlines]
    rfl

theorem declares_nil : Declares [] [] := fun _ => rfl

theorem Declares.append {items items' : List (Item Float)} {ds ds' : List Declaration}
    (h : Declares items ds) (h' : Declares items' ds') : Declares (items ++ items') (ds ++ ds') := by
  intro rest
  rw [List.flatMap_append, List.map_append, List.append_assoc, h, h', List.append_assoc]

theorem Declares.onlyIf {items : List (Item Float)} {ds : List Declaration} (condition : Bool)
    (h : condition = true → Declares items ds) :
    Declares (Hooks.onlyIf condition items) (Hooks.onlyIf condition ds) := by
  cases condition with
  | false => exact declares_nil
  | true => exact h rfl

theorem declares_of_inert {items : List (Item Float)}
    (h : ∀ item ∈ items, ∀ line ∈ item.lines, Inert line.toList) : Declares items [] := by
  intro rest
  refine declarations_inert (fun line hline => ?_) rest
  obtain ⟨text, htext, rfl⟩ := List.mem_map.1 hline
  obtain ⟨item, hitem, htext⟩ := List.mem_flatMap.1 htext
  exact h item hitem text htext

/-- A declaration is opened by the first line of an item, and its other lines open none. -/
theorem declares_of_head {item : Item Float} {first : String} (others : List String)
    {d : Declaration} (hlines : item.lines = first :: others)
    (hfirst : ∀ rest, declarationAt? first.toList (others.map String.toList ++ rest) = some d)
    (hothers : ∀ line ∈ others, Inert line.toList) : Declares [item] [d] := by
  intro rest
  rw [List.flatMap_singleton, hlines, List.map_cons, List.cons_append, declarations, hfirst,
    declarations_inert]
  · rfl
  · intro line hline
    obtain ⟨text, htext, rfl⟩ := List.mem_map.1 hline
    exact hothers text htext

theorem inert_indented {indent : String} (hindent : indent.toList.head? = some ' ')
    {line : List Char} (h : indent.toList <+: line) : Inert line := by
  obtain ⟨rest, rfl⟩ := h
  refine inert_of_head ?_ ?_ <;> rw [List.head?_append, hindent] <;> simp

theorem declarationAt?_of_routine {line : List Char} {rest : List (List Char)}
    {g : Function Literal} (h : routineAt? line rest = some g) :
    declarationAt? line rest = some (.routine g) := by
  have hstart : routineStart <+: line ∧ ¬constantStart <+: line := by
    by_contra hnot
    rw [routineAt?_of_heading (if_neg hnot)] at h
    cases h
  have hslots : line ≠ instanceStart := by
    rintro rfl
    exact absurd hstart.1 (by decide)
  have hreals : ¬realsStart <+: line := fun hreals =>
    hstart.2 (List.IsPrefix.trans (by decide) hreals)
  rw [declarationAt?, slotsAt?_of_ne hslots, numbersAt?_of_start hreals, h]

/-- Nothing behind the end of a routine matters. -/
theorem routineAt?_append {line : List Char} {body : List (List Char)}
    (hbody : ∀ l ∈ body, l ≠ closing) (rest : List (List Char)) :
    routineAt? line (body ++ closing :: rest) = routineAt? line (body ++ [closing]) := by
  have htake (rest : List (List Char)) :
      (body ++ closing :: rest).takeWhile (· != closing) = body := by
    rw [List.takeWhile_append_of_pos fun l hl => bne_iff_ne.2 (hbody l hl)]
    simp
  have hmem (rest : List (List Char)) : closing ∈ body ++ closing :: rest := by simp
  simp only [routineAt?, htake, hmem]

/-- A routine is read from its lines. -/
theorem declares_function {f : Function Float} {g : Function Literal} (h : f.readBack? = some g) :
    Declares [.function f] [.routine g] := by
  have hbody : ∀ line ∈ Stmt.block "    " f.body, Inert line.toList := fun line hline =>
    inert_indented (by decide) (indented_block "    " f.body line hline)
  have hnot : ∀ l ∈ (Stmt.block "    " f.body).map String.toList, l ≠ closing := by
    intro l hl heq
    obtain ⟨line, hline, rfl⟩ := List.mem_map.1 hl
    obtain ⟨rest, hrest⟩ := indented_block "    " f.body line hline
    rw [heq] at hrest
    simp [closing] at hrest
  refine declares_of_head (Stmt.block "    " f.body ++ ["\x7d"]) rfl (fun rest => ?_) ?_
  · refine declarationAt?_of_routine ?_
    have hown : routineAt? _ ((Stmt.block "    " f.body ++ ["\x7d"]).map String.toList) = some g := h
    rw [List.map_append] at hown
    rw [List.map_append, List.append_assoc]
    exact (routineAt?_append hnot rest).trans hown
  · rw [List.forall_mem_append, List.forall_mem_singleton]
    exact ⟨hbody, inert_of_isInert (by decide)⟩

/-! ## Tables of numbers -/

/-- A number as it is read back. -/
def Literal.of (x : Float) : Literal := ⟨Number.Spelling.literal.text x⟩

theorem literal_ne_empty (x : Float) : (Number.Spelling.literal.text x).toList ≠ [] := by
  have hmagnitude (rank : Nat) : Number.Spelling.literal.writeMagnitude rank ≠ [] := by
    unfold Number.Spelling.writeMagnitude
    dsimp only
    split
    · decide
    · split
      · unfold Number.Spelling.writePositional
        split_ifs <;> simp [Number.Spelling.literal]
      · simp [Number.Spelling.writeScientific]
  rw [Number.Spelling.text, String.toList_ofList]
  unfold Number.Spelling.chars
  split
  · split
    · simp
    · exact hmagnitude _
  · split <;> decide
  · decide

theorem words_literal (x : Float) : words (Number.Spelling.literal.text x).toList =
    [Number.Spelling.literal.text x] := by
  have hblank : ' ' ∉ (Number.Spelling.literal.text x).toList :=
    (Text.plain_literal x).not_mem (by decide)
  rw [words_of_not_mem hblank (literal_ne_empty x), String.ofList_toList]

theorem toList_literals_cons (x x' : Float) (xs : List Float) :
    (literals (x :: x' :: xs)).toList =
      (Number.Spelling.literal.text x).toList ++ ',' :: ' ' :: (literals (x' :: xs)).toList := by
  rw [literals, List.map_cons, List.map_cons, Text.separated, String.intercalate_cons_cons,
    String.toList_append, String.toList_append, ← List.map_cons, List.append_assoc]
  rfl

/-- Numbers between commas, with a blank on either side, are read back. -/
theorem literals?_literals (x : Float) (xs : List Float) :
    literals? (' ' :: (literals (x :: xs)).toList ++ [' ']) = some ((x :: xs).map Literal.of) := by
  have hcomma (x : Float) : ',' ∉ ' ' :: (Number.Spelling.literal.text x).toList := by
    rw [List.mem_cons, not_or]
    exact ⟨by decide, (Text.plain_literal x).not_mem (by decide)⟩
  induction xs generalizing x with
  | nil =>
    have hlast : ',' ∉ ' ' :: (literals [x]).toList ++ [' '] := by
      rw [List.mem_append, not_or]
      exact ⟨hcomma x, by decide⟩
    have hwords : words (' ' :: (literals [x]).toList ++ [' ']) =
        [Number.Spelling.literal.text x] := by
      rw [words_sep, words_blank]
      exact congrArg (· ++ []) (words_literal x)
    rw [literals?, Text.cutAt_of_not_mem hlast, List.mapM_cons, hwords]
    rfl
  | cons x' xs ih =>
    have hwords : words (' ' :: (Number.Spelling.literal.text x).toList) =
        [Number.Spelling.literal.text x] := by
      rw [words_blank, words_literal]
    have hline : ' ' :: (literals (x :: x' :: xs)).toList ++ [' '] =
        ' ' :: (Number.Spelling.literal.text x).toList ++
          ',' :: (' ' :: (literals (x' :: xs)).toList ++ [' ']) := by
      simp [toList_literals_cons]
    have hrest := ih x'
    rw [literals?] at hrest ⊢
    rw [hline, Text.cutAt_append (hcomma x), List.mapM_cons, hrest, hwords]
    rfl

theorem only_literals (xs : List Float) : Only (fun c => Text.isPlain c || c == ',' || c == ' ')
    (literals xs) := by
  refine Text.only_separated (by decide) fun s hs => ?_
  obtain ⟨x, -, rfl⟩ := List.mem_map.1 hs
  exact (Text.plain_literal x).mono fun c hc => by simp [hc]

/-- A row of a matrix, on a line of its own. -/
def rowLine (row : List Float) : String := "    \x7b " ++ literals row ++ " \x7d,"

theorem row?_rowLine {row : List Float} (h : row ≠ []) :
    row? (rowLine row).toList = some (row.map Literal.of) := by
  obtain ⟨x, xs, rfl⟩ := List.exists_cons_of_ne_nil h
  have hline : (rowLine (x :: xs)).toList =
      [' ', ' ', ' ', ' '] ++ '\x7b' :: ((' ' :: (literals (x :: xs)).toList ++ [' ']) ++
        '\x7d' :: [',']) := by
    simp [rowLine]
  have hclose : '\x7d' ∉ ' ' :: (literals (x :: xs)).toList ++ [' '] := by
    have hentries := (only_literals (x :: xs)).not_mem (c := '\x7d') (by decide)
    simp [hentries]
  rw [row?, hline, fields_cons (by decide), fields_cons hclose, fields]
  simp only [Option.map_some, Option.bind_eq_bind, Option.bind_some]
  rw [if_pos (by decide), literals?_literals]

theorem mapM_rowLine {rows : List (List Float)} (h : ∀ row ∈ rows, row ≠ []) :
    (rows.map fun row => (rowLine row).toList).mapM row? = some (rows.map (·.map Literal.of)) := by
  induction rows with
  | nil => rfl
  | cons row rows ih =>
    obtain ⟨hrow, hrows⟩ := List.forall_mem_cons.1 h
    rw [List.map_cons, List.mapM_cons, row?_rowLine hrow, ih hrows]
    rfl

theorem head?_rowLine (row : List Float) : (rowLine row).toList.head? = some ' ' := by
  simp [rowLine]

theorem numbersAt?_table {name : String} (h : isName name = true) {declarator : String}
    (hdeclarator : declarator.toList.head? = some '[') (rest : List (List Char)) :
    numbersAt? ("static const fmi2Real " ++ name ++ declarator).toList rest =
      (numbers? declarator.toList rest).map fun numbers => (name, numbers) := by
  have hname : ∀ c ∈ name.toList, isNameRest c = true := fun c hc => isNameRest_of_mem h hc
  have hline : ("static const fmi2Real " ++ name ++ declarator).toList =
      realsStart ++ (name.toList ++ declarator.toList) := by
    rw [String.toList_append, String.toList_append, List.append_assoc]
    rfl
  have hopen : isNameRest '[' = false := by decide
  unfold numbersAt?
  rw [hline, if_pos (List.prefix_append _ _)]
  simp only [List.drop_left]
  rw [List.takeWhile_append_of_pos hname, List.dropWhile_append_of_pos hname]
  obtain ⟨cs, hcs⟩ := List.head?_eq_some_iff.1 hdeclarator
  simp [hcs, hopen]

theorem declarationAt?_table {name : String} (h : isName name = true) {declarator : String}
    (hdeclarator : declarator.toList.head? = some '[') {rest : List (List Char)}
    {numbers : Numbers} (hnumbers : numbers? declarator.toList rest = some numbers) :
    declarationAt? ("static const fmi2Real " ++ name ++ declarator).toList rest =
      some (.numbers name numbers) := by
  have hslots : ("static const fmi2Real " ++ name ++ declarator).toList ≠ instanceStart := by
    intro heq
    have hhead := congrArg List.head? heq
    rw [String.append_assoc, String.toList_append, List.head?_append] at hhead
    exact absurd (Option.some_inj.1 hhead) (by decide)
  rw [declarationAt?, slotsAt?_of_ne hslots, numbersAt?_table h hdeclarator, hnumbers]
  rfl

/-- What follows the name of a vector. -/
def vectorDeclarator (values : List Float) : String :=
  "[" ++ toString values.length ++ "] = \x7b " ++ literals values ++ " \x7d;"

theorem numbers?_vector (x : Float) (xs : List Float) (rest : List (List Char)) :
    numbers? (vectorDeclarator (x :: xs)).toList rest =
      some (.vector ((x :: xs).map Literal.of)) := by
  have hline : (vectorDeclarator (x :: xs)).toList =
      [] ++ '[' :: ((toString (x :: xs).length).toList ++ ']' :: ([' ', '=', ' '] ++ '\x7b' ::
        ((' ' :: (literals (x :: xs)).toList ++ [' ']) ++ '\x7d' :: [';']))) := by
    simp [vectorDeclarator]
  have hclose : '\x7d' ∉ ' ' :: (literals (x :: xs)).toList ++ [' '] := by
    have hentries := (only_literals (x :: xs)).not_mem (c := '\x7d') (by decide)
    simp [hentries]
  have hfields : fields ['[', ']', '\x7b', '\x7d'] (vectorDeclarator (x :: xs)).toList =
      some [[], (toString (x :: xs).length).toList, [' ', '=', ' '],
        ' ' :: (literals (x :: xs)).toList ++ [' '], [';']] := by
    rw [hline, fields_cons (by decide),
      fields_cons (Text.not_mem_toString (by decide) _), fields_cons (by decide),
      fields_cons hclose, fields]
    rfl
  rw [numbers?, hfields]
  simp only
  rw [literals?_literals, Option.bind_eq_bind, Option.bind_some, words_toString, natural?,
    Text.decimal?_toString, List.length_map, if_pos rfl]
  rfl

theorem declares_vector {name : String} (h : isName name = true) {values : List Float}
    (hne : values ≠ []) :
    Declares [.vector name values] [.numbers name (.vector (values.map Literal.of))] := by
  obtain ⟨x, xs, rfl⟩ := List.exists_cons_of_ne_nil hne
  have hlines : (Item.vector name (x :: xs)).lines =
      ["static const fmi2Real " ++ name ++ vectorDeclarator (x :: xs)] := by
    simp only [Item.lines, vectorDeclarator, String.append_assoc]
  refine declares_of_head _ hlines (fun rest => ?_) (List.forall_mem_nil _)
  exact declarationAt?_table h (by simp [vectorDeclarator]) (numbers?_vector x xs rest)

/-- What follows the name of a matrix. -/
def matrixDeclarator (height width : Nat) : String :=
  "[" ++ toString height ++ "][" ++ toString width ++ "] = \x7b"

theorem fields_matrixDeclarator (height width : Nat) :
    fields ['[', ']', '\x7b', '\x7d'] (matrixDeclarator height width).toList = none ∧
      fields ['[', ']', '[', ']', '\x7b'] (matrixDeclarator height width).toList =
        some [[], (toString height).toList, [], (toString width).toList, [' ', '=', ' '], []] := by
  have hheight : ']' ∉ (toString height).toList := Text.not_mem_toString (by decide) _
  have hwidth : ']' ∉ (toString width).toList := Text.not_mem_toString (by decide) _
  have hbrace : '\x7b' ∉ '[' :: ((toString width).toList ++ [']', ' ', '=', ' ']) := by
    rw [List.mem_cons, List.mem_append, not_or, not_or]
    exact ⟨by decide, Text.not_mem_toString (by decide) _, by decide⟩
  have hline : (matrixDeclarator height width).toList =
      [] ++ '[' :: ((toString height).toList ++ ']' ::
        ('[' :: ((toString width).toList ++ [']', ' ', '=', ' ']) ++ '\x7b' :: [])) := by
    simp [matrixDeclarator]
  have hinner : '[' :: ((toString width).toList ++ [']', ' ', '=', ' ']) ++ '\x7b' :: [] =
      [] ++ '[' :: ((toString width).toList ++ ']' :: ([' ', '=', ' '] ++ '\x7b' :: [])) := by
    simp
  constructor
  · rw [hline, fields_cons (by decide), fields_cons hheight, fields_cons hbrace]
    rfl
  · rw [hline, fields_cons (by decide), fields_cons hheight, hinner, fields_cons (by decide),
      fields_cons hwidth, fields_cons (by decide), fields]
    rfl

theorem numbers?_matrix {grid : Model.Grid Float} (hcols : 0 < grid.cols)
    (rest : List (List Char)) :
    numbers? (matrixDeclarator grid.height grid.cols).toList
        (grid.rows.map (fun row => (rowLine row).toList) ++ tableEnd :: rest) =
      some (.matrix (grid.rows.map (·.map Literal.of))) := by
  obtain ⟨hvector, hmatrix⟩ := fields_matrixDeclarator grid.height grid.cols
  have hrows : (grid.rows.map fun row => (rowLine row).toList).mapM row? =
      some (grid.rows.map (·.map Literal.of)) := by
    refine mapM_rowLine fun row hrow => ?_
    rw [← List.length_pos_iff, grid.width row hrow]
    exact hcols
  have htake : (grid.rows.map (fun row => (rowLine row).toList) ++ tableEnd :: rest).takeWhile
      (· != tableEnd) = grid.rows.map fun row => (rowLine row).toList := by
    rw [List.takeWhile_append_of_pos]
    · simp
    · intro line hline
      obtain ⟨row, -, rfl⟩ := List.mem_map.1 hline
      rw [bne_iff_ne]
      intro heq
      have hhead := head?_rowLine row
      rw [heq] at hhead
      exact absurd hhead (by decide)
  have hshape : tableEnd ∈ grid.rows.map (fun row => (rowLine row).toList) ++ tableEnd :: rest ∧
      some (grid.rows.map (·.map Literal.of)).length =
        natural? (words (toString grid.height).toList) ∧
      ∀ row ∈ grid.rows.map (·.map Literal.of),
        some row.length = natural? (words (toString grid.cols).toList) := by
    simp only [words_toString, natural?, Text.decimal?_toString, Option.some_inj]
    refine ⟨by simp, by simp [Model.Grid.height], fun row hrow => ?_⟩
    obtain ⟨values, hvalues, rfl⟩ := List.mem_map.1 hrow
    rw [List.length_map, grid.width values hvalues]
  rw [numbers?, hvector, hmatrix]
  simp only [Option.bind_eq_bind, Option.bind_some]
  rw [htake, hrows, Option.bind_some, if_pos hshape]
  rfl

theorem declares_matrix {name : String} (h : isName name = true) {grid : Model.Grid Float}
    (hcols : 0 < grid.cols) :
    Declares [.matrix name grid] [.numbers name (.matrix (grid.rows.map (·.map Literal.of)))] := by
  have hlines : (Item.matrix name grid).lines =
      ("static const fmi2Real " ++ name ++ matrixDeclarator grid.height grid.cols) ::
        (grid.rows.map rowLine ++ ["\x7d;"]) := by
    simp only [Item.lines, matrixDeclarator, String.append_assoc]
    rfl
  refine declares_of_head _ hlines (fun rest => ?_) ?_
  · have hrest : (grid.rows.map rowLine ++ ["\x7d;"]).map String.toList ++ rest =
        grid.rows.map (fun row => (rowLine row).toList) ++ tableEnd :: rest := by
      simp [tableEnd, Function.comp_def]
    rw [hrest]
    exact declarationAt?_table h (by simp [matrixDeclarator]) (numbers?_matrix hcols rest)
  · rw [List.forall_mem_append, List.forall_mem_singleton]
    refine ⟨fun line hline => ?_, inert_of_head (by decide) (by decide)⟩
    obtain ⟨row, -, rfl⟩ := List.mem_map.1 hline
    have hhead := head?_rowLine row
    exact inert_of_head (by simp [hhead]) (by simp [hhead])

/-! ## Pieces that declare nothing -/

/-- A piece of which no line opens a declaration. -/
def Item.Inert (item : Item Float) : Prop := ∀ line ∈ item.lines, Source.Inert line.toList

theorem inert_blank : (Item.blank : Item Float).Inert := by
  rw [Item.Inert, Item.lines, List.forall_mem_singleton]
  exact inert_of_head (by decide) (by decide)

theorem inert_note (line : String) : (Item.note line : Item Float).Inert := by
  rw [Item.Inert, Item.lines, List.forall_mem_singleton]
  exact inert_of_head (by simp) (by simp)

theorem inert_remark (lines : List String) : (Item.remark lines : Item Float).Inert := by
  rw [Item.Inert, Item.lines, List.forall_mem_cons, List.forall_mem_append,
    List.forall_mem_singleton]
  refine ⟨inert_of_head (by decide) (by decide), fun line hline => ?_,
    inert_of_head (by decide) (by decide)⟩
  obtain ⟨text, -, rfl⟩ := List.mem_map.1 hline
  exact inert_of_head (by simp) (by simp)

theorem inert_header (file : String) : (Item.header file : Item Float).Inert := by
  rw [Item.Inert, Item.lines, List.forall_mem_singleton]
  exact inert_of_head (by simp) (by simp)

theorem inert_define (name : String) (value : Expr Float) : (Item.define name value).Inert := by
  rw [Item.Inert, Item.lines, List.forall_mem_singleton]
  exact inert_of_head (by simp) (by simp)

theorem inert_registers (name : String) (base : Nat) :
    (Item.registers name base : Item Float).Inert := by
  rw [Item.Inert, Item.lines, List.forall_mem_singleton]
  exact inert_of_head (by simp) (by simp)

theorem inert_linkage :
    (Item.linkageOpen : Item Float).Inert ∧ (Item.linkageClose : Item Float).Inert := by
  simp only [Item.Inert, Item.lines, List.forall_mem_cons]
  refine ⟨⟨?_, ?_, ?_, List.forall_mem_nil _⟩, ?_, ?_, ?_, List.forall_mem_nil _⟩ <;>
    exact inert_of_head (by decide) (by decide)

theorem inert_references (name : String) (values : List Nat) :
    (Item.references name values : Item Float).Inert := by
  rw [Item.Inert, Item.lines, List.forall_mem_singleton]
  simp only [String.append_assoc]
  exact inert_constant (by decide) _

theorem inert_support : (Item.passage support : Item Float).Inert := by
  unfold Item.Inert Item.lines support
  repeat refine List.forall_mem_cons.2 ⟨inert_ofList (by decide), ?_⟩
  exact List.forall_mem_nil _

theorem declares_cons_inert {item : Item Float} {items : List (Item Float)} {ds : List Declaration}
    (hitem : item.Inert) (h : Declares items ds) : Declares (item :: items) ds := by
  have hfirst : Declares [item] [] := declares_of_inert (List.forall_mem_singleton.2 hitem)
  exact hfirst.append h

/-! ## The type of instances -/

/-- The line that declares the registers. -/
def slotLine (n : Nat) : String := "    fmi2Real r[" ++ toString n ++ "];"

theorem toList_slotLine (n : Nat) :
    (slotLine n).toList = slotsStart ++ ((toString n).toList ++ ']' :: [';']) := by
  have hend : (toString n ++ "];").toList = (toString n).toList ++ ']' :: [';'] := by simp
  show ("    fmi2Real r[" ++ toString n ++ "];").toList = _
  rw [String.append_assoc]
  exact String.toList_append.trans (congrArg (slotsStart ++ ·) hend)

theorem slots?_slotLine (n : Nat) : slots? (slotLine n).toList = some n := by
  have hfields : fields [']'] ((toString n).toList ++ ']' :: [';']) =
      some [(toString n).toList, [';']] := by
    rw [fields_cons (Text.not_mem_toString (by decide) _), fields]
    rfl
  rw [toList_slotLine, slots?, if_pos (List.prefix_append _ _), List.drop_left, hfields]
  simp only [words_toString, natural?, Text.decimal?_toString]

/-- The fields of an instance after its registers. -/
def laterFields : List String := [
  "    fmi2Real time;",
  "    fmi2Char instanceName[256];",
  "    fmi2Type type;",
  "    fmi2String GUID;",
  "    const fmi2CallbackFunctions *functions;",
  "    fmi2Boolean loggingOn;",
  "    fmi2Boolean logCategories[NUMBER_OF_CATEGORIES];",
  "    fmi2ComponentEnvironment componentEnvironment;",
  "    fmi2Boolean isDirtyValues;"]

/-- The lines between the first and the last one of the type of instances. -/
def fieldLines (n : Nat) : List String := "    ModelState state;" :: slotLine n :: laterFields

def isOtherField (cs : List Char) : Bool := cs.head? == some ' ' && (slots? cs).isNone

theorem otherField_ofList {cs : List Char} (h : isOtherField cs = true) :
    (String.ofList cs).toList.head? = some ' ' ∧ slots? (String.ofList cs).toList = none := by
  rw [String.toList_ofList]
  simpa [isOtherField] using h

theorem otherField_later :
    ∀ line ∈ laterFields, line.toList.head? = some ' ' ∧ slots? line.toList = none := by
  unfold laterFields
  repeat refine List.forall_mem_cons.2 ⟨otherField_ofList (by decide), ?_⟩
  exact List.forall_mem_nil _

theorem otherField_state : "    ModelState state;".toList.head? = some ' ' ∧
    slots? "    ModelState state;".toList = none :=
  otherField_ofList (by decide)

theorem indented_fieldLines (n : Nat) : ∀ line ∈ fieldLines n, line.toList.head? = some ' ' := by
  rw [fieldLines, List.forall_mem_cons, List.forall_mem_cons]
  refine ⟨otherField_state.1, ?_, fun line hline => (otherField_later line hline).1⟩
  rw [toList_slotLine, List.head?_append, show slotsStart.head? = some ' ' from rfl]
  rfl

theorem slotsAt?_fieldLines (n : Nat) (rest : List (List Char)) :
    slotsAt? instanceStart ((fieldLines n).map String.toList ++ instanceEnd :: rest) = some n := by
  have htake : ((fieldLines n).map String.toList ++ instanceEnd :: rest).takeWhile
      (· != instanceEnd) = (fieldLines n).map String.toList := by
    rw [List.takeWhile_append_of_pos]
    · simp
    · intro line hline
      obtain ⟨text, htext, rfl⟩ := List.mem_map.1 hline
      have hhead := indented_fieldLines n text htext
      rw [bne_iff_ne]
      intro heq
      rw [heq] at hhead
      exact absurd hhead (by decide)
  have hlater : (laterFields.map String.toList).filterMap slots? = [] := by
    rw [List.filterMap_eq_nil_iff, List.forall_mem_map]
    exact fun line hline => (otherField_later line hline).2
  rw [slotsAt?, if_pos rfl, htake, fieldLines, List.map_cons, List.map_cons,
    List.filterMap_cons_none otherField_state.2, List.filterMap_cons_some (slots?_slotLine n),
    hlater]

theorem declarationAt?_of_slots {line : List Char} {rest : List (List Char)} {n : Nat}
    (h : slotsAt? line rest = some n) : declarationAt? line rest = some (.slots n) := by
  rw [declarationAt?, h]

theorem declares_instanceType (n : Nat) : Declares [.instanceType n] [.slots n] := by
  have hlines : (Item.instanceType n : Item Float).lines =
      "typedef struct \x7b" :: (fieldLines n ++ ["\x7d ModelInstance;"]) := rfl
  refine declares_of_head _ hlines (fun rest => ?_) ?_
  · have hslots : slotsAt? "typedef struct \x7b".toList
        ((fieldLines n).map String.toList ++ instanceEnd :: rest) = some n :=
      slotsAt?_fieldLines n rest
    have hrest : (fieldLines n ++ ["\x7d ModelInstance;"]).map String.toList ++ rest =
        (fieldLines n).map String.toList ++ instanceEnd :: rest := by
      rw [List.map_append, List.append_assoc]
      rfl
    rw [hrest]
    exact declarationAt?_of_slots hslots
  · rw [List.forall_mem_append, List.forall_mem_singleton]
    refine ⟨fun line hline => ?_, inert_of_head (by decide) (by decide)⟩
    have hhead := indented_fieldLines n line hline
    exact inert_of_head (by simp [hhead]) (by simp [hhead])

/-! ## Units -/

theorem declares_opening (l : Layout) (id : Identity) (step : Float) :
    Declares (opening l id step) [] := by
  have hblank := inert_blank
  have hdefine := inert_define
  refine declares_of_inert ?_
  simp only [opening, List.forall_mem_cons]
  exact ⟨inert_remark _, hblank, inert_header _, hblank, inert_linkage.1, hblank, hdefine _ _,
    hdefine _ _, hblank, hdefine _ _, hdefine _ _, hdefine _ _, hdefine _ _, hblank, hdefine _ _,
    hdefine _ _, hblank, List.forall_mem_nil _⟩

theorem declares_instances (l : Layout) :
    Declares (instances l) [.slots (max l.registerCount 1)] := by
  have hpassage : (Item.passage
      ["static const fmi2String logCategoriesNames[] = " ++
        "\x7b\"logAll\", \"logError\", \"logFmiCall\", \"logEvent\"\x7d;",
      "static ModelInstance instance;"] : Item Float).Inert := by
    rw [Item.Inert, Item.lines, List.forall_mem_cons, List.forall_mem_singleton]
    exact ⟨inert_constant (by decide) _, inert_ofList (by decide)⟩
  have hothers : Declares [Item.blank, .passage
      ["static const fmi2String logCategoriesNames[] = " ++
        "\x7b\"logAll\", \"logError\", \"logFmiCall\", \"logEvent\"\x7d;",
      "static ModelInstance instance;"], .blank] [] := by
    refine declares_of_inert ?_
    simp only [List.forall_mem_cons]
    exact ⟨inert_blank, hpassage, inert_blank, List.forall_mem_nil _⟩
  exact (declares_instanceType _).append hothers

theorem declares_registerMacros (l : Layout) : Declares (registerMacros l) [] := by
  refine declares_of_inert fun item hitem => ?_
  obtain ⟨b, -, hitem⟩ := List.mem_flatMap.1 hitem
  refine forall_onlyIf (P := Item.Inert) ?_ item hitem
  rw [List.forall_mem_singleton]
  exact inert_registers _ _

theorem declares_referenceTables (l : Layout) : Declares (referenceTables l) [] := by
  refine declares_of_inert fun item hitem => ?_
  obtain ⟨b, -, hitem⟩ := List.mem_flatMap.1 hitem
  refine forall_onlyIf (P := Item.Inert) ?_ item hitem
  rw [List.forall_mem_singleton]
  exact inert_references _ _

/-- A matrix as it is read back. -/
def matrixOf (grid : Model.Grid Float) : Numbers := .matrix (grid.rows.map (·.map Literal.of))

/-- A vector as it is read back. -/
def vectorOf (values : List Float) : Numbers := .vector (values.map Literal.of)

section

open Hooks

/-- The tables of numbers in a unit. -/
def tablesOf (m : Model.StateSpace Float) : List (String × Numbers) :=
  onlyIf (0 < m.nx) [("A", matrixOf m.A)] ++
  onlyIf (0 < m.nx && 0 < m.nu) [("B", matrixOf m.B)] ++
  onlyIf (0 < m.nx && 0 < m.ny) [("C", matrixOf m.C)] ++
  onlyIf (0 < m.ny && 0 < m.nu) [("D", matrixOf m.D)] ++
  onlyIf (0 < m.nx) [("x0_reset", vectorOf m.x0)] ++
  onlyIf (0 < m.nu) [("u0_reset", vectorOf m.u0)]

/-- The routines of a unit. -/
def routinesOf (l : Layout) : List (Function Literal) :=
  onlyIf (0 < l.nx || (0 < l.ny && 0 < l.nu)) [innerProduct] ++
  onlyIf (0 < l.nx) [updateDerivatives l, updateStates] ++
  [updateOutputs l] ++
  onlyIf (0 < l.nx) [copyX0toX, resetX] ++
  onlyIf (0 < l.nu) [copyU0toU, resetU] ++
  [evaluate l]

end

/-- What a unit declares. -/
def declarationsOf (m : Model.StateSpace Float) : List Declaration :=
  .slots (max m.layout.registerCount 1) ::
    ((tablesOf m).map (fun (name, table) => .numbers name table) ++
      (routinesOf m.layout).map .routine)

theorem map_onlyIf {α β : Type} (condition : Bool) (xs : List α) (f : α → β) :
    (Hooks.onlyIf condition xs).map f = Hooks.onlyIf condition (xs.map f) := by
  cases condition <;> rfl

theorem declares_coefficientTables (m : Model.StateSpace Float) :
    Declares (coefficientTables m)
      ((tablesOf m).map fun (name, table) => .numbers name table) := by
  have hA := m.aSquare
  have hC := m.cColumns
  have hD := m.dColumns
  simp only [coefficientTables, tablesOf, List.map_append, map_onlyIf, List.map_cons, List.map_nil]
  refine (((((Declares.onlyIf _ fun h => ?_).append (.onlyIf _ fun h => ?_)).append
    (.onlyIf _ fun h => ?_)).append (.onlyIf _ fun h => ?_)).append
    (.onlyIf _ fun h => ?_)).append (.onlyIf _ fun h => ?_) <;>
    simp only [Bool.and_eq_true, decide_eq_true_eq] at h <;>
    simp only [Model.StateSpace.nx, Model.StateSpace.nu, Model.StateSpace.ny] at h
  · exact declares_matrix (by decide) (by omega)
  · exact declares_matrix (by decide) (by omega)
  · exact declares_matrix (by decide) (by omega)
  · exact declares_matrix (by decide) (by omega)
  · refine declares_vector (by decide) ?_
    rw [← List.length_pos_iff, m.x0Length]
    exact h
  · refine declares_vector (by decide) ?_
    rw [← List.length_pos_iff, m.u0Length]
    exact h

theorem declares_withBlank {f : Function Float} {g : Function Literal}
    (h : f.readBack? = some g) : Declares (Hooks.withBlank f) [.routine g] :=
  (declares_function h).append (declares_of_inert (List.forall_mem_singleton.2 inert_blank))

theorem declares_hooks (l : Layout) :
    Declares (Hooks.items l) ((routinesOf l).map .routine) := by
  obtain ⟨hcopyX, hresetX, hcopyU, hresetU⟩ := readBack_resets
  have hstates : Declares (.note "Forward Euler; no substep is longer than STEP_SIZE." ::
      Hooks.withBlank Hooks.updateStates) [.routine Hooks.updateStates] :=
    declares_cons_inert (inert_note _) (declares_withBlank readBack_updateStates)
  simp only [Hooks.items, routinesOf, List.map_append, map_onlyIf, List.map_cons, List.map_nil]
  exact (((((Declares.onlyIf _ fun _ => declares_withBlank readBack_innerProduct).append
    (.onlyIf _ fun _ => (declares_withBlank (readBack_updateDerivatives l)).append hstates)).append
    (declares_withBlank (readBack_updateOutputs l))).append
    (.onlyIf _ fun _ => (declares_withBlank hcopyX).append (declares_withBlank hresetX))).append
    (.onlyIf _ fun _ => (declares_withBlank hcopyU).append (declares_withBlank hresetU))).append
    (declares_withBlank (readBack_evaluate l))

theorem declares_unit (m : Model.StateSpace Float) (id : Identity) (step : Float) :
    Declares (unit m id step) (declarationsOf m) := by
  have hclose : Declares [.header skeletonImplementation, .blank, .linkageClose] [] := by
    refine declares_of_inert ?_
    simp only [List.forall_mem_cons]
    exact ⟨inert_header _, inert_blank, inert_linkage.2, List.forall_mem_nil _⟩
  have hhooks := (declares_hooks m.layout).append hclose
  have hsupport := declares_cons_inert inert_blank (declares_cons_inert inert_support
    (declares_cons_inert inert_blank hhooks))
  have htables := (declares_coefficientTables m).append hsupport
  have hreferences := (declares_referenceTables m.layout).append
    (declares_cons_inert inert_blank htables)
  have hmacros := (declares_registerMacros m.layout).append
    (declares_cons_inert inert_blank hreferences)
  have hall := ((declares_opening m.layout id step).append (declares_instances m.layout)).append
    hmacros
  simpa [unit, declarationsOf] using hall

theorem declarations_source (m : Model.StateSpace Float) (id : Identity) (step : Float) :
    declarations (cutAt '\n' (Render.textOf (Render.sourceLines m id step)).toList) =
      declarationsOf m := by
  have hlast : declarations [[]] = [] := by decide
  rw [Render.sourceLines, cutAt_lines (tidy_unit m id step), declares_unit m id step, hlast, List.append_nil]

end Source
end LtiUnit
