import LtiUnit.Proofs.Equations
import LtiUnit.Proofs.FloatingConstant
import LtiUnit.Proofs.GuidText

/-!
# LtiUnit.Proofs.SourceContents

What the text of a unit holds: the model, double by double, its step size and its identity. The
text is read without knowing the model. The sizes come from macros, the matrices from the tables
under their names; a matrix without entries has no table, and its rows follow from the sizes.

* `floating?_of_converts` — a constant is read as the double that it is converted to.
* `contents?_source` — all contents are read from the text.
* `Contents.of_inj` — a model and an identity are known by their contents.
* `source_contents` — so a text belongs to one model, step size and identity only.
-/

namespace LtiUnit
namespace Source

open Model (StateSpace Grid)
open Number (Numeral Spelling splitSign)
open Text (cutAt)

/-! ## Floating constants -/

/-- The double that a floating constant stands for, with or without a sign before it. What makes a
numeral a floating constant is a point or a power of ten, and its value has to be finite. -/
def floating? (cs : List Char) : Option Float :=
  let (negative, digits) := splitSign cs
  if digits.any fun c => c == '.' || c == 'e' || c == 'E' then
    (Numeral.ofChars? digits).bind fun n =>
      let x := n.toFloat negative
      if x.isFinite then some x else none
  else none

/-- A constant is read as the double that it is converted to. -/
theorem floating?_of_converts {cs : List Char} {x : Float} (h : Number.Converts cs x) :
    floating? cs = some x := by
  have hfinite := h.isFinite
  obtain ⟨negative, digits, n, r, rfl, hconstant, hview, hnearest⟩ := h
  obtain ⟨hread, c, hc, hmark⟩ := Number.floatingConstant_iff.1 hconstant
  have hany : digits.any (fun c => c == '.' || c == 'e' || c == 'E') = true := by
    rw [List.any_eq_true]
    refine ⟨c, hc, ?_⟩
    rcases hmark with rfl | rfl | rfl <;> rfl
  have hvalue : n.toFloat negative = x := by
    rw [Numeral.toFloat, Number.Decimal.toFloat,
      (Number.Decimal.nearest_rank (n.decimal negative)).unique hnearest]
    exact Number.ofRank_of_view hfinite hview
  rw [floating?, Number.splitSign_constant negative hconstant]
  simp only [hany, if_true, hread, Option.bind_some, hvalue, hfinite]

theorem floating?_literal {x : Float} (h : x.isFinite = true) :
    floating? (Spelling.literal.text x).toList = some x :=
  floating?_of_converts (Number.Converts.literal h)

theorem mapM_map {α β : Type} {f : β → Option α} {g : α → β} {xs : List α}
    (h : ∀ x ∈ xs, f (g x) = some x) : (xs.map g).mapM f = some xs := by
  induction xs with
  | nil => rfl
  | cons x xs ih =>
    obtain ⟨hx, hxs⟩ := List.forall_mem_cons.1 h
    rw [List.map_cons, List.mapM_cons, hx, ih hxs]
    rfl

/-- The double that a constant in a table stands for. -/
def Literal.double? (c : Literal) : Option Float := floating? c.text.toList

theorem double?_of {x : Float} (h : x.isFinite = true) : (Literal.of x).double? = some x :=
  floating?_literal h

/-! ## The reader -/

/-- What the text of a unit holds of its model and of its build. -/
structure Contents where
  layout : Layout
  A : List (List Float)
  B : List (List Float)
  C : List (List Float)
  D : List (List Float)
  x0 : List Float
  u0 : List Float
  step : Float
  name : String
  guid : Guid
  timestamp : String

/-- The contents of the text of a unit. -/
def Contents.of (m : StateSpace Float) (id : Identity) (step : Float) : Contents where
  layout := m.layout
  A := m.A.rows
  B := m.B.rows
  C := m.C.rows
  D := m.D.rows
  x0 := m.x0
  u0 := m.u0
  step := step
  name := id.name
  guid := id.occasion.guid
  timestamp := id.timestamp

/-- The rows of the matrix under a name, of which there is none if it has no entries. -/
def rowsUnder? (name : String) (height cols : Nat) (tables : List (String × Numbers)) :
    Option (List (List Float)) :=
  match under name tables with
  | [] => if height = 0 ∨ cols = 0 then some (List.replicate height []) else none
  | [.matrix rows] => do
    let rows ← rows.mapM (List.mapM Literal.double?)
    if rows.length = height ∧ ∀ row ∈ rows, row.length = cols then return rows else none
  | _ => none

/-- The values of the vector under a name, of which there is none if it is empty. -/
def valuesUnder? (name : String) (length : Nat) (tables : List (String × Numbers)) :
    Option (List Float) :=
  match under name tables with
  | [] => if length = 0 then some [] else none
  | [.vector xs] => do
    let xs ← xs.mapM Literal.double?
    if xs.length = length then return xs else none
  | _ => none

/-- A macro that stands for a single word. -/
def word? (name : String) (macros : List (String × List String)) : Option String :=
  match under name macros with
  | [[word]] => some word
  | _ => none

/-- The text between two quotes. -/
def unquoted? (word : String) : Option String :=
  match fields ['"', '"'] word.toList with
  | some [[], text, []] => some (String.ofList text)
  | _ => none

/-- What follows a start in the first line that begins with it. -/
def afterStart? (start : List Char) (lines : List (List Char)) : Option String :=
  (lines.find? (start.isPrefixOf ·)).map fun line => String.ofList (line.drop start.length)

def timestampStart : List Char := " * Generated: ".toList

/-- The tables of numbers that a text declares. -/
def numberTables (text : String) : List (String × Numbers) :=
  (declarations (cutAt '\n' text.toList)).filterMap (·.numbers?)

def contents? (text : String) : Option Contents := do
  let macros := macros text
  let tables := numberTables text
  let nx ← (word? "NX" macros).bind Text.decimal?
  let nu ← (word? "NU" macros).bind Text.decimal?
  let ny ← (word? "NY" macros).bind Text.decimal?
  return {
    layout := ⟨nx, nu, ny⟩
    A := ← rowsUnder? "A" nx nx tables
    B := ← rowsUnder? "B" nx nu tables
    C := ← rowsUnder? "C" ny nx tables
    D := ← rowsUnder? "D" ny nu tables
    x0 := ← valuesUnder? "x0_reset" nx tables
    u0 := ← valuesUnder? "u0_reset" nu tables
    step := ← (word? "STEP_SIZE" macros).bind (floating? ·.toList)
    name := ← word? "MODEL_IDENTIFIER" macros
    guid := ← ((word? "MODEL_GUID" macros).bind unquoted?).bind Guid.ofText?
    timestamp := ← afterStart? timestampStart (cutAt '\n' text.toList) }

/-! ## Tables -/

section Tables

variable {name : String} {tables : List (String × Numbers)}

theorem rowsUnder?_matrix {grid : Grid Float} {condition : Bool}
    (h : under name tables = Hooks.onlyIf condition [matrixOf grid])
    (hcondition : condition = true ↔ 0 < grid.height ∧ 0 < grid.cols)
    (hfinite : ∀ x ∈ grid.entries, x.isFinite = true) :
    rowsUnder? name grid.height grid.cols tables = some grid.rows := by
  rw [rowsUnder?, h]
  cases condition with
  | false =>
    have hempty : grid.height = 0 ∨ grid.cols = 0 := by
      have := mt hcondition.2 (by simp)
      omega
    have hrows : grid.rows = List.replicate grid.height [] := by
      rw [List.eq_replicate_iff]
      refine ⟨rfl, fun row hrow => List.length_eq_zero_iff.1 ?_⟩
      rcases hempty with hheight | hcols
      · rw [Grid.height, List.length_eq_zero_iff] at hheight
        rw [hheight] at hrow
        cases hrow
      · rw [grid.width row hrow, hcols]
    exact (if_pos hempty).trans (congrArg some hrows.symm)
  | true =>
    have hrows : (grid.rows.map (·.map Literal.of)).mapM
        (List.mapM Literal.double?) = some grid.rows :=
      mapM_map fun row hrow => mapM_map fun x hx =>
        double?_of (hfinite x (List.mem_flatten.2 ⟨row, hrow, hx⟩))
    have hsize : grid.rows.length = grid.height ∧ ∀ row ∈ grid.rows, row.length = grid.cols :=
      ⟨rfl, grid.width⟩
    simp only [Hooks.onlyIf, if_true, matrixOf, hrows, Option.bind_eq_bind, Option.bind_some]
    exact if_pos hsize

theorem valuesUnder?_vector {values : List Float} {condition : Bool}
    (h : under name tables = Hooks.onlyIf condition [vectorOf values])
    (hcondition : condition = true ↔ 0 < values.length)
    (hfinite : ∀ x ∈ values, x.isFinite = true) :
    valuesUnder? name values.length tables = some values := by
  rw [valuesUnder?, h]
  cases condition with
  | false =>
    have hempty : values.length = 0 := by
      have := mt hcondition.2 (by simp)
      omega
    exact (if_pos hempty).trans (congrArg some (List.length_eq_zero_iff.1 hempty).symm)
  | true =>
    have hvalues : (values.map Literal.of).mapM Literal.double? = some values :=
      mapM_map fun x hx => double?_of (hfinite x hx)
    simp only [Hooks.onlyIf, if_true, vectorOf, hvalues, Option.bind_eq_bind,
      Option.bind_some]
    rfl

end Tables

/-! ## Contents -/

theorem Contents.of_inj {m m' : StateSpace Float} {id id' : Identity} {step step' : Float}
    (h : Contents.of m id step = Contents.of m' id' step') :
    m = m' ∧ step = step' ∧ id.name = id'.name ∧ id.occasion.guid = id'.occasion.guid ∧
      id.timestamp = id'.timestamp := by
  simp only [Contents.of, Contents.mk.injEq, StateSpace.layout, Layout.mk.injEq] at h
  obtain ⟨⟨hnx, hnu, hny⟩, hA, hB, hC, hD, hx0, hu0, hstep, hname, hguid, htimestamp⟩ := h
  have hgrid {g g' : Grid Float} (hrows : g.rows = g'.rows) (hcols : g.cols = g'.cols) :
      g = g' := by
    cases g
    cases g'
    cases hrows
    cases hcols
    rfl
  refine ⟨?_, hstep, hname, hguid, htimestamp⟩
  simp only [StateSpace.nx, StateSpace.nu] at hnx hnu
  have hAgrid := hgrid hA (by rw [m.aSquare, m'.aSquare, hnx])
  have hBgrid := hgrid hB hnu
  have hCgrid := hgrid hC (by rw [m.cColumns, m'.cColumns, hnx])
  have hDgrid := hgrid hD (by rw [m.dColumns, m'.dColumns, hnu])
  cases m
  cases m'
  simp only at hAgrid hBgrid hCgrid hDgrid hx0 hu0
  subst hAgrid hBgrid hCgrid hDgrid hx0 hu0
  rfl

section Unit

variable (m : StateSpace Float) (id : Identity) (step : Float)

theorem isFinite_of_mem_coefficients {x : Float} (h : x ∈ coefficients m) : x.isFinite = true := by
  have hfinite {xs : List Float} (hxs : Model.allFinite xs = true) (hx : x ∈ xs) :
      x.isFinite = true := List.all_eq_true.1 hxs x hx
  simp only [coefficients, List.mem_append] at h
  obtain ((((h | h) | h) | h) | h) | h := h
  · exact hfinite m.aFinite h
  · exact hfinite m.bFinite h
  · exact hfinite m.cFinite h
  · exact hfinite m.dFinite h
  · exact hfinite m.x0Finite h
  · exact hfinite m.u0Finite h

theorem numberTables_source :
    numberTables (Render.textOf (Render.sourceLines m id step)) = tablesOf m := by
  rw [numberTables, declarations_source, (filterMap_declarationsOf m).2.1]

theorem word?_of_under {name word : String} {macros : List (String × List String)}
    (h : under name macros = [[word]]) : word? name macros = some word := by
  rw [word?, h]

theorem unquoted?_quoted {s : String} (h : Text.Only Text.isPlain s) :
    unquoted? ("\"" ++ s ++ "\"") = some s := by
  have hmark : '"' ∉ s.toList := h.not_mem (by decide)
  have hword : ("\"" ++ s ++ "\"").toList = [] ++ '"' :: (s.toList ++ '"' :: []) := by
    simp
  rw [unquoted?, hword, fields_cons (List.not_mem_nil), fields_cons hmark, fields]
  simp

theorem afterStart?_append (start : List Char) (rest : List Char) (lines : List (List Char)) :
    afterStart? start ((start ++ rest) :: lines) = some (String.ofList rest) := by
  rw [afterStart?, List.find?_cons_of_pos (List.isPrefixOf_iff_prefix.2 (List.prefix_append ..))]
  simp

/-- A line that differs from the start somewhere is passed over. -/
theorem afterStart?_other {start other : List Char} (n : Nat)
    (h : n < other.length ∧ n < start.length ∧ other[n]? ≠ start[n]?) (rest : List Char)
    (lines : List (List Char)) :
    afterStart? start ((other ++ rest) :: lines) = afterStart? start lines := by
  have hprefix : ¬start.isPrefixOf (other ++ rest) = true := by
    rw [List.isPrefixOf_iff_prefix]
    rintro ⟨more, hmore⟩
    refine h.2.2 ?_
    have hother : (other ++ rest)[n]? = other[n]? := List.getElem?_append_left h.1
    rw [← hother, ← hmore, List.getElem?_append_left h.2.1]
  rw [afterStart?, List.find?_cons_of_neg hprefix, afterStart?]

theorem timestamp_source : afterStart? timestampStart
    (cutAt '\n' (Render.textOf (Render.sourceLines m id step)).toList) = some id.timestamp := by
  obtain ⟨items, hunit⟩ : ∃ items, unit m id step = origin id :: items := ⟨_, rfl⟩
  have hline (start rest : String) :
      (" * " ++ (start ++ rest)).toList = (" * " ++ start).toList ++ rest.toList := by
    simp only [String.toList_append, List.append_assoc]
  have hstart : timestampStart = (" * " ++ "Generated: ").toList := by decide
  have horigin : (origin id : Item Float).lines.map String.toList =
      ("/*".toList ++ []) ::
        ((" * " ++ "Generated by ").toList ++ (toolAndVersion ++ ". Do not edit.").toList) ::
        ((" * " ++ "Model:     ").toList ++ id.name.toList) ::
        ((" * " ++ "GUID:      ").toList ++ id.occasion.guid.text.toList) ::
        (timestampStart ++ id.timestamp.toList) :: [" */".toList] := by
    rw [origin, String.append_assoc, Item.lines, hstart]
    simp only [List.map_cons, List.map_nil, List.cons_append, List.nil_append, List.append_nil,
      hline]
  rw [Render.sourceLines, cutAt_lines (tidy_unit m id step), hunit, List.flatMap_cons,
    List.map_append, horigin]
  simp only [List.cons_append]
  rw [afterStart?_other 0 (by decide), afterStart?_other 13 (by decide),
    afterStart?_other 3 (by decide), afterStart?_other 4 (by decide), afterStart?_append,
    String.ofList_toList]

theorem under_tablesOf :
    under "A" (tablesOf m) = Hooks.onlyIf (0 < m.nx) [matrixOf m.A] ∧
      under "B" (tablesOf m) = Hooks.onlyIf (0 < m.nx && 0 < m.nu) [matrixOf m.B] ∧
      under "C" (tablesOf m) = Hooks.onlyIf (0 < m.nx && 0 < m.ny) [matrixOf m.C] ∧
      under "D" (tablesOf m) = Hooks.onlyIf (0 < m.ny && 0 < m.nu) [matrixOf m.D] ∧
      under "x0_reset" (tablesOf m) = Hooks.onlyIf (0 < m.nx) [vectorOf m.x0] ∧
      under "u0_reset" (tablesOf m) = Hooks.onlyIf (0 < m.nu) [vectorOf m.u0] := by
  simp [tablesOf, under_append, under_onlyIf]

/-- All tables of a model are read. -/
theorem tables_read :
    rowsUnder? "A" m.nx m.nx (tablesOf m) = some m.A.rows ∧
      rowsUnder? "B" m.nx m.nu (tablesOf m) = some m.B.rows ∧
      rowsUnder? "C" m.ny m.nx (tablesOf m) = some m.C.rows ∧
      rowsUnder? "D" m.ny m.nu (tablesOf m) = some m.D.rows ∧
      valuesUnder? "x0_reset" m.nx (tablesOf m) = some m.x0 ∧
      valuesUnder? "u0_reset" m.nu (tablesOf m) = some m.u0 := by
  obtain ⟨hA, hB, hC, hD, hx0, hu0⟩ := under_tablesOf m
  have hfinite {x : Float} (hx : x ∈ m.A.entries ∨ x ∈ m.B.entries ∨ x ∈ m.C.entries ∨
      x ∈ m.D.entries ∨ x ∈ m.x0 ∨ x ∈ m.u0) : x.isFinite = true :=
    isFinite_of_mem_coefficients m (mem_coefficients m hx)
  have hrows {name : String} {grid : Grid Float} {condition : Bool} {height cols : Nat}
      (h : under name (tablesOf m) = Hooks.onlyIf condition [matrixOf grid])
      (hheight : grid.height = height) (hcols : grid.cols = cols)
      (hcondition : condition = true ↔ 0 < height ∧ 0 < cols)
      (hgrid : ∀ x ∈ grid.entries, x.isFinite = true) :
      rowsUnder? name height cols (tablesOf m) = some grid.rows := by
    subst hheight hcols
    exact rowsUnder?_matrix h hcondition hgrid
  have hvalues {name : String} {values : List Float} {condition : Bool} {length : Nat}
      (h : under name (tablesOf m) = Hooks.onlyIf condition [vectorOf values])
      (hlength : values.length = length) (hcondition : condition = true ↔ 0 < length)
      (hall : ∀ x ∈ values, x.isFinite = true) :
      valuesUnder? name length (tablesOf m) = some values := by
    subst hlength
    exact valuesUnder?_vector h hcondition hall
  refine ⟨?_, ?_, ?_, ?_, ?_, ?_⟩
  · exact hrows hA rfl m.aSquare (by simp) fun x hx => hfinite (.inl hx)
  · exact hrows hB m.bRows rfl (by simp) fun x hx => hfinite (.inr (.inl hx))
  · exact hrows hC rfl m.cColumns (by simp [and_comm]) fun x hx => hfinite (.inr (.inr (.inl hx)))
  · exact hrows hD m.dRows m.dColumns (by simp)
      fun x hx => hfinite (.inr (.inr (.inr (.inl hx))))
  · exact hvalues hx0 m.x0Length (by simp)
      fun x hx => hfinite (.inr (.inr (.inr (.inr (.inl hx)))))
  · exact hvalues hu0 m.u0Length (by simp)
      fun x hx => hfinite (.inr (.inr (.inr (.inr (.inr hx)))))

theorem contents?_source (hstep : step.isFinite = true) :
    contents? (Render.textOf (Render.sourceLines m id step)) = some (Contents.of m id step) := by
  obtain ⟨hA, hB, hC, hD, hx0, hu0⟩ := tables_read m
  have hguid : (unquoted? ("\"" ++ id.occasion.guid.text ++ "\"")).bind Guid.ofText? =
      some id.occasion.guid := by
    rw [unquoted?_quoted (Text.plain_guid _), Option.bind_some, Guid.ofText?_text]
  rw [contents?]
  simp only [numberTables_source, timestamp_source, word?_of_under (under_NX m id step),
    word?_of_under (under_NU m id step), word?_of_under (under_NY m id step),
    word?_of_under (under_STEP_SIZE m id step), word?_of_under (under_MODEL_IDENTIFIER m id step),
    word?_of_under (under_MODEL_GUID m id step), Option.bind_some, Text.decimal?_toString,
    floating?_literal hstep, hguid, Option.bind_eq_bind]
  simp only [StateSpace.layout, hA, hB, hC, hD, hx0, hu0, Option.bind_some]
  rfl

end Unit

/-- The constants of a table of numbers. -/
def Numbers.literals : Numbers → List Literal
  | .vector xs => xs
  | .matrix rows => rows.flatten

theorem literals_matrixOf (grid : Grid Float) :
    (matrixOf grid).literals = grid.entries.map Literal.of :=
  List.map_flatten.symm

theorem literals_tablesOf (m : StateSpace Float) :
    ∀ table ∈ tablesOf m, ∀ c ∈ table.2.literals, ∃ x ∈ coefficients m, c = .of x := by
  have hmatrix {name : String} {condition : Bool} {grid : Grid Float}
      (h : ∀ x ∈ grid.entries, x ∈ coefficients m) :
      ∀ table ∈ Hooks.onlyIf condition [(name, matrixOf grid)], ∀ c ∈ table.2.literals,
        ∃ x ∈ coefficients m, c = .of x := by
    refine forall_onlyIf (List.forall_mem_singleton.2 fun c hc => ?_)
    rw [literals_matrixOf] at hc
    obtain ⟨x, hx, rfl⟩ := List.mem_map.1 hc
    exact ⟨x, h x hx, rfl⟩
  have hvector {name : String} {condition : Bool} {values : List Float}
      (h : ∀ x ∈ values, x ∈ coefficients m) :
      ∀ table ∈ Hooks.onlyIf condition [(name, vectorOf values)], ∀ c ∈ table.2.literals,
        ∃ x ∈ coefficients m, c = .of x := by
    refine forall_onlyIf (List.forall_mem_singleton.2 fun c hc => ?_)
    obtain ⟨x, hx, rfl⟩ := List.mem_map.1 hc
    exact ⟨x, h x hx, rfl⟩
  simp only [tablesOf, List.forall_mem_append]
  exact ⟨⟨⟨⟨⟨hmatrix fun x hx => mem_coefficients m (.inl hx),
    hmatrix fun x hx => mem_coefficients m (.inr (.inl hx))⟩,
    hmatrix fun x hx => mem_coefficients m (.inr (.inr (.inl hx)))⟩,
    hmatrix fun x hx => mem_coefficients m (.inr (.inr (.inr (.inl hx))))⟩,
    hvector fun x hx => mem_coefficients m (.inr (.inr (.inr (.inr (.inl hx)))))⟩,
    hvector fun x hx => mem_coefficients m (.inr (.inr (.inr (.inr (.inr hx)))))⟩

/-- From the text of a unit all of its model, its step size and its identity can be read, so that no
other model, step size or identity has the text. Each constant in a table of numbers stands for a
finite double, whatever description the model was realized from. -/
theorem source_contents (m : StateSpace Float) (id : Identity) {step : Float}
    (h : Render.validStepSize step = true) :
    ∃ text, Render.source m m.layout id step = .ok text ∧
      contents? text = some (Contents.of m id step) ∧
      (∀ table ∈ numberTables text, ∀ c ∈ table.2.literals,
        ∃ x ∈ coefficients m, x.isFinite = true ∧ c.double? = some x) ∧
      ∀ m' id' step', Render.source m' m'.layout id' step' = .ok text →
        m' = m ∧ step' = step ∧ id'.name = id.name ∧ id'.occasion.guid = id.occasion.guid ∧
          id'.timestamp = id.timestamp := by
  have hfinite {step : Float} (h : Render.validStepSize step = true) : step.isFinite = true :=
    (Bool.and_eq_true_iff.1 h).1
  have hcontents := contents?_source m id step (hfinite h)
  refine ⟨_, source_eq_ok_iff.2 ⟨h, rfl⟩, hcontents, ?_, ?_⟩
  · rw [numberTables_source]
    intro table htable c hc
    obtain ⟨x, hx, rfl⟩ := literals_tablesOf m table htable c hc
    have hx' := isFinite_of_mem_coefficients m hx
    exact ⟨x, hx, hx', double?_of hx'⟩
  · intro m' id' step' hsame
    obtain ⟨hstep, htext⟩ := source_eq_ok_iff.1 hsame
    have hother := contents?_source m' id' step' (hfinite hstep)
    rw [htext, hcontents] at hother
    exact Contents.of_inj (Option.some_inj.1 hother).symm

/-- The text of the lag `x' = -x + u`, `y = x` is that of no other model. -/
theorem source_contents_lag :
    Render.validStepSize 0.01 = true ∧
      ∃ text, Render.source StateSpace.lag StateSpace.lag.layout ⟨"lag", by decide, ⟨⟨0⟩, 0⟩⟩
          0.01 = .ok text ∧
        (contents? text).map Contents.A = some [[-1]] ∧
        ∀ m' id' step', Render.source m' m'.layout id' step' = .ok text → m' = StateSpace.lag := by
  have h : Render.validStepSize 0.01 = true := by decide
  obtain ⟨text, htext, hcontents, -, hother⟩ :=
    source_contents StateSpace.lag ⟨"lag", by decide, ⟨⟨0⟩, 0⟩⟩ h
  refine ⟨h, text, htext, ?_, fun m' id' step' hsame => (hother m' id' step' hsame).1⟩
  rw [hcontents]
  rfl

end Source
end LtiUnit
