import LtiUnit.Proofs.CarriedIdentity
import LtiUnit.Proofs.HookRuns
import LtiUnit.Proofs.UnitDeclarations

/-!
# LtiUnit.Proofs.UnitProgram

The unit of a model, read as a program.
-/

namespace LtiUnit
namespace Source

open Model (StateSpace Grid)
open Text (cutAt decimal?)

/-! ## Entries under names -/

section Entries

variable {α β : Type} {name : String}

theorem only?_of_under {entries : List (String × α)} {x : α} (h : under name entries = [x]) :
    only? name entries = some x := by
  rw [only?, h]

theorem only?_eq_none {entries : List (String × α)} (h : under name entries = []) :
    only? name entries = none := by
  rw [only?, h]

theorem under_eq_nil {entries : List (String × α)} (h : name ∉ entries.map (·.1)) :
    under name entries = [] := by
  rw [under, List.map_eq_nil_iff, List.filter_eq_nil_iff]
  intro entry hentry heq
  exact h (List.mem_map.2 ⟨entry, hentry, beq_iff_eq.1 heq⟩)

theorem under_optional (condition : Bool) (entries : List (String × α)) :
    under name (Hooks.onlyIf condition entries) = Hooks.onlyIf condition (under name entries) := by
  cases condition <;> rfl

theorem only?_optional {condition : Bool} {entries : List (String × α)} {x : α}
    (h : under name entries = Hooks.onlyIf condition [x]) :
    only? name entries = if condition then some x else none := by
  rw [only?, h]
  cases condition <;> rfl

end Entries

/-! ## Macros -/

section Macros

variable (m : StateSpace Float) (id : Identity) (step : Float)

/-- The names of the macros at the top of a unit. -/
def openingNames : List String :=
  ["MODEL_IDENTIFIER", "MODEL_GUID", "NR", "NX", "NU", "NY", "STEP_SIZE", "EULER_SUBSTEPS"]

theorem map_opening (l : Layout) :
    ((opening l id step).flatMap (Item.macros ·)).map (·.1) = openingNames := by
  simp [opening, origin, Item.macros, openingNames]

theorem under_plain {x : String} (h : x ∈ plainNames) :
    under x (macros (Render.textOf (Render.sourceLines m id step))) = [] := by
  have hnames : ∀ x ∈ plainNames, x ∉ openingNames := by decide
  have hblocks : ∀ x ∈ plainNames, ∀ b, blockMacro b ≠ x := by
    have hall : ∀ x ∈ plainNames, ∀ b ∈ Block.order, blockMacro b ≠ x := by decide
    exact fun x hx b => hall x hx b (by cases b <;> decide)
  rw [macros_source, macros_unit, under_append, under_blockMacros x (hblocks x h),
    under_eq_nil (by rw [map_opening]; exact hnames x h), List.append_nil]

theorem under_size {name : String} {n : Nat} (hname : ∀ b, blockMacro b ≠ name)
    (h : under name ((opening m.layout id step).flatMap (Item.macros ·)) =
      [words (toString n).toList]) :
    under name (macros (Render.textOf (Render.sourceLines m id step))) = [[toString n]] := by
  rw [macros_source, macros_unit, under_append, under_blockMacros _ hname, h, words_toString,
    List.append_nil]

theorem under_NX : under "NX" (macros (Render.textOf (Render.sourceLines m id step))) =
    [[toString m.layout.nx]] := by
  refine under_size m id step (by rintro ⟨⟩ <;> decide) ?_
  simp [under, opening, origin, Item.macros, Expr.text]

theorem under_NU : under "NU" (macros (Render.textOf (Render.sourceLines m id step))) =
    [[toString m.layout.nu]] := by
  refine under_size m id step (by rintro ⟨⟩ <;> decide) ?_
  simp [under, opening, origin, Item.macros, Expr.text]

theorem under_NY : under "NY" (macros (Render.textOf (Render.sourceLines m id step))) =
    [[toString m.layout.ny]] := by
  refine under_size m id step (by rintro ⟨⟩ <;> decide) ?_
  simp [under, opening, origin, Item.macros, Expr.text]

theorem toString_ne_nil (n : Nat) : (toString n).toList ≠ [] := by
  rw [Nat.toString_eq_ofList_toDigits, String.toList_ofList]
  exact List.ne_nil_of_length_pos Nat.length_toDigits_pos

theorem expansion?_toString (n : Nat) : expansion? [toString n] = some (.natural n) := by
  have hoffset : offset? [toString n] = none := by
    unfold offset?
    split
    · rename_i heq
      simp at heq
    · rfl
  have hdigit : (toString n).toList.head?.any Char.isDigit = true := by
    obtain ⟨c, cs, hcs⟩ := List.exists_cons_of_ne_nil (toString_ne_nil n)
    have hc : c ∈ (toString n).toList := hcs ▸ List.mem_cons_self ..
    rw [hcs]
    exact Text.isDigit_of_mem_toString hc
  simp only [expansion?, hoffset]
  rw [if_pos hdigit, constant, Text.decimal?_toString]

theorem expansion?_registers (base : Nat) :
    expansion? ["(comp->r", "+", toString base ++ ")"] = some (blockPointer base) := by
  simp only [expansion?, offset?_registers]

end Macros

/-! ## Tables -/

section Tables

variable {worth : Literal → ℚ} {exact : Float → ℚ}

/-- The tables of value references in a unit. -/
def referencesOf (l : Layout) : List (String × Value) :=
  [Block.state, .derivative, .output].flatMap fun b =>
    Hooks.onlyIf (0 < l.size b) [("vrs_" ++ b.name, .references (l.registers b))]

theorem references_source (m : StateSpace Float) (id : Identity) (step : Float) :
    ((tables (Render.textOf (Render.sourceLines m id step))).filterMap fun (name, declarator) =>
      (values? declarator).map fun ns => (name, Value.references ns)) = referencesOf m.layout := by
  rw [tables_source, tables_unit, List.filterMap_flatMap, referencesOf]
  congr 1
  funext b
  by_cases h : 0 < m.layout.size b
  · have hne : m.layout.registers b ≠ [] := by
      rw [Layout.registers_eq]
      simp [Nat.ne_of_gt h]
    simp [tableEntry, Hooks.onlyIf, h, values?_declarator hne]
  · simp [tableEntry, Hooks.onlyIf, h]

theorem map_getD_range {α : Type} (xs : List α) (x : α) :
    (List.range xs.length).map (fun i => xs.getD i x) = xs := by
  refine List.ext_getElem (by simp) fun i h _ => ?_
  rw [List.length_map, List.length_range] at h
  simp [h]

/-- A matrix is read with the value of every entry. -/
theorem value_matrixOf {grid : Grid Float} (h : ∀ x ∈ grid.entries, worth (.of x) = exact x) :
    (matrixOf grid).value worth =
      matrixTable grid.height grid.cols fun i j => exact (grid.entryD i j 0) := by
  have hrow : ∀ row ∈ grid.rows, (row.map Literal.of).map worth =
      (List.range grid.cols).map fun j => exact (row.getD j 0) := by
    intro row hrow
    have hentries : ∀ x ∈ row, worth (.of x) = exact x := fun x hx =>
      h x (List.mem_flatten.2 ⟨row, hrow, hx⟩)
    calc (row.map Literal.of).map worth = row.map exact := by
          rw [List.map_map]
          exact List.map_congr_left hentries
      _ = ((List.range row.length).map fun j => row.getD j 0).map exact := by
          rw [map_getD_range]
      _ = (List.range grid.cols).map fun j => exact (row.getD j 0) := by
          rw [List.map_map, grid.width row hrow]
          rfl
  have hrows : (grid.rows.map (·.map Literal.of)).map (·.map worth) =
      (List.range grid.height).map fun i =>
        (List.range grid.cols).map fun j => exact (grid.entryD i j 0) := by
    calc (grid.rows.map (·.map Literal.of)).map (·.map worth) =
          grid.rows.map fun row => (List.range grid.cols).map fun j => exact (row.getD j 0) := by
          rw [List.map_map]
          exact List.map_congr_left hrow
      _ = ((List.range grid.rows.length).map fun i => grid.rows.getD i []).map fun row =>
            (List.range grid.cols).map fun j => exact (row.getD j 0) := by
          rw [map_getD_range]
      _ = (List.range grid.height).map fun i =>
            (List.range grid.cols).map fun j => exact (grid.entryD i j 0) := by
          rw [List.map_map]
          rfl
  exact congrArg Value.matrix hrows

/-- A vector is read with the value of every entry. -/
theorem value_vectorOf {values : List Float} (h : ∀ x ∈ values, worth (.of x) = exact x) :
    (vectorOf values).value worth =
      vectorTable values.length fun i => exact (values.getD i 0) := by
  have hvalues : (values.map Literal.of).map worth =
      (List.range values.length).map fun i => exact (values.getD i 0) := by
    calc (values.map Literal.of).map worth = values.map exact := by
          rw [List.map_map]
          exact List.map_congr_left h
      _ = ((List.range values.length).map fun i => values.getD i 0).map exact := by
          rw [map_getD_range]
      _ = (List.range values.length).map fun i => exact (values.getD i 0) := by
          rw [List.map_map]
          rfl
  exact congrArg Value.reals hvalues

/-- The tables of numbers in a unit, with their values. -/
def numbersOf (worth : Literal → ℚ) (m : StateSpace Float) : List (String × Value) :=
  (tablesOf m).map fun (name, table) => (name, table.value worth)

end Tables

/-! ## Routines -/

/-- The routines of a unit by their names. -/
def routineEntries (l : Layout) : List (String × Function Literal) :=
  (routinesOf l).map fun f => (f.name, f)

theorem routineEntries_eq (l : Layout) : routineEntries l =
    Hooks.onlyIf (0 < l.nx || (0 < l.ny && 0 < l.nu)) [("innerProduct", Hooks.innerProduct)] ++
    Hooks.onlyIf (0 < l.nx) [("updateDerivatives", Hooks.updateDerivatives l),
      ("updateStates", Hooks.updateStates)] ++
    [("updateOutputs", Hooks.updateOutputs l)] ++
    Hooks.onlyIf (0 < l.nx) [("copyX0toX", Hooks.copyX0toX), ("resetX", Hooks.resetX)] ++
    Hooks.onlyIf (0 < l.nu) [("copyU0toU", Hooks.copyU0toU), ("resetU", Hooks.resetU)] ++
    [("evaluate", Hooks.evaluate l)] := by
  simp only [routineEntries, routinesOf, List.map_append, map_onlyIf]
  rfl

theorem onlyIf_nil {α : Type} (condition : Bool) : Hooks.onlyIf condition ([] : List α) = [] := by
  cases condition <;> rfl

theorem under_routineEntries (l : Layout) :
    under "innerProduct" (routineEntries l) =
        Hooks.onlyIf (0 < l.nx || (0 < l.ny && 0 < l.nu)) [Hooks.innerProduct] ∧
      under "updateDerivatives" (routineEntries l) =
        Hooks.onlyIf (0 < l.nx) [Hooks.updateDerivatives l] ∧
      under "updateStates" (routineEntries l) = Hooks.onlyIf (0 < l.nx) [Hooks.updateStates] ∧
      under "updateOutputs" (routineEntries l) = [Hooks.updateOutputs l] ∧
      under "copyX0toX" (routineEntries l) = Hooks.onlyIf (0 < l.nx) [Hooks.copyX0toX] ∧
      under "resetX" (routineEntries l) = Hooks.onlyIf (0 < l.nx) [Hooks.resetX] ∧
      under "copyU0toU" (routineEntries l) = Hooks.onlyIf (0 < l.nu) [Hooks.copyU0toU] ∧
      under "resetU" (routineEntries l) = Hooks.onlyIf (0 < l.nu) [Hooks.resetU] ∧
      under "evaluate" (routineEntries l) = [Hooks.evaluate l] ∧
      under "memcpy" (routineEntries l) = [] := by
  simp only [routineEntries_eq, under_append, under_optional]
  simp [under, onlyIf_nil]

/-! ## The program -/

/-- The unit of a model as a program. -/
def programOf (worth : Literal → ℚ) (m : StateSpace Float) (id : Identity) (step : Float) :
    Program where
  registerCount := m.layout.registerCount
  expansion := fun x =>
    (only? x (macros (Render.textOf (Render.sourceLines m id step)))).bind expansion?
  table := fun x => only? x (referencesOf m.layout ++ numbersOf worth m)
  routine := fun name => only? name (routineEntries m.layout)
  worth := worth

theorem filterMap_declarationsOf (m : StateSpace Float) :
    (declarationsOf m).filterMap (·.slots?) = [max m.layout.registerCount 1] ∧
      (declarationsOf m).filterMap (·.numbers?) = tablesOf m ∧
      (declarationsOf m).filterMap (·.routine?) =
        (routinesOf m.layout).map fun f => (f.name, f) := by
  simp [declarationsOf, List.filterMap_map, Declaration.slots?,
    Declaration.numbers?, Declaration.routine?]

/-- The text of a unit is read as its program. -/
theorem ofText?_source (worth : Literal → ℚ) (m : StateSpace Float) (id : Identity)
    (step : Float) :
    Program.ofText? worth (Render.textOf (Render.sourceLines m id step)) =
      some (programOf worth m id step, max m.layout.registerCount 1) := by
  obtain ⟨hslots, hnumbers, hroutines⟩ := filterMap_declarationsOf m
  have hcount : natural? [toString m.layout.registerCount] = some m.layout.registerCount :=
    Text.decimal?_toString _
  rw [Program.ofText?]
  simp only
  rw [declarations_source, references_source, hslots, hnumbers, hroutines,
    only?_of_under (under_NR m id step)]
  simp only
  rw [Option.bind_eq_bind, Option.bind_some, hcount]
  rfl

/-- The coefficients of a model, whose texts are in its unit. -/
def coefficients (m : StateSpace Float) : List Float :=
  m.A.entries ++ m.B.entries ++ m.C.entries ++ m.D.entries ++ m.x0 ++ m.u0

/-- A model in exact numbers. -/
def systemOf (exact : Float → ℚ) (m : StateSpace Float) : System where
  layout := m.layout
  A := fun i j => exact (m.A.entryD i j 0)
  B := fun i j => exact (m.B.entryD i j 0)
  C := fun i j => exact (m.C.entryD i j 0)
  D := fun i j => exact (m.D.entryD i j 0)
  x0 := fun i => exact (m.x0.getD i 0)
  u0 := fun i => exact (m.u0.getD i 0)

section Program

variable {worth : Literal → ℚ} {exact : Float → ℚ} (m : StateSpace Float) (id : Identity)
  (step : Float)

theorem under_referencesOf (l : Layout) {b : Block} (hb : b ∈ [Block.state, .derivative, .output]) :
    under ("vrs_" ++ b.name) (referencesOf l) =
      Hooks.onlyIf (0 < l.size b) [.references (l.registers b)] := by
  rw [referencesOf, under_flatMap]
  simp only [under_onlyIf]
  simp only [List.mem_cons, List.not_mem_nil, or_false] at hb
  rcases hb with rfl | rfl | rfl <;> simp [Block.name]

theorem under_referencesOf_numbers (l : Layout) {name : String}
    (h : ∀ b ∈ [Block.state, .derivative, .output], "vrs_" ++ b.name ≠ name) :
    under name (referencesOf l) = [] := by
  rw [referencesOf, under_flatMap, List.flatMap_eq_nil_iff]
  intro b hb
  rw [under_onlyIf, if_neg (h b hb)]

theorem under_numbersOf_references {b : Block} (hb : b ∈ [Block.state, .derivative, .output]) :
    under ("vrs_" ++ b.name) (numbersOf worth m) = [] := by
  have hnames : ∀ entry ∈ tablesOf m,
      entry.1 ∈ ["A", "B", "C", "D", "x0_reset", "u0_reset"] := by
    simp only [tablesOf, List.forall_mem_append]
    refine ⟨⟨⟨⟨⟨?_, ?_⟩, ?_⟩, ?_⟩, ?_⟩, ?_⟩ <;>
      refine forall_onlyIf ?_ <;>
      simp
  have hapart : ∀ b ∈ [Block.state, .derivative, .output],
      "vrs_" ++ b.name ∉ ["A", "B", "C", "D", "x0_reset", "u0_reset"] := by decide
  refine under_eq_nil fun hmem => hapart b hb ?_
  obtain ⟨entry, hentry, hname⟩ := List.mem_map.1 hmem
  obtain ⟨table, htable, rfl⟩ := List.mem_map.1 hentry
  exact hname ▸ hnames table htable

theorem expansion_programOf {name : String} {value : List String} {e : Expr Literal}
    (h : under name (macros (Render.textOf (Render.sourceLines m id step))) = [value])
    (he : expansion? value = some e) : (programOf worth m id step).expansion name = some e := by
  have hdefined := only?_of_under h
  unfold programOf
  simp only [hdefined, Option.bind_some, he]

theorem table_programOf {name : String} {v : Value}
    (h : under name (referencesOf m.layout) ++ under name (numbersOf worth m) = [v]) :
    (programOf worth m id step).table name = some v := by
  refine only?_of_under ?_
  rw [under_append]
  exact h

theorem number_programOf {name : String} {condition : Bool} {numbers : Numbers} {v : Value}
    (hname : ∀ b ∈ [Block.state, .derivative, .output], "vrs_" ++ b.name ≠ name)
    (h : under name (numbersOf worth m) = Hooks.onlyIf condition [numbers.value worth])
    (hcondition : condition = true) (hv : numbers.value worth = v) :
    (programOf worth m id step).table name = some v := by
  refine table_programOf m id step ?_
  rw [under_referencesOf_numbers m.layout hname, h, hcondition, hv]
  rfl

theorem matrix_programOf {name : String} {condition : Bool} {grid : Grid Float} {rows cols : Nat}
    (hname : ∀ b ∈ [Block.state, .derivative, .output], "vrs_" ++ b.name ≠ name)
    (h : under name (numbersOf worth m) = Hooks.onlyIf condition [(matrixOf grid).value worth])
    (hcondition : condition = true) (hrows : grid.height = rows) (hcols : grid.cols = cols)
    (hentries : ∀ x ∈ grid.entries, worth (.of x) = exact x) :
    (programOf worth m id step).table name =
      some (matrixTable rows cols fun i j => exact (grid.entryD i j 0)) := by
  subst hrows hcols
  exact number_programOf m id step hname h hcondition (value_matrixOf hentries)

theorem vector_programOf {name : String} {condition : Bool} {values : List Float} {n : Nat}
    (hname : ∀ b ∈ [Block.state, .derivative, .output], "vrs_" ++ b.name ≠ name)
    (h : under name (numbersOf worth m) = Hooks.onlyIf condition [(vectorOf values).value worth])
    (hcondition : condition = true) (hlength : values.length = n)
    (hentries : ∀ x ∈ values, worth (.of x) = exact x) :
    (programOf worth m id step).table name =
      some (vectorTable n fun i => exact (values.getD i 0)) := by
  subst hlength
  exact number_programOf m id step hname h hcondition (value_vectorOf hentries)

theorem mem_coefficients {x : Float} (h : x ∈ m.A.entries ∨ x ∈ m.B.entries ∨ x ∈ m.C.entries ∨
    x ∈ m.D.entries ∨ x ∈ m.x0 ∨ x ∈ m.u0) : x ∈ coefficients m := by
  simpa [coefficients] using h

theorem under_numbersOf (worth : Literal → ℚ) :
    under "A" (numbersOf worth m) =
        Hooks.onlyIf (0 < m.nx) [(matrixOf m.A).value worth] ∧
      under "B" (numbersOf worth m) =
        Hooks.onlyIf (0 < m.nx && 0 < m.nu) [(matrixOf m.B).value worth] ∧
      under "C" (numbersOf worth m) =
        Hooks.onlyIf (0 < m.nx && 0 < m.ny) [(matrixOf m.C).value worth] ∧
      under "D" (numbersOf worth m) =
        Hooks.onlyIf (0 < m.ny && 0 < m.nu) [(matrixOf m.D).value worth] ∧
      under "x0_reset" (numbersOf worth m) =
        Hooks.onlyIf (0 < m.nx) [(vectorOf m.x0).value worth] ∧
      under "u0_reset" (numbersOf worth m) =
        Hooks.onlyIf (0 < m.nu) [(vectorOf m.u0).value worth] := by
  simp [numbersOf, tablesOf, map_onlyIf, under_append, under_onlyIf]

theorem holds_programOf (hzero : worth 0 = 0)
    (h : ∀ x ∈ coefficients m, worth (.of x) = exact x) :
    (programOf worth m id step).Holds (systemOf exact m) := by
  obtain ⟨hA, hB, hC, hD, hx0, hu0⟩ := under_numbersOf m worth
  have hin {x : Float} (hx : x ∈ m.A.entries ∨ x ∈ m.B.entries ∨ x ∈ m.C.entries ∨
      x ∈ m.D.entries ∨ x ∈ m.x0 ∨ x ∈ m.u0) : worth (.of x) = exact x :=
    h x (mem_coefficients m hx)
  exact
    { registerCount := rfl
      zero := hzero
      plain := fun x hx => by
        have hdefined := only?_eq_none (under_plain m id step hx)
        unfold programOf
        simp only [hdefined, Option.bind_none]
      nx := expansion_programOf m id step (under_NX m id step) (expansion?_toString _)
      nu := expansion_programOf m id step (under_NU m id step) (expansion?_toString _)
      ny := expansion_programOf m id step (under_NY m id step) (expansion?_toString _)
      block := fun b hb => by
        have hunder := under_blockMacro m id step b
        rw [decide_eq_true (show 0 < m.layout.size b from hb)] at hunder
        exact expansion_programOf m id step hunder (expansion?_registers _)
      references := fun b hb hsize => by
        refine table_programOf m id step ?_
        rw [under_referencesOf m.layout hb, under_numbersOf_references m hb,
          decide_eq_true (show 0 < m.layout.size b from hsize)]
        rfl
      A := fun hnx => matrix_programOf m id step (by decide) hA (decide_eq_true hnx) rfl m.aSquare
        fun x hx => hin (.inl hx)
      B := fun hnx hnu => matrix_programOf m id step (by decide) hB
        (by simp [show 0 < m.nx from hnx, show 0 < m.nu from hnu]) m.bRows rfl
        fun x hx => hin (.inr (.inl hx))
      C := fun hnx hny => matrix_programOf m id step (by decide) hC
        (by simp [show 0 < m.nx from hnx, show 0 < m.ny from hny]) rfl m.cColumns
        fun x hx => hin (.inr (.inr (.inl hx)))
      D := fun hny hnu => matrix_programOf m id step (by decide) hD
        (by simp [show 0 < m.ny from hny, show 0 < m.nu from hnu]) m.dRows m.dColumns
        fun x hx => hin (.inr (.inr (.inr (.inl hx))))
      x0 := fun hnx => vector_programOf m id step (by decide) hx0 (decide_eq_true hnx) m.x0Length
        fun x hx => hin (.inr (.inr (.inr (.inr (.inl hx)))))
      u0 := fun hnu => vector_programOf m id step (by decide) hu0 (decide_eq_true hnu) m.u0Length
        fun x hx => hin (.inr (.inr (.inr (.inr (.inr hx))))) }

theorem routine_programOf {name : String} {condition : Bool} {P : Prop} [Decidable P]
    {f : Function Literal}
    (h : under name (routineEntries m.layout) = Hooks.onlyIf condition [f])
    (hcondition : condition = true ↔ P) :
    (programOf worth m id step).routine name = if P then some f else none := by
  have hfound : (programOf worth m id step).routine name = if condition then some f else none :=
    only?_optional h
  rw [hfound]
  exact if_congr hcondition rfl rfl

theorem supplies_programOf : (programOf worth m id step).Supplies m.layout := by
  obtain ⟨hproduct, hderivatives, hstates, houtputs, hcopyX, hresetX, hcopyU, hresetU, hevaluate,
    hmemcpy⟩ := under_routineEntries m.layout
  exact
    { innerProduct := routine_programOf m id step hproduct (by simp)
      updateDerivatives := routine_programOf m id step hderivatives decide_eq_true_iff
      updateStates := routine_programOf m id step hstates decide_eq_true_iff
      updateOutputs := only?_of_under houtputs
      copyX0toX := routine_programOf m id step hcopyX decide_eq_true_iff
      resetX := routine_programOf m id step hresetX decide_eq_true_iff
      copyU0toU := routine_programOf m id step hcopyU decide_eq_true_iff
      resetU := routine_programOf m id step hresetU decide_eq_true_iff
      evaluate := only?_of_under hevaluate
      memcpy := only?_eq_none hmemcpy }

end Program

end Source
end LtiUnit
