import LtiUnit.Proofs.UnitEntries

/-!
# LtiUnit.Proofs.ClosedUnit

The text of a unit is closed and declares nothing that is empty or unused. What it defines and
mentions depends on its model only through which of the three dimensions are zero (`outline`), so
that the eight outlines are checked one by one, whatever the sizes of the tables.

* `mentions_unit` — what the entries of a unit mention.
* `sized_unit` — the lengths of its arrays and their initializers.
* `source_closed` — the text of a unit is closed.
-/

namespace LtiUnit
namespace Source

open Model (StateSpace Grid)

/-! ## Closed units -/

/-- The routines that the skeleton calls. -/
def skeletonRoutines : List String :=
  ["updateDerivatives", "updateStates", "updateOutputs", "copyX0toX", "resetX", "copyU0toU",
    "resetU", "evaluate"]

def stateNames : List String :=
  ["A", "B", "C", "x0_reset", "vrs_x", "vrs_der", "_X", "_DER", "_X0", "updateDerivatives",
    "updateStates", "copyX0toX", "resetX"]

def inputNames : List String := ["B", "D", "u0_reset", "_U", "_U0", "copyU0toU", "resetU"]

def outputNames : List String := ["C", "D", "vrs_y", "_Y"]

section Mentions

variable (ms : List Mention) (x : String)

/-- The name is used somewhere. -/
def IsUsed : Prop := ∃ m ∈ ms, x ∈ m.uses

/-- The name is neither defined nor used. -/
def Absent : Prop := ∀ m ∈ ms, m.name ≠ some x ∧ x ∉ m.uses

/-- The name is defined exactly once, and before that only macros use it. -/
def DefinedOnce : Prop :=
  (ms.filter (·.name = some x)).length = 1 ∧
    ∀ m ∈ ms.takeWhile (·.name ≠ some x), x ∈ m.uses → m.role = .define

/-- After its definition the name is used by a routine. -/
def UsedLater : Prop :=
  ∃ m ∈ (ms.dropWhile (·.name ≠ some x)).tail, m.role = .routine ∧ x ∈ m.uses

/-- The name is that of a table or a routine. -/
def IsDeclared : Prop := ∃ m ∈ ms, m.name = some x ∧ m.role ≠ .define

end Mentions

/-- What the mentions of a unit with some dimensions have to satisfy. -/
structure Closed (hasStates hasInputs hasOutputs : Bool) (ms : List Mention) : Prop where
  defined : ∀ x ∈ watched, IsUsed ms x → DefinedOnce ms x
  used : ∀ x ∈ watched, IsDeclared ms x → x ∉ skeletonRoutines → UsedLater ms x
  always : IsDeclared ms "updateOutputs" ∧ IsDeclared ms "evaluate"
  states : hasStates = false → ∀ x ∈ stateNames, Absent ms x
  inputs : hasInputs = false → ∀ x ∈ inputNames, Absent ms x
  outputs : hasOutputs = false → ¬IsUsed ms "updateOutputs" ∧ ∀ x ∈ outputNames, Absent ms x

/-- The lengths that the header of the skeleton gives a name to. -/
def headerLength? (x : String) : Option Nat := if x = "NUMBER_OF_CATEGORIES" then some 4 else none

/-- A length that is positive. One that is left out is that of the initializer. -/
def Bound.Positive : Bound → Prop
  | .count n => 0 < n
  | .named x => ∃ n ∈ headerLength? x, 0 < n
  | .omitted => True
  | .other => False

/-- All arrays of an entry have positive lengths, and an initializer has the declared lengths. Only
with an initializer a length can be left out. -/
structure Entry.Sized (e : Entry) : Prop where
  positive : ∀ bs ∈ e.arrays, ∀ b ∈ bs, b.Positive
  fits : ∀ i ∈ e.initializer, ∃ bs, e.arrays = [bs] ∧ i.Fits bs
  complete : e.initializer = none → ∀ bs ∈ e.arrays, .omitted ∉ bs

/-! ## Outlines -/

open Hooks (onlyIf)

def macroNamed (x : String) : Mention := ⟨.define, some x, []⟩

def dataNamed (x : String) : Mention := ⟨.data, some x, []⟩

/-- Whether a block of registers is not empty. -/
def hasBlock (x u y : Bool) : Block → Bool
  | .state | .derivative | .stateStart => x
  | .input | .inputStart => u
  | .output => y

def tableOutline (x u y : Bool) : List Mention :=
  onlyIf x [dataNamed "A"] ++ onlyIf (x && u) [dataNamed "B"] ++
  onlyIf (x && y) [dataNamed "C"] ++ onlyIf (y && u) [dataNamed "D"] ++
  onlyIf x [dataNamed "x0_reset"] ++ onlyIf u [dataNamed "u0_reset"]

def routineUsing (x : String) (uses : List String) : Mention := ⟨.routine, some x, uses⟩

def derivativesOutline (u : Bool) : Mention :=
  routineUsing "updateDerivatives"
    (["A"] ++ onlyIf u ["B"] ++ ["vrs_der", "_X"] ++ onlyIf u ["_U"] ++ ["innerProduct"])

def outputsOutline (x u y : Bool) : Mention :=
  routineUsing "updateOutputs"
    (onlyIf y (onlyIf x ["C"] ++ onlyIf u ["D"] ++ ["vrs_y"] ++ onlyIf x ["_X"] ++
      onlyIf u ["_U"] ++ onlyIf (x || u) ["innerProduct"]))

def evaluateOutline (x y : Bool) : Mention :=
  routineUsing "evaluate" (onlyIf x ["updateDerivatives"] ++ onlyIf y ["updateOutputs"])

def routineOutline (x u y : Bool) : List Mention :=
  onlyIf (x || (y && u)) [routineUsing "innerProduct" []] ++
  onlyIf x
    [derivativesOutline u,
     routineUsing "updateStates" ["vrs_x", "vrs_der", "updateDerivatives"]] ++
  [outputsOutline x u y] ++
  onlyIf x
    [routineUsing "copyX0toX" ["_X", "_X0"],
     routineUsing "resetX" ["x0_reset", "_X0", "copyX0toX"]] ++
  onlyIf u
    [routineUsing "copyU0toU" ["_U", "_U0"],
     routineUsing "resetU" ["u0_reset", "_U0", "copyU0toU"]] ++
  [evaluateOutline x y]

/-- What the entries of a unit mention, by which dimensions are not zero. -/
def outline (x u y : Bool) : List Mention :=
  [silent, silent, silent] ++
  ["MODEL_IDENTIFIER", "MODEL_GUID", "NR", "NX", "NU", "NY", "STEP_SIZE", "EULER_SUBSTEPS"].map
    macroNamed ++
  [silent, dataNamed "logCategoriesNames", dataNamed "instance"] ++
  Block.order.flatMap (fun b => onlyIf (hasBlock x u y b) [macroNamed (blockMacro b)]) ++
  [Block.state, .derivative, .output].flatMap
    (fun b => onlyIf (hasBlock x u y b) [dataNamed ("vrs_" ++ b.name)]) ++
  tableOutline x u y ++ supportMentions ++ routineOutline x u y ++ [silent, silent, silent]

theorem defined_outline : ∀ x u y : Bool, ∀ z ∈ watched,
    IsUsed (outline x u y) z → DefinedOnce (outline x u y) z := by
  unfold IsUsed DefinedOnce
  decide +kernel

theorem used_outline : ∀ x u y : Bool, ∀ z ∈ watched,
    IsDeclared (outline x u y) z → z ∉ skeletonRoutines → UsedLater (outline x u y) z := by
  unfold IsDeclared UsedLater
  decide +kernel

theorem always_outline : ∀ x u y : Bool,
    IsDeclared (outline x u y) "updateOutputs" ∧ IsDeclared (outline x u y) "evaluate" := by
  unfold IsDeclared
  decide

theorem absent_outline :
    (∀ u y : Bool, ∀ z ∈ stateNames, Absent (outline false u y) z) ∧
      (∀ x y : Bool, ∀ z ∈ inputNames, Absent (outline x false y) z) ∧
      ∀ x u : Bool, ¬IsUsed (outline x u false) "updateOutputs" ∧
        ∀ z ∈ outputNames, Absent (outline x u false) z := by
  unfold Absent IsUsed
  decide +kernel

theorem closed_outline (x u y : Bool) : Closed x u y (outline x u y) where
  defined := defined_outline x u y
  used := used_outline x u y
  always := always_outline x u y
  states := by
    rintro rfl
    exact absent_outline.1 u y
  inputs := by
    rintro rfl
    exact absent_outline.2.1 x y
  outputs := by
    rintro rfl
    exact absent_outline.2.2 x u

/-! ## The outline of a unit -/

def Item.mentions (item : Item Float) : List Mention := item.entries.map Entry.toMention

theorem mentions_eq_nil {ts : List Lexeme} (h : wordsOf ts = []) : mentions ts = [] := by
  simp [Source.mentions, h]

theorem wordsOf_literal (x : Float) : wordsOf (literalLexemes x) = [] := by
  unfold literalLexemes
  split <;> rfl

theorem mention_ofDirective {name : String} {ts : List Lexeme}
    (h : name = "MODEL_IDENTIFIER" ∨ mentions ts = []) :
    (Entry.ofDirective (.word "define" :: .word name :: ts)).toMention = macroNamed name := by
  have huses : (if name = "MODEL_IDENTIFIER" then [] else mentions ts) = [] := by
    obtain rfl | hnone := h
    · rfl
    · rw [hnone, ite_self]
  have hentry : (Entry.ofDirective (.word "define" :: .word name :: ts)).toMention =
      ⟨.define, some name, if name = "MODEL_IDENTIFIER" then [] else mentions ts⟩ := rfl
  rw [hentry, huses]
  rfl

theorem mentions_define {name : String} {value : Expr Float}
    (h : name = "MODEL_IDENTIFIER" ∨ wordsOf value.lexemes = []) :
    (Item.define name value).mentions = [macroNamed name] :=
  congrArg (fun m => [m]) (mention_ofDirective (h.imp_right mentions_eq_nil))

theorem mentions_registers (name : String) (base : Nat) :
    (Item.registers name base : Item Float).mentions = [macroNamed name] := by
  have hnone : mentions ((registersLexemes name base).drop 2) = [] := by
    have hwords : wordsOf ((registersLexemes name base).drop 2) = ["comp", "r"] := rfl
    rw [Source.mentions, hwords]
    decide
  exact congrArg (fun m => [m]) (mention_ofDirective (.inr hnone))

theorem mentions_passage {lines : List String} {es : List Entry} (h : Reads (chars lines) es) :
    (Item.passage lines : Item Float).mentions = es.map Entry.toMention := by
  rw [Item.mentions, Item.entries, entriesOf?_eq_some_iff.2 h]
  rfl

theorem flatMap_mentions_onlyIf (condition : Bool) (items : List (Item Float)) :
    (onlyIf condition items).flatMap Item.mentions =
      onlyIf condition (items.flatMap Item.mentions) := by
  cases condition <;> rfl

theorem mentions_withBlank {f : Function Float} {m : Mention} (h : f.entry = .bare m) :
    (Hooks.withBlank f).flatMap Item.mentions = [m] := by
  have hmentions : (Hooks.withBlank f).flatMap Item.mentions = [f.entry.toMention] := rfl
  rw [hmentions, h]
  rfl

section Unit

variable (l : Layout)

theorem mentions_opening (id : Identity) (step : Float) :
    (opening l id step).flatMap Item.mentions = [silent, silent, silent] ++
      ["MODEL_IDENTIFIER", "MODEL_GUID", "NR", "NX", "NU", "NY", "STEP_SIZE",
        "EULER_SUBSTEPS"].map macroNamed := by
  have hname : (Item.define "MODEL_IDENTIFIER" (.name id.name) : Item Float).mentions =
      [macroNamed "MODEL_IDENTIFIER"] :=
    mentions_define (.inl rfl)
  have hguid : (Item.define "MODEL_GUID" (.quoted id.occasion.guid.text) : Item Float).mentions =
      [macroNamed "MODEL_GUID"] :=
    mentions_define (.inr rfl)
  have hnatural (name : String) (n : Nat) :
      (Item.define name (.natural n) : Item Float).mentions = [macroNamed name] :=
    mentions_define (.inr rfl)
  have hstep : (Item.define "STEP_SIZE" (.real step)).mentions = [macroNamed "STEP_SIZE"] :=
    mentions_define (.inr (wordsOf_literal step))
  simp only [opening, List.flatMap_cons, hname, hguid, hnatural, hstep]
  rfl

theorem mentions_instances : (instances l : List (Item Float)).flatMap Item.mentions =
    [silent, dataNamed "logCategoriesNames", dataNamed "instance"] := by
  simp only [instances, List.flatMap_cons, mentions_passage reads_passage]
  rfl

theorem hasBlock_layout (b : Block) :
    hasBlock (0 < l.nx) (0 < l.nu) (0 < l.ny) b = decide (0 < l.size b) := by
  cases b <;> rfl

theorem mentions_registerMacros : (registerMacros l : List (Item Float)).flatMap Item.mentions =
    Block.order.flatMap fun b =>
      onlyIf (hasBlock (0 < l.nx) (0 < l.nu) (0 < l.ny) b) [macroNamed (blockMacro b)] := by
  simp only [registerMacros, List.flatMap_assoc, flatMap_onlyIf, mentions_registers,
    hasBlock_layout]

theorem mentions_referenceTables :
    (referenceTables l : List (Item Float)).flatMap Item.mentions =
      [Block.state, .derivative, .output].flatMap fun b =>
        onlyIf (hasBlock (0 < l.nx) (0 < l.nu) (0 < l.ny) b) [dataNamed ("vrs_" ++ b.name)] := by
  have htable (name : String) (values : List Nat) :
      (Item.references name values : Item Float).mentions = [dataNamed name] := rfl
  simp only [referenceTables, List.flatMap_assoc, flatMap_onlyIf, htable, hasBlock_layout]

theorem mentions_coefficientTables (m : StateSpace Float) :
    (coefficientTables m).flatMap Item.mentions =
      tableOutline (0 < m.nx) (0 < m.nu) (0 < m.ny) := by
  have hmatrix (name : String) (grid : Grid Float) :
      (Item.matrix name grid).mentions = [dataNamed name] := rfl
  have hvector (name : String) (values : List Float) :
      (Item.vector name values).mentions = [dataNamed name] := rfl
  simp only [coefficientTables, tableOutline, List.flatMap_append, flatMap_onlyIf, hmatrix, hvector]

section Hooks

open Hooks

theorem entry_innerProduct : (innerProduct : Function Float).entry =
    .bare (routineUsing "innerProduct" []) := by
  rfl

theorem entry_copyX0toX : (copyX0toX : Function Float).entry =
    .bare (routineUsing "copyX0toX" ["_X", "_X0"]) := by
  rfl

theorem entry_resetX : (resetX : Function Float).entry =
    .bare (routineUsing "resetX" ["x0_reset", "_X0", "copyX0toX"]) := by
  rfl

theorem entry_copyU0toU : (copyU0toU : Function Float).entry =
    .bare (routineUsing "copyU0toU" ["_U", "_U0"]) := by
  rfl

theorem entry_resetU : (resetU : Function Float).entry =
    .bare (routineUsing "resetU" ["u0_reset", "_U0", "copyU0toU"]) := by
  rfl

theorem entry_updateDerivatives : (updateDerivatives l : Function Float).entry =
    .bare (derivativesOutline (0 < l.nu)) := by
  unfold updateDerivatives
  generalize decide (0 < l.nu) = u
  cases u <;> rfl

set_option maxRecDepth 2000 in
theorem entry_updateOutputs : (updateOutputs l : Function Float).entry =
    .bare (outputsOutline (0 < l.nx) (0 < l.nu) (0 < l.ny)) := by
  unfold updateOutputs
  split
  next hnone =>
    have hfalse : decide (0 < l.ny) = false := by simp [hnone]
    rw [hfalse]
    rfl
  next hsome =>
    have htrue : decide (0 < l.ny) = true := decide_eq_true (Nat.pos_of_ne_zero hsome)
    rw [htrue]
    generalize decide (0 < l.nx) = x
    generalize decide (0 < l.nu) = u
    cases x <;> cases u <;> rfl

set_option maxRecDepth 2000 in
theorem entry_updateStates : (updateStates : Function Float).entry =
    .bare (routineUsing "updateStates" ["vrs_x", "vrs_der", "updateDerivatives"]) := by
  rfl

theorem entry_evaluate : (evaluate l : Function Float).entry =
    .bare (evaluateOutline (0 < l.nx) (0 < l.ny)) := by
  have hzero (n : Nat) : (n == 0) = !decide (0 < n) := by cases n <;> rfl
  unfold evaluate
  rw [hzero, hzero]
  generalize decide (0 < l.nx) = x
  generalize decide (0 < l.ny) = y
  cases x <;> cases y <;> rfl

theorem mentions_hooks : (items l : List (Item Float)).flatMap Item.mentions =
    routineOutline (0 < l.nx) (0 < l.nu) (0 < l.ny) := by
  have hnote (line : String) : (Item.note line : Item Float).mentions = [] := rfl
  simp only [items, routineOutline, List.flatMap_append, flatMap_mentions_onlyIf,
    List.flatMap_cons, hnote, mentions_withBlank entry_innerProduct,
    mentions_withBlank (entry_updateDerivatives l), mentions_withBlank entry_updateStates,
    mentions_withBlank (entry_updateOutputs l), mentions_withBlank entry_copyX0toX,
    mentions_withBlank entry_resetX, mentions_withBlank entry_copyU0toU,
    mentions_withBlank entry_resetU, mentions_withBlank (entry_evaluate l)]
  rfl

end Hooks

end Unit

/-- What a unit mentions is given by which of its dimensions are zero. -/
theorem mentions_unit (m : StateSpace Float) (id : Identity) (step : Float) :
    ((unit m id step).flatMap Item.entries).map Entry.toMention =
      outline (0 < m.nx) (0 < m.nu) (0 < m.ny) := by
  have hblank : (Item.blank : Item Float).mentions = [] := rfl
  have hheader : (Item.header skeletonImplementation : Item Float).mentions = [silent] := rfl
  have hclose : (Item.linkageClose : Item Float).mentions = [silent, silent] := rfl
  have hsupport : (Item.passage support : Item Float).mentions = supportMentions := by
    rw [mentions_passage (reads_of_mentions mentions_support), List.map_map]
    exact List.map_id _
  have hmentions : ((unit m id step).flatMap Item.entries).map Entry.toMention =
      (unit m id step).flatMap Item.mentions := List.map_flatMap
  rw [hmentions]
  simp only [unit, outline, List.flatMap_append, List.flatMap_cons, List.flatMap_nil,
    mentions_opening, mentions_instances, mentions_registerMacros, mentions_referenceTables,
    mentions_coefficientTables, mentions_hooks, hblank, hheader, hclose, hsupport,
    List.nil_append, List.append_assoc]
  rfl

/-! ## The arrays of a unit -/

def Item.Sized (item : Item Float) : Prop := ∀ e ∈ item.entries, e.Sized

theorem sized_bare (m : Mention) : (Entry.bare m).Sized :=
  ⟨List.forall_mem_nil _, nofun, fun _ => List.forall_mem_nil _⟩

theorem sized_table (name : String) {lengths : List Nat} (h : ∀ n ∈ lengths, 0 < n)
    {i : Initializer} (hi : i.Fits (lengths.map Bound.count)) :
    (Entry.table name lengths i).Sized where
  positive := List.forall_mem_singleton.2 (List.forall_mem_map.2 h)
  fits := by
    rintro _ ⟨⟩
    exact ⟨_, rfl, hi⟩
  complete := nofun

theorem fits_row {α : Type} (xs : List α) : (Initializer.row xs).Fits [.count xs.length] := by
  refine ⟨List.length_map _, ?_⟩
  exact List.forall_mem_map.2 fun _ _ => rfl

theorem sized_directive (ts : List Lexeme) : (Entry.ofDirective ts).Sized := by
  unfold Entry.ofDirective
  split <;> exact sized_bare _

theorem sized_references (name : String) {values : List Nat} (h : 0 < values.length) :
    (Item.references name values : Item Float).Sized :=
  List.forall_mem_singleton.2 (sized_table name (List.forall_mem_singleton.2 h) (fits_row values))

theorem sized_vector (name : String) {values : List Float} (h : 0 < values.length) :
    (Item.vector name values).Sized :=
  List.forall_mem_singleton.2 (sized_table name (List.forall_mem_singleton.2 h) (fits_row values))

theorem sized_matrix (name : String) {grid : Grid Float} (hrows : 0 < grid.height)
    (hcols : 0 < grid.cols) : (Item.matrix name grid).Sized := by
  have hfits : (Initializer.list (grid.rows.map Initializer.row)).Fits
      [.count grid.height, .count grid.cols] := by
    refine ⟨List.length_map _, List.forall_mem_map.2 fun row hrow => ?_⟩
    rw [← grid.width row hrow]
    exact fits_row row
  refine List.forall_mem_singleton.2 (sized_table name ?_ hfits)
  exact List.forall_mem_cons.2 ⟨hrows, List.forall_mem_singleton.2 hcols⟩

theorem sized_withBlank {f : Function Float} {m : Mention} (h : f.entry = .bare m) :
    ∀ item ∈ Hooks.withBlank f, item.Sized := by
  rw [Hooks.withBlank, List.forall_mem_cons, List.forall_mem_singleton]
  refine ⟨List.forall_mem_singleton.2 ?_, List.forall_mem_nil _⟩
  rw [h]
  exact sized_bare m

theorem sized_instanceEntry {slots : Nat} (h : 0 < slots) : (instanceEntry slots).Sized where
  positive := by
    simp only [instanceEntry, List.forall_mem_cons]
    exact ⟨⟨h, List.forall_mem_nil _⟩, ⟨Nat.succ_pos 255, List.forall_mem_nil _⟩,
      ⟨⟨4, rfl, Nat.succ_pos 3⟩, List.forall_mem_nil _⟩, List.forall_mem_nil _⟩
  fits := nofun
  complete := by
    intro
    simp [instanceEntry]

theorem sized_instanceEntries : ∀ e ∈ instanceEntries, e.Sized := by
  refine List.forall_mem_cons.2 ⟨?_, List.forall_mem_singleton.2 (sized_bare _)⟩
  refine ⟨List.forall_mem_singleton.2 (List.forall_mem_singleton.2 trivial), ?_, nofun⟩
  rintro _ ⟨⟩
  refine ⟨_, rfl, List.cons_ne_nil _ _, fun i hi => ?_⟩
  have hvalue : i = .value := by simpa using hi
  rw [hvalue]
  rfl

theorem sized_passage {lines : List String} {es : List Entry} (hread : Reads (chars lines) es)
    (h : ∀ e ∈ es, e.Sized) : (Item.passage lines : Item Float).Sized := by
  rwa [Item.Sized, Item.entries, entriesOf?_eq_some_iff.2 hread]

theorem sized_blank : (Item.blank : Item Float).Sized := List.forall_mem_nil _

theorem sized_instances (l : Layout) :
    ∀ item ∈ (instances l : List (Item Float)), item.Sized := by
  have hslots : 0 < max l.registerCount 1 := by omega
  simp only [instances, List.forall_mem_cons]
  exact ⟨List.forall_mem_singleton.2 (sized_instanceEntry hslots), sized_blank,
    sized_passage reads_passage sized_instanceEntries, sized_blank, List.forall_mem_nil _⟩

theorem sized_opening (l : Layout) (id : Identity) (step : Float) :
    ∀ item ∈ opening l id step, item.Sized := by
  have hone (ts : List Lexeme) : ∀ e ∈ [Entry.ofDirective ts], e.Sized :=
    List.forall_mem_singleton.2 (sized_directive ts)
  have hopen : (Item.linkageOpen : Item Float).Sized :=
    List.forall_mem_map.2 fun m _ => sized_bare m
  simp only [opening, List.forall_mem_cons]
  exact ⟨List.forall_mem_nil _, sized_blank, hone _, sized_blank, hopen, sized_blank, hone _,
    hone _, sized_blank, hone _, hone _, hone _, hone _, sized_blank, hone _, hone _, sized_blank,
    List.forall_mem_nil _⟩

theorem forall_onlyIf_of {β : Type} {P : β → Prop} {condition : Bool} {xs : List β}
    (h : condition = true → ∀ x ∈ xs, P x) : ∀ x ∈ onlyIf condition xs, P x := by
  cases condition with
  | false => exact List.forall_mem_nil P
  | true => exact h rfl

theorem sized_registerMacros (l : Layout) :
    ∀ item ∈ (registerMacros l : List (Item Float)), item.Sized := by
  refine List.forall_mem_flatMap.2 fun b _ => forall_onlyIf (List.forall_mem_singleton.2 ?_)
  exact List.forall_mem_singleton.2 (sized_directive _)

theorem sized_referenceTables (l : Layout) :
    ∀ item ∈ (referenceTables l : List (Item Float)), item.Sized := by
  refine List.forall_mem_flatMap.2 fun b _ => forall_onlyIf_of fun h => ?_
  have hlength : 0 < (l.registers b).length := by
    rw [Layout.registers, List.length_range']
    exact of_decide_eq_true h
  exact List.forall_mem_singleton.2 (sized_references _ hlength)

theorem sized_coefficientTables (m : StateSpace Float) :
    ∀ item ∈ coefficientTables m, item.Sized := by
  have hA := m.aSquare
  have hB := m.bRows
  have hC := m.cColumns
  have hD := m.dRows
  have hD' := m.dColumns
  have hx := m.x0Length
  have hu := m.u0Length
  unfold coefficientTables
  simp only [List.forall_mem_append]
  refine ⟨⟨⟨⟨⟨?_, ?_⟩, ?_⟩, ?_⟩, ?_⟩, ?_⟩ <;>
    refine forall_onlyIf_of fun h => List.forall_mem_singleton.2 ?_ <;>
    simp only [Bool.and_eq_true, decide_eq_true_eq] at h <;>
    simp only [StateSpace.nx, StateSpace.nu, StateSpace.ny] at h
  · exact sized_matrix "A" (by omega) (by omega)
  · exact sized_matrix "B" (by omega) (by omega)
  · exact sized_matrix "C" (by omega) (by omega)
  · exact sized_matrix "D" (by omega) (by omega)
  · exact sized_vector "x0_reset" (by omega)
  · exact sized_vector "u0_reset" (by omega)

section Hooks

open Hooks

theorem sized_hooks (l : Layout) : ∀ item ∈ (items l : List (Item Float)), item.Sized := by
  have hnote (line : String) : (Item.note line : Item Float).Sized := List.forall_mem_nil _
  unfold items
  simp only [List.forall_mem_append]
  refine ⟨⟨⟨⟨⟨forall_onlyIf (sized_withBlank entry_innerProduct), forall_onlyIf ?_⟩,
    sized_withBlank (entry_updateOutputs l)⟩, forall_onlyIf ?_⟩, forall_onlyIf ?_⟩,
    sized_withBlank (entry_evaluate l)⟩
  · rw [List.forall_mem_append, List.forall_mem_cons]
    exact ⟨sized_withBlank (entry_updateDerivatives l), hnote _,
      sized_withBlank entry_updateStates⟩
  · exact List.forall_mem_append.2
      ⟨sized_withBlank entry_copyX0toX, sized_withBlank entry_resetX⟩
  · exact List.forall_mem_append.2
      ⟨sized_withBlank entry_copyU0toU, sized_withBlank entry_resetU⟩

end Hooks

/-- All arrays in a unit have positive lengths, and its initializers fit them. -/
theorem sized_unit (m : StateSpace Float) (id : Identity) (step : Float) :
    ∀ e ∈ (unit m id step).flatMap Item.entries, e.Sized := by
  have hsupport : (Item.passage support : Item Float).Sized :=
    sized_passage (reads_of_mentions mentions_support)
      (List.forall_mem_map.2 fun m _ => sized_bare m)
  have hheader : (Item.header skeletonImplementation : Item Float).Sized :=
    List.forall_mem_singleton.2 (sized_directive _)
  have hclose : (Item.linkageClose : Item Float).Sized :=
    List.forall_mem_map.2 fun m _ => sized_bare m
  refine List.forall_mem_flatMap.2 ?_
  show ∀ item ∈ unit m id step, item.Sized
  unfold unit
  simp only [List.forall_mem_append, List.forall_mem_cons]
  exact ⟨⟨⟨⟨⟨⟨sized_opening m.layout id step, sized_instances m.layout⟩,
    sized_registerMacros m.layout⟩, sized_blank, sized_referenceTables m.layout⟩,
    sized_blank, sized_coefficientTables m⟩, sized_blank, hsupport, sized_blank,
    sized_hooks m.layout⟩, hheader, sized_blank, hclose, List.forall_mem_nil _⟩

/-! ## The text of a unit -/

/-- The text of a unit is closed. Each watched name that it uses is defined once and early enough,
each of its tables and own helpers is used by a routine after it, its arrays are not empty and
have as many elements as declared, and nothing is left of a side with dimension zero. -/
theorem source_closed (m : StateSpace Float) (id : Identity) {step : Float}
    (h : Render.validStepSize step = true) :
    ∃ text es, Render.source m m.layout id step = .ok text ∧ entries? text = some es ∧
      Closed (0 < m.nx) (0 < m.nu) (0 < m.ny) (es.map Entry.toMention) ∧ ∀ e ∈ es, e.Sized := by
  have hstep : step.isFinite = true := (Bool.and_eq_true_iff.1 h).1
  refine ⟨_, _, source_eq_ok_iff.2 ⟨h, rfl⟩, entries?_source m id hstep, ?_, sized_unit m id step⟩
  rw [mentions_unit]
  exact closed_outline _ _ _

/-- The unit of the lag `x' = -x + u`, `y = x` has all three sides. -/
theorem source_closed_lag :
    Render.validStepSize 0.01 = true ∧
      ∃ text es, Render.source StateSpace.lag StateSpace.lag.layout ⟨"lag", by decide, ⟨⟨0⟩, 0⟩⟩
          0.01 = .ok text ∧ entries? text = some es ∧
        Closed true true true (es.map Entry.toMention) ∧ ∀ e ∈ es, e.Sized := by
  have h : Render.validStepSize 0.01 = true := by decide
  exact ⟨h, source_closed StateSpace.lag ⟨"lag", by decide, ⟨⟨0⟩, 0⟩⟩ h⟩

end Source
end LtiUnit
