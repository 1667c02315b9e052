import LtiUnit.Proofs.Interface
import LtiUnit.Proofs.SourceLines

/-!
# LtiUnit.Proofs.Agreement

The two texts of a unit number the registers alike. A host takes value references from the
descriptor and hands them to code that was compiled from the source, so what the one text says
about a register has to be what the other says.

* `Agree` — the two texts, as they are read back, say the same of every register.
* `renders_agree` — they do, for every model, identity and step size.
-/

namespace LtiUnit

open Descriptor (Interface variableName interface?)
open Model (StateSpace)
open Source (blockMacro macros tables under natural? offset? values?)

/-- A source and the interface of a descriptor say the same of every register of a layout. Elements
of blocks are counted from zero, names and positions from one. -/
structure Agree (l : Layout) (source : String) (d : Interface) : Prop where
  /-- There are as many variables as the source has registers, -/
  count : (under "NR" (macros source)).map natural? = [some d.entries.length]
  /-- no two of one name, -/
  distinct : (d.entries.map (·.name)).Nodup
  /-- and each has its place as value reference. -/
  numbered : d.entries.map (·.reference) = List.range d.entries.length
  /-- There is a macro for a block exactly if the block is not empty, -/
  defined : ∀ b, under (blockMacro b) (macros source) = [] ↔ l.size b = 0
  /-- and its offset counts on to the value references of the variables. -/
  offsets : ∀ b, 0 < l.size b → ∃ base,
    (under (blockMacro b) (macros source)).map offset? = [some base] ∧
      ∀ i < l.size b, ∃ v ∈ d.entries, v.name = variableName (i + 1) b ∧ v.reference = base + i
  /-- There is a table for the states, derivatives and outputs exactly if there are any, -/
  declared : ∀ b ∈ [Block.state, .derivative, .output],
    under ("vrs_" ++ b.name) (tables source) = [] ↔ l.size b = 0
  /-- and it holds the value references of their variables. -/
  listed : ∀ b ∈ [Block.state, .derivative, .output], 0 < l.size b → ∃ values,
    (under ("vrs_" ++ b.name) (tables source)).map values? = [some values] ∧
      values.length = l.size b ∧
      ∀ i < l.size b, ∃ v ∈ d.entries,
        v.name = variableName (i + 1) b ∧ values[i]? = some v.reference
  /-- Each derivative names the position of its state. -/
  derivative : ∀ i < l.nx, ∃ v ∈ d.entries, ∃ position,
    v.name = variableName (i + 1) .derivative ∧ v.derivative? = some position ∧
      d.position? (variableName (i + 1) .state) = some position
  /-- The sections of the model structure list the positions of their variables. -/
  outputs : d.outputs.map some =
    (List.range l.ny).map fun i => d.position? (variableName (i + 1) .output)
  derivatives : d.derivatives.map some =
    (List.range l.nx).map fun i => d.position? (variableName (i + 1) .derivative)
  initialUnknowns : d.initialUnknowns.map some =
    [Block.state, .derivative, .output].flatMap fun b =>
      (List.range (l.size b)).map fun i => d.position? (variableName (i + 1) b)

namespace Source

section Under

variable {α β : Type} (name : String)

theorem under_append (xs ys : List (String × α)) :
    under name (xs ++ ys) = under name xs ++ under name ys := by
  simp [under]

theorem under_flatMap (xs : List β) (f : β → List (String × α)) :
    under name (xs.flatMap f) = xs.flatMap fun x => under name (f x) := by
  simp [under, List.filter_flatMap, List.map_flatMap]

end Under

/-! ## The macros and tables of a unit -/

/-- A piece that defines no macros and declares no tables. -/
def Item.Silent (item : Item Float) : Prop := item.macros = [] ∧ item.tables = []

theorem silent_coefficientTables (m : StateSpace Float) :
    ∀ item ∈ coefficientTables m, item.Silent := by
  unfold coefficientTables
  simp only [List.forall_mem_append]
  refine ⟨⟨⟨⟨⟨?_, ?_⟩, ?_⟩, ?_⟩, ?_⟩, ?_⟩ <;>
    refine forall_onlyIf ?_ <;>
    rw [List.forall_mem_singleton] <;>
    exact ⟨rfl, rfl⟩

theorem silent_withBlank (f : Function Float) : ∀ item ∈ Hooks.withBlank f, item.Silent := by
  rw [Hooks.withBlank, List.forall_mem_cons, List.forall_mem_singleton]
  exact ⟨⟨rfl, rfl⟩, rfl, rfl⟩

theorem silent_hooks (l : Layout) : ∀ item ∈ (Hooks.items l : List (Item Float)), item.Silent := by
  unfold Hooks.items
  simp only [List.forall_mem_append]
  refine ⟨⟨⟨⟨⟨forall_onlyIf (silent_withBlank _), forall_onlyIf ?_⟩, silent_withBlank _⟩,
    forall_onlyIf ?_⟩, forall_onlyIf ?_⟩, silent_withBlank _⟩
  · rw [List.forall_mem_append, List.forall_mem_cons]
    exact ⟨silent_withBlank _, ⟨rfl, rfl⟩, silent_withBlank _⟩
  · exact List.forall_mem_append.2 ⟨silent_withBlank _, silent_withBlank _⟩
  · exact List.forall_mem_append.2 ⟨silent_withBlank _, silent_withBlank _⟩

theorem flatMap_macros_of_silent {items : List (Item Float)} (h : ∀ item ∈ items, item.Silent) :
    items.flatMap Item.macros = [] :=
  List.flatMap_eq_nil_iff.2 fun item hitem => (h item hitem).1

theorem flatMap_tables_of_silent {items : List (Item Float)} (h : ∀ item ∈ items, item.Silent) :
    items.flatMap Item.tables = [] :=
  List.flatMap_eq_nil_iff.2 fun item hitem => (h item hitem).2

theorem flatMap_onlyIf {α β : Type} (condition : Bool) (x : α) (f : α → List β) :
    (Hooks.onlyIf condition [x]).flatMap f = Hooks.onlyIf condition (f x) := by
  cases condition <;> simp [Hooks.onlyIf]

def blockEntry (l : Layout) (b : Block) : List (String × List String) :=
  Hooks.onlyIf (0 < l.size b) [(blockMacro b, ["(comp->r", "+", toString (l.base b) ++ ")"])]

def tableEntry (l : Layout) (b : Block) : List (String × List Char) :=
  Hooks.onlyIf (0 < l.size b) [("vrs_" ++ b.name, (declarator (l.registers b)).toList)]

theorem macros_unit (m : StateSpace Float) (id : Identity) (step : Float) :
    (unit m id step).flatMap Item.macros =
      (opening m.layout id step).flatMap Item.macros ++
        Block.order.flatMap (blockEntry m.layout) := by
  have hregisters : (registerMacros m.layout).flatMap (Item.macros ·) =
      Block.order.flatMap (blockEntry m.layout) := by
    simp only [registerMacros, List.flatMap_assoc, flatMap_onlyIf]
    rfl
  have htables : (referenceTables m.layout).flatMap (Item.macros ·) = [] := by
    simp only [referenceTables, List.flatMap_assoc, flatMap_onlyIf]
    simp [Hooks.onlyIf, Item.macros]
  have hcoefficients := flatMap_macros_of_silent (silent_coefficientTables m)
  have hhooks := flatMap_macros_of_silent (silent_hooks m.layout)
  simp only [unit, List.flatMap_append, List.flatMap_cons, hregisters, htables, hcoefficients,
    hhooks]
  simp [Item.macros, instances]

theorem tables_unit (m : StateSpace Float) (id : Identity) (step : Float) :
    (unit m id step).flatMap Item.tables =
      [Block.state, .derivative, .output].flatMap (tableEntry m.layout) := by
  have hregisters : (registerMacros m.layout).flatMap (Item.tables ·) = [] := by
    simp only [registerMacros, List.flatMap_assoc, flatMap_onlyIf]
    simp [Hooks.onlyIf, Item.tables]
  have htables : (referenceTables m.layout).flatMap (Item.tables ·) =
      [Block.state, .derivative, .output].flatMap (tableEntry m.layout) := by
    simp only [referenceTables, List.flatMap_assoc, flatMap_onlyIf]
    rfl
  have hcoefficients := flatMap_tables_of_silent (silent_coefficientTables m)
  have hhooks := flatMap_tables_of_silent (silent_hooks m.layout)
  simp only [unit, List.flatMap_append, List.flatMap_cons, hregisters, htables, hcoefficients,
    hhooks]
  simp [Item.tables, instances, opening, origin]

theorem under_onlyIf {α : Type} (name key : String) (condition : Bool) (value : α) :
    under name (Hooks.onlyIf condition [(key, value)]) =
      if key = name then Hooks.onlyIf condition [value] else [] := by
  by_cases h : key = name <;> cases condition <;> simp [Hooks.onlyIf, under, h]

/-- A block has the macro of its name to itself. -/
theorem under_blockMacro (m : StateSpace Float) (id : Identity) (step : Float) (b : Block) :
    under (blockMacro b) (macros (Render.textOf (Render.sourceLines m id step))) =
      Hooks.onlyIf (0 < m.layout.size b)
        [["(comp->r", "+", toString (m.layout.base b) ++ ")"]] := by
  have hopening :
      under (blockMacro b) ((opening m.layout id step).flatMap (Item.macros ·)) = [] := by
    cases b <;> simp [under, opening, origin, Item.macros, blockMacro]
  rw [macros_source, macros_unit, under_append, hopening, under_flatMap]
  simp only [blockEntry, under_onlyIf]
  cases b <;> simp [Block.order, blockMacro]

theorem under_NR (m : StateSpace Float) (id : Identity) (step : Float) :
    under "NR" (macros (Render.textOf (Render.sourceLines m id step))) =
      [[toString m.layout.registerCount]] := by
  have hopening : under "NR" ((opening m.layout id step).flatMap (Item.macros ·)) =
      [words (toString m.layout.registerCount).toList] := by
    simp [under, opening, origin, Item.macros, Expr.text]
  have hblocks : under "NR" (Block.order.flatMap (blockEntry m.layout)) = [] := by
    rw [under_flatMap]
    simp only [blockEntry, under_onlyIf]
    simp [Block.order, blockMacro]
  rw [macros_source, macros_unit, under_append, hopening, hblocks, words_toString]
  rfl

theorem under_table (m : StateSpace Float) (id : Identity) (step : Float) {b : Block}
    (hb : b ∈ [Block.state, .derivative, .output]) :
    under ("vrs_" ++ b.name) (tables (Render.textOf (Render.sourceLines m id step))) =
      Hooks.onlyIf (0 < m.layout.size b) [(declarator (m.layout.registers b)).toList] := by
  rw [tables_source, tables_unit, under_flatMap]
  simp only [tableEntry, under_onlyIf]
  simp only [List.mem_cons, List.not_mem_nil, or_false] at hb
  rcases hb with rfl | rfl | rfl <;> simp [Block.name]

end Source

/-! ## The agreement -/

namespace Descriptor

theorem exists_variable {l : Layout} {b : Block} {i : Nat} (h : i < l.size b) :
    ∃ v ∈ (interfaceOf l).entries, v.name = variableName (i + 1) b ∧ v.reference = l.base b + i :=
  ⟨variableOf l b i, variableOf_mem h, rfl, rfl⟩

/-- The registers of a block are one less than the positions of its variables. -/
theorem positions_block (l : Layout) (b : Block) :
    ((l.registers b).map (· + 1)).map some =
      (List.range (l.size b)).map fun i => (interfaceOf l).position? (variableName (i + 1) b) := by
  rw [l.registers_eq, List.map_map, List.map_map]
  refine List.map_congr_left fun i hi => ?_
  rw [Interface.position?_variable (List.mem_range.1 hi)]
  rfl

end Descriptor

section Texts

variable (m : StateSpace Float) (id : Identity) (step : Float)

theorem defined_iff (b : Block) :
    under (blockMacro b) (macros (Render.textOf (Render.sourceLines m id step))) = [] ↔
      m.layout.size b = 0 := by
  rw [Source.under_blockMacro]
  simp [Source.Hooks.onlyIf]

theorem offset_block {b : Block} (h : 0 < m.layout.size b) :
    (under (blockMacro b) (macros (Render.textOf (Render.sourceLines m id step)))).map offset? =
      [some (m.layout.base b)] := by
  rw [Source.under_blockMacro, Source.Hooks.onlyIf, if_pos (decide_eq_true h), List.map_singleton,
    Source.offset?_registers]

theorem declared_iff {b : Block} (hb : b ∈ [Block.state, .derivative, .output]) :
    under ("vrs_" ++ b.name) (tables (Render.textOf (Render.sourceLines m id step))) = [] ↔
      m.layout.size b = 0 := by
  rw [Source.under_table m id step hb]
  simp [Source.Hooks.onlyIf]

theorem values_block {b : Block} (hb : b ∈ [Block.state, .derivative, .output])
    (h : 0 < m.layout.size b) :
    (under ("vrs_" ++ b.name) (tables (Render.textOf (Render.sourceLines m id step)))).map values? =
      [some (m.layout.registers b)] := by
  have hne : m.layout.registers b ≠ [] := by
    rw [Layout.registers_eq]
    simp [Nat.ne_of_gt h]
  rw [Source.under_table m id step hb, Source.Hooks.onlyIf, if_pos (decide_eq_true h),
    List.map_singleton, Source.values?_declarator hne]

theorem agree_texts :
    Agree m.layout (Render.textOf (Render.sourceLines m id step))
      (Descriptor.interfaceOf m.layout) where
  count := by
    rw [Source.under_NR, List.map_singleton, natural?, Text.decimal?_toString,
      Descriptor.interfaceOf, Layout.length_spread]
  distinct := Descriptor.nodup_names m.layout
  numbered := by
    rw [Descriptor.references_interfaceOf, Descriptor.interfaceOf, Layout.length_spread]
  defined := defined_iff m id step
  offsets := fun b h =>
    ⟨m.layout.base b, offset_block m id step h, fun _ hi => Descriptor.exists_variable hi⟩
  declared := fun _ hb => declared_iff m id step hb
  listed := by
    intro b hb h
    refine ⟨m.layout.registers b, values_block m id step hb h, ?_, fun i hi => ?_⟩
    · rw [Layout.registers_eq, List.length_map, List.length_range]
    · obtain ⟨v, hv, hname, hreference⟩ := Descriptor.exists_variable hi
      refine ⟨v, hv, hname, ?_⟩
      rw [Layout.registers_eq, List.getElem?_map, List.getElem?_range hi, hreference]
      rfl
  derivative := by
    intro i hi
    have hstate : i < m.layout.size .state := hi
    have hderivative : i < m.layout.size .derivative := hi
    exact ⟨_, Descriptor.variableOf_mem hderivative, m.layout.base .state + i + 1, rfl, rfl,
      Interface.position?_variable hstate⟩
  outputs := Descriptor.positions_block m.layout .output
  derivatives := Descriptor.positions_block m.layout .derivative
  initialUnknowns := by
    simp only [Descriptor.interfaceOf, List.map_flatMap]
    simp only [Descriptor.positions_block]
    rfl

end Texts

/-- Rendering a model gives two texts that can be read back and that agree on every register. -/
theorem renders_agree (m : StateSpace Float) (id : Identity) (step : Float)
    (h : Render.validStepSize step = true) :
    ∃ source descriptor d,
      Render.source m m.layout id step = .ok source ∧
      Render.descriptor m m.layout id = .ok descriptor ∧
      interface? descriptor = some d ∧ Agree m.layout source d := by
  have hlayout : Render.checkLayout m m.layout = .ok () := if_pos rfl
  refine ⟨Render.textOf (Render.sourceLines m id step), Render.textOf (Render.descriptorLines m id),
    Descriptor.interfaceOf m.layout, ?_, ?_, Descriptor.interface?_descriptor m id,
    agree_texts m id step⟩
  · rw [Render.source, hlayout, h]
    rfl
  · rw [Render.descriptor, hlayout]
    rfl

/-- The lag `x' = -x + u`, `y = x`. -/
def Model.StateSpace.lag : StateSpace Float :=
  ⟨⟨1, [[-1]], by simp⟩, ⟨1, [[1]], by simp⟩, ⟨1, [[1]], by simp⟩, ⟨1, [[0]], by simp⟩, [0], [0],
    rfl, rfl, rfl, rfl, rfl, rfl, rfl, by decide, by decide, by decide,
    by decide, by decide, by decide⟩

theorem renders_agree_lag :
    Render.validStepSize 0.01 = true ∧
      ∃ source descriptor d,
        Render.source Model.StateSpace.lag Model.StateSpace.lag.layout ⟨"lag", by decide, ⟨⟨0⟩, 0⟩⟩
          0.01 = .ok source ∧
        Render.descriptor Model.StateSpace.lag Model.StateSpace.lag.layout
          ⟨"lag", by decide, ⟨⟨0⟩, 0⟩⟩ = .ok descriptor ∧
        interface? descriptor = some d ∧ Agree Model.StateSpace.lag.layout source d :=
  have h : Render.validStepSize 0.01 = true := by decide
  ⟨h, renders_agree Model.StateSpace.lag ⟨"lag", by decide, ⟨⟨0⟩, 0⟩⟩ 0.01 h⟩

end LtiUnit
