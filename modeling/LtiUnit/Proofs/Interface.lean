import LtiUnit.Proofs.Registers
import LtiUnit.Proofs.XmlReader
import LtiUnit.Render

/-!
# LtiUnit.Proofs.Interface

What a host learns from the text of a descriptor: the variables in the order of their elements, and
the positions that the sections of the model structure list.

* `interface?_descriptor` — the interface that is read from the descriptor of a model.
* `Interface.position?_variable` — the variable of a register stands at the register's position.
-/

namespace LtiUnit
namespace Xml

def Element.tag : Element → String
  | .mk tag _ _ => tag

def Element.attribute? (name : String) : Element → Option String
  | .mk _ attributes _ => (attributes.find? fun a => a.name == name).map (·.value)

def Element.children : Element → List Element
  | .mk _ _ children => children

mutual

/-- The elements with a tag, from an element on inwards, in the order of their start tags. -/
def Element.named (tag : String) : Element → List Element
  | .mk own attributes children =>
    (if own = tag then [.mk own attributes children] else []) ++ Element.allNamed tag children

def Element.allNamed (tag : String) : List Element → List Element
  | [] => []
  | e :: rest => e.named tag ++ Element.allNamed tag rest

end

theorem allNamed_eq (tag : String) (elements : List Element) :
    Element.allNamed tag elements = elements.flatMap (Element.named tag) := by
  induction elements with
  | nil => rfl
  | cons e rest ih => rw [Element.allNamed, ih, List.flatMap_cons]

end Xml

namespace Descriptor

open Model (StateSpace)
open Text (Only decimal? isPlain isProse)
open Xml (Element Node)

/-! ## The reader -/

structure Variable where
  name : String
  reference : Nat
  /-- The position of the variable that this one is the derivative of. -/
  derivative? : Option Nat
  deriving DecidableEq, Repr

structure Interface where
  /-- The variables, in the order of their elements. -/
  entries : List Variable
  outputs : List Nat
  derivatives : List Nat
  initialUnknowns : List Nat

/-- The position of the variable with a name, counted from one. -/
def Interface.position? (d : Interface) (name : String) : Option Nat :=
  (d.entries.findIdx? fun v => v.name == name).map (· + 1)

def natural? (name : String) (e : Element) : Option Nat := (e.attribute? name).bind decimal?

/-- A variable with its type element. -/
def asVariable? (e : Element) : Option Variable := do
  let name ← e.attribute? "name"
  let reference ← natural? "valueReference" e
  let real ← (e.children.find? fun child => child.tag == "Real")
  match real.attribute? "derivative" with
  | none => return ⟨name, reference, none⟩
  | some text => return ⟨name, reference, some (← decimal? text)⟩

/-- The positions that the sections with a tag list. -/
def listed? (tag : String) (root : Element) : Option (List Nat) :=
  ((root.named tag).flatMap (Element.named "Unknown")).mapM (natural? "index")

/-- The interface that a text describes. -/
def interface? (text : String) : Option Interface := do
  let root ← Xml.read? text
  return {
    entries := ← (root.named "ScalarVariable").mapM asVariable?
    outputs := ← listed? "Outputs" root
    derivatives := ← listed? "Derivatives" root
    initialUnknowns := ← listed? "InitialUnknowns" root }

/-! ## The descriptor as a clean tree -/

theorem isValueChar_of_isProse {c : Char} (h : isProse c = true) : Xml.isValueChar c = true := by
  simp only [Xml.isValueChar, Bool.and_eq_true, bne_iff_ne, ne_eq]
  refine ⟨⟨?_, ?_⟩, ?_⟩ <;> rintro rfl <;> revert h <;> decide

theorem value_of_plain {s : String} (h : Only isPlain s) : Only Xml.isValueChar s :=
  h.mono fun _ hc => isValueChar_of_isProse (Text.isProse_of_isPlain hc)

theorem value_number (x : Float) : Only Xml.isValueChar (number x) :=
  value_of_plain (Text.plain_literal x)

theorem value_toString (n : Nat) : Only Xml.isValueChar (toString n) :=
  value_of_plain (Text.plain_toString n)

theorem value_name (id : Identity) : Only Xml.isValueChar id.name :=
  value_of_plain (Text.plain_of_isName id.isName)

theorem clean_attribute {name value : String} (hname : Xml.isTagName name = true)
    (hvalue : Only Xml.isValueChar value) : (⟨name, value⟩ : Xml.Attribute).Clean :=
  ⟨hname, hvalue⟩

theorem plain_variableName (n : Nat) (b : Block) : Only isPlain (variableName n b) := by
  have hn := Text.plain_toString n
  have hstart : Only isPlain "_start" := by decide
  cases b with
  | state => exact Text.only_append.2 ⟨by decide, hn⟩
  | derivative => exact Text.only_append.2 ⟨by decide, hn⟩
  | stateStart => exact Text.only_append.2 ⟨Text.only_append.2 ⟨by decide, hn⟩, hstart⟩
  | input => exact Text.only_append.2 ⟨by decide, hn⟩
  | inputStart => exact Text.only_append.2 ⟨Text.only_append.2 ⟨by decide, hn⟩, hstart⟩
  | output => exact Text.only_append.2 ⟨by decide, hn⟩

theorem prose_variableDescription (n : Nat) (b : Block) :
    Only isProse (variableDescription n b) := by
  have hn : Only isProse (toString n) :=
    (Text.plain_toString n).mono fun _ => Text.isProse_of_isPlain
  cases b <;> exact Text.only_append.2 ⟨by decide, hn⟩

theorem clean_role (b : Block) : ∀ a ∈ role b, a.Clean := by
  cases b <;> decide

theorem clean_realAttributes (m : StateSpace Float) (i : Nat) (b : Block) :
    ∀ a ∈ realAttributes m i b, a.Clean := by
  have hname : Xml.isTagName "derivative" = true ∧ Xml.isTagName "start" = true := by decide
  cases b <;> simp only [realAttributes, List.mem_singleton, List.not_mem_nil, forall_eq,
    false_implies, implies_true]
  case derivative => exact ⟨hname.1, value_toString _⟩
  all_goals exact ⟨hname.2, value_number _⟩

theorem clean_variableNodes (m : StateSpace Float) (b : Block) (i : Nat) :
    ∀ n ∈ variableNodes m b i, n.Clean := by
  rw [variableNodes, List.forall_mem_cons, List.forall_mem_singleton]
  constructor
  · rw [Node.Clean, String.toList_append, List.mem_append, not_or]
    exact ⟨by decide, Text.not_mem_toString (by decide) _⟩
  · rw [Node.Clean, List.forall_mem_append, List.forall_mem_cons, List.forall_mem_cons,
      List.forall_mem_singleton, Xml.allClean_iff, List.forall_mem_singleton, Node.Clean]
    exact ⟨by decide,
      ⟨⟨clean_attribute (by decide) (value_of_plain (plain_variableName _ _)),
        clean_attribute (by decide) (value_toString _),
        clean_attribute (by decide)
          ((prose_variableDescription _ _).mono fun _ => isValueChar_of_isProse)⟩, clean_role b⟩,
      by decide, clean_realAttributes m i b⟩

theorem clean_modelVariables (m : StateSpace Float) : (modelVariables m).Clean := by
  rw [modelVariables, Node.Clean, Xml.allClean_iff]
  refine ⟨by decide, by simp, fun n hn => ?_⟩
  obtain ⟨b, -, hn⟩ := List.mem_flatMap.1 hn
  obtain ⟨i, -, hn⟩ := List.mem_flatMap.1 hn
  exact clean_variableNodes m b i n hn

theorem clean_unknowns (l : Layout) {tag : String} (htag : Xml.isTagName tag = true)
    (blocks : List Block) : ∀ n ∈ unknowns l tag blocks, n.Clean := by
  unfold unknowns
  dsimp only
  split
  · simp
  · rw [List.forall_mem_singleton, Node.Clean, Xml.allClean_iff]
    refine ⟨htag, by simp, fun n hn => ?_⟩
    obtain ⟨r, -, rfl⟩ := List.mem_map.1 hn
    rw [Node.Clean, List.forall_mem_singleton]
    exact ⟨by decide, clean_attribute (by decide) (value_toString _)⟩

theorem clean_modelStructure (l : Layout) : (modelStructure l).Clean := by
  rw [modelStructure, Node.Clean, Xml.allClean_iff, List.forall_mem_append, List.forall_mem_append]
  exact ⟨by decide, by simp, ⟨clean_unknowns l (by decide) _, clean_unknowns l (by decide) _⟩,
    clean_unknowns l (by decide) _⟩

theorem clean_sourceFiles : sourceFiles.Clean := by
  simp only [sourceFiles, Node.Clean, Node.AllClean, and_true]
  decide

theorem clean_modelExchange (id : Identity) : (modelExchange id).Clean := by
  rw [modelExchange, Node.Clean, List.forall_mem_cons, Xml.allClean_iff, List.forall_mem_singleton]
  exact ⟨by decide, ⟨clean_attribute (by decide) (value_name id), by decide⟩, clean_sourceFiles⟩

theorem clean_coSimulation (id : Identity) : (coSimulation id).Clean := by
  rw [coSimulation, Node.Clean, List.forall_mem_cons, Xml.allClean_iff, List.forall_mem_singleton]
  exact ⟨by decide, ⟨clean_attribute (by decide) (value_name id), by decide⟩, clean_sourceFiles⟩

theorem clean_categories : categories.Clean := by
  simp only [categories, logCategories, List.map_cons, List.map_nil, Node.Clean, Node.AllClean,
    and_true]
  decide

theorem clean_defaultExperiment : defaultExperiment.Clean := by
  rw [defaultExperiment, Node.Clean, List.forall_mem_cons, List.forall_mem_cons,
    List.forall_mem_singleton]
  exact ⟨by decide, clean_attribute (by decide) (value_number _),
    clean_attribute (by decide) (value_number _),
    clean_attribute (by decide) (value_number _)⟩

theorem clean_rootAttributes (id : Identity) : ∀ a ∈ ([
    ⟨"xmlns:xsi", "http://www.w3.org/2001/XMLSchema-instance"⟩,
    ⟨"fmiVersion", "2.0"⟩,
    ⟨"modelName", id.name⟩,
    ⟨"guid", id.occasion.guid.text⟩,
    ⟨"generationTool", toolAndVersion⟩,
    ⟨"generationDateAndTime", id.timestamp⟩,
    ⟨"variableNamingConvention", "flat"⟩,
    ⟨"numberOfEventIndicators", "0"⟩] : List Xml.Attribute), a.Clean := by
  simp only [List.forall_mem_cons]
  exact ⟨by decide, by decide, clean_attribute (by decide) (value_name id),
    clean_attribute (by decide) (value_of_plain (Text.plain_guid _)), by decide,
    clean_attribute (by decide) (value_of_plain (Text.plain_timestamp _)), by decide, by decide,
    by simp⟩

/-- Nothing in a descriptor needs an escape. -/
theorem clean_root (m : StateSpace Float) (id : Identity) : (root m id).Clean := by
  simp only [root, Node.Clean, Node.AllClean]
  exact ⟨by decide, clean_rootAttributes id, trivial, clean_modelExchange id, trivial,
    clean_coSimulation id, trivial, clean_categories, trivial, clean_defaultExperiment, trivial,
    clean_modelVariables m, trivial, clean_modelStructure m.layout, trivial⟩

/-! ## The elements of a descriptor -/

def realElement (m : StateSpace Float) (b : Block) (i : Nat) : Element :=
  .mk "Real" (realAttributes m i b) []

def variableElement (m : StateSpace Float) (b : Block) (i : Nat) : Element :=
  .mk "ScalarVariable"
    ([⟨"name", variableName (i + 1) b⟩,
      ⟨"valueReference", toString (m.layout.base b + i)⟩,
      ⟨"description", variableDescription (i + 1) b⟩] ++ role b)
    [realElement m b i]

theorem elements_modelVariables (m : StateSpace Float) :
    (modelVariables m).elements =
      [.mk "ModelVariables" [] (m.layout.spread (variableElement m))] := by
  have hnodes : ∀ b i, (variableNodes m b i).flatMap Node.elements = [variableElement m b i] := by
    intro b i
    simp [variableNodes, Node.elements, Node.allElements, variableElement, realElement]
  rw [modelVariables, Node.elements, Xml.allElements_eq, List.flatMap_assoc]
  simp only [List.flatMap_assoc, hnodes, Layout.spread, List.map_eq_flatMap]

def unknownElement (r : Nat) : Element := .mk "Unknown" [⟨"index", toString (r + 1)⟩] []

/-- The section of a tag, if it lists anything. -/
def sectionElements (l : Layout) (tag : String) (blocks : List Block) : List Element :=
  let registers := blocks.flatMap l.registers
  if registers.isEmpty then [] else [.mk tag [] (registers.map unknownElement)]

theorem elements_unknowns (l : Layout) (tag : String) (blocks : List Block) :
    Node.allElements (unknowns l tag blocks) = sectionElements l tag blocks := by
  unfold unknowns sectionElements
  dsimp only
  split
  · rfl
  · rw [Node.allElements, Node.allElements, Node.elements, Xml.allElements_eq, List.flatMap_map]
    simp only [Node.elements, List.append_nil, unknownElement, List.map_eq_flatMap]

theorem allNamed_append (tag : String) (xs ys : List Element) :
    Element.allNamed tag (xs ++ ys) = Element.allNamed tag xs ++ Element.allNamed tag ys := by
  simp only [Xml.allNamed_eq, List.flatMap_append]

theorem allNamed_unknownElement {tag : String} (htag : tag ≠ "Unknown") (registers : List Nat) :
    Element.allNamed tag (registers.map unknownElement) = [] := by
  rw [Xml.allNamed_eq, List.flatMap_map, List.flatMap_eq_nil_iff]
  intro r _
  simp [unknownElement, Element.named, Element.allNamed, Ne.symm htag]

theorem named_sectionElements {own tag : String} (htag : tag ≠ "Unknown") (l : Layout)
    (blocks : List Block) :
    Element.allNamed tag (sectionElements l own blocks) =
      if own = tag then sectionElements l own blocks else [] := by
  unfold sectionElements
  dsimp only
  split
  · simp [Element.allNamed]
  · simp [Element.allNamed, Element.named, allNamed_unknownElement htag]

theorem unknowns_sectionElements {tag : String} (htag : tag ≠ "Unknown") (l : Layout)
    (blocks : List Block) :
    (sectionElements l tag blocks).flatMap (Element.named "Unknown") =
      (blocks.flatMap l.registers).map unknownElement := by
  unfold sectionElements
  dsimp only
  split
  · rename_i hempty
    rw [List.isEmpty_iff.1 hempty]
    rfl
  · rw [List.flatMap_singleton, Element.named, if_neg htag, List.nil_append, Xml.allNamed_eq,
      List.flatMap_map, List.map_eq_flatMap]
    rfl

theorem natural?_unknownElement (r : Nat) : natural? "index" (unknownElement r) = some (r + 1) :=
  Text.decimal?_toString (r + 1)

/-- What a host knows of the variable of a register. -/
def variableOf (l : Layout) (b : Block) (i : Nat) : Variable :=
  ⟨variableName (i + 1) b, l.base b + i,
    if b = .derivative then some (l.base .state + i + 1) else none⟩

theorem asVariable?_variableElement (m : StateSpace Float) (b : Block) (i : Nat) :
    asVariable? (variableElement m b i) = some (variableOf m.layout b i) := by
  have hreference : natural? "valueReference" (variableElement m b i) =
      some (m.layout.base b + i) := Text.decimal?_toString _
  have hderivative : decimal? (i + 1).repr = some (i + 1) := Text.decimal?_toString _
  rw [asVariable?, hreference]
  cases b <;> simp [variableElement, realElement, realAttributes, Element.attribute?, Element.tag,
    Element.children, variableOf, hderivative]

theorem allNamed_variableElements (m : StateSpace Float) {tag : String}
    (hvariable : tag ≠ "ScalarVariable") (hreal : tag ≠ "Real") :
    Element.allNamed tag (m.layout.spread (variableElement m)) = [] := by
  rw [Xml.allNamed_eq, List.flatMap_eq_nil_iff]
  intro e he
  obtain ⟨b, -, he⟩ := List.mem_flatMap.1 he
  obtain ⟨i, -, rfl⟩ := List.mem_map.1 he
  simp [variableElement, realElement, Element.named, Element.allNamed, Ne.symm hvariable,
    Ne.symm hreal]

theorem named_variableElements (m : StateSpace Float) :
    Element.allNamed "ScalarVariable" (m.layout.spread (variableElement m)) =
      m.layout.spread (variableElement m) := by
  have hself : ∀ b i, (variableElement m b i).named "ScalarVariable" = [variableElement m b i] := by
    intro b i
    simp [variableElement, realElement, Element.named, Element.allNamed]
  rw [Xml.allNamed_eq, Layout.spread, List.flatMap_assoc]
  simp only [List.flatMap_map, hself]
  simp only [List.map_eq_flatMap]

/-- The tags of the sections of the model structure, with the blocks that they list. -/
def sectionBlocks : List (String × List Block) :=
  [("Outputs", [.output]), ("Derivatives", [.derivative]),
   ("InitialUnknowns", [.state, .derivative, .output])]

def sections (l : Layout) : List Element :=
  sectionBlocks.flatMap fun s => sectionElements l s.1 s.2

theorem named_sections {s : String × List Block} (hs : s ∈ sectionBlocks) (l : Layout) :
    Element.allNamed s.1 (sections l) = sectionElements l s.1 s.2 := by
  simp only [sectionBlocks, List.mem_cons, List.not_mem_nil, or_false] at hs
  rcases hs with rfl | rfl | rfl <;>
    simp [sections, sectionBlocks, allNamed_append, named_sectionElements]

theorem named_variable_sections (l : Layout) :
    Element.allNamed "ScalarVariable" (sections l) = [] := by
  simp [sections, sectionBlocks, allNamed_append, named_sectionElements]

theorem elements_modelStructure (l : Layout) :
    (modelStructure l).elements = [.mk "ModelStructure" [] (sections l)] := by
  have happend : ∀ xs ys, Node.allElements (xs ++ ys) =
      Node.allElements xs ++ Node.allElements ys := by
    simp [Xml.allElements_eq]
  rw [modelStructure, Node.elements, happend, happend, elements_unknowns, elements_unknowns,
    elements_unknowns]
  simp [sections, sectionBlocks]

/-- The root element holds the variables, the sections, and nothing else of interest to a host that
looks for one of their tags. -/
theorem exists_root (m : StateSpace Float) (id : Identity) :
    ∃ e, (root m id).elements = [e] ∧
      ∀ tag ∈ "ScalarVariable" :: sectionBlocks.map Prod.fst,
        e.named tag = Element.allNamed tag (m.layout.spread (variableElement m)) ++
          Element.allNamed tag (sections m.layout) := by
  refine ⟨_, rfl, ?_⟩
  simp only [Node.allElements, elements_modelVariables, elements_modelStructure, Element.named]
  simp only [sectionBlocks, List.map_cons, List.map_nil, List.forall_mem_cons]
  simp [modelExchange, coSimulation, sourceFiles, categories, logCategories, defaultExperiment,
    Node.elements, Node.allElements, Element.named, Element.allNamed]

/-! ## The interface of a model -/

/-- The interface of a unit with a layout. -/
def interfaceOf (l : Layout) : Interface where
  entries := l.spread (variableOf l)
  outputs := (l.registers .output).map (· + 1)
  derivatives := (l.registers .derivative).map (· + 1)
  initialUnknowns := ([.state, .derivative, .output].flatMap l.registers).map (· + 1)

theorem mapM_asVariable? (m : StateSpace Float) :
    (m.layout.spread (variableElement m)).mapM asVariable? =
      some (m.layout.spread (variableOf m.layout)) := by
  have hpairs {α : Type} (g : Block → Nat → α) :
      m.layout.spread g = (m.layout.spread Prod.mk).map fun p => g p.1 p.2 :=
    (m.layout.map_spread (fun p : Block × Nat => g p.1 p.2) Prod.mk).symm
  rw [hpairs (variableElement m), hpairs (variableOf m.layout), List.mapM_map]
  simp only [Function.comp_def, asVariable?_variableElement]
  exact List.mapM_pure

theorem mapM_natural? (registers : List Nat) :
    (registers.map unknownElement).mapM (natural? "index") = some (registers.map (· + 1)) := by
  rw [List.mapM_map]
  simp only [Function.comp_def, natural?_unknownElement]
  exact List.mapM_pure

theorem listed?_section {root : Element} {l : Layout} {tag : String} {blocks : List Block}
    (htag : tag ≠ "Unknown") (hroot : root.named tag = sectionElements l tag blocks) :
    listed? tag root = some ((blocks.flatMap l.registers).map (· + 1)) := by
  rw [listed?, hroot, unknowns_sectionElements htag, mapM_natural?]

/-- Reading the descriptor of a model gives the interface of its layout. -/
theorem interface?_descriptor (m : StateSpace Float) (id : Identity) :
    interface? (Render.textOf (Render.descriptorLines m id)) = some (interfaceOf m.layout) := by
  obtain ⟨e, he, hnamed⟩ := exists_root m id
  have hvariables : e.named "ScalarVariable" = m.layout.spread (variableElement m) := by
    rw [hnamed _ (List.mem_cons_self ..), named_variableElements, named_variable_sections,
      List.append_nil]
  have hsection : ∀ s ∈ sectionBlocks,
      listed? s.1 e = some ((s.2.flatMap m.layout.registers).map (· + 1)) := by
    intro s hs
    have htags : ∀ s ∈ sectionBlocks, s.1 ≠ "ScalarVariable" ∧ s.1 ≠ "Real" ∧ s.1 ≠ "Unknown" := by
      decide
    obtain ⟨hvariable, hreal, hunknown⟩ := htags s hs
    refine listed?_section hunknown ?_
    rw [hnamed _ (List.mem_cons_of_mem _ (List.mem_map_of_mem hs)),
      allNamed_variableElements m hvariable hreal, named_sections hs, List.nil_append]
  have houtputs := hsection ("Outputs", [.output]) (by decide)
  have hderivatives := hsection ("Derivatives", [.derivative]) (by decide)
  have hinitial := hsection ("InitialUnknowns", [.state, .derivative, .output]) (by decide)
  rw [interface?, Render.textOf, Render.descriptorLines,
    Xml.read?_documentLines (clean_root m id) he, Option.bind_eq_bind, Option.bind_some,
    hvariables, mapM_asVariable?, houtputs, hderivatives, hinitial]
  simp [interfaceOf]

/-! ## Names and positions -/

/-- A variable's name without its number. -/
def stem : Block → String
  | .state => "x"
  | .derivative => "der_x"
  | .stateStart => "x_start"
  | .input => "u"
  | .inputStart => "u_start"
  | .output => "y"

theorem stem_inj {b b' : Block} (h : stem b = stem b') : b = b' := by
  revert h
  cases b <;> cases b' <;> decide

theorem digits_variableName (n : Nat) (b : Block) :
    (variableName n b).toList.filter Char.isDigit = (toString n).toList := by
  have hn : (toString n).toList.filter Char.isDigit = (toString n).toList :=
    List.filter_eq_self.2 fun _ => Text.isDigit_of_mem_toString
  cases b <;> simp only [variableName, String.toList_append, List.filter_append, hn]
  case stateStart => exact List.append_nil _
  case inputStart => exact List.append_nil _
  all_goals rfl

theorem letters_variableName (n : Nat) (b : Block) :
    (variableName n b).toList.filter (fun c => !c.isDigit) = (stem b).toList := by
  have hn : (toString n).toList.filter (fun c => !c.isDigit) = [] := by
    rw [List.filter_eq_nil_iff]
    intro c hc
    simp [Text.isDigit_of_mem_toString hc]
  cases b <;>
    simp only [variableName, String.toList_append, List.filter_append, hn] <;>
    rfl

/-- The letters of a variable's name tell its block, the digits its number. -/
theorem variableName_inj {n n' : Nat} {b b' : Block}
    (h : variableName n b = variableName n' b') : b = b' ∧ n = n' := by
  constructor
  · apply stem_inj
    rw [← String.toList_inj, ← letters_variableName n, ← letters_variableName n', h]
  · have hdigits : toString n = toString n' := by
      rw [← String.toList_inj, ← digits_variableName n b, ← digits_variableName n' b', h]
    rw [← Option.some_inj, ← Text.decimal?_toString n, ← Text.decimal?_toString n', hdigits]

theorem names_interfaceOf (l : Layout) :
    (interfaceOf l).entries.map (·.name) = l.spread fun b i => variableName (i + 1) b :=
  l.map_spread _ _

theorem nodup_names (l : Layout) : ((interfaceOf l).entries.map (·.name)).Nodup := by
  rw [names_interfaceOf]
  refine l.nodup_spread fun b i b' i' h => ?_
  obtain ⟨hb, hi⟩ := variableName_inj h
  exact ⟨hb, Nat.succ.inj hi⟩

theorem references_interfaceOf (l : Layout) :
    (interfaceOf l).entries.map (·.reference) = List.range l.registerCount := by
  rw [← l.spread_registers]
  exact l.map_spread _ _

theorem variableOf_mem {l : Layout} {b : Block} {i : Nat} (h : i < l.size b) :
    variableOf l b i ∈ (interfaceOf l).entries :=
  List.mem_of_getElem? (l.getElem?_spread (variableOf l) h)

/-- The variable of a register stands at the register's position. -/
theorem Interface.position?_variable {l : Layout} {b : Block} {i : Nat} (h : i < l.size b) :
    (interfaceOf l).position? (variableName (i + 1) b) = some (l.base b + i + 1) := by
  have hindex : ((interfaceOf l).entries.findIdx? fun v => v.name == variableName (i + 1) b) =
      some (l.base b + i) := by
    obtain ⟨hlt, hget⟩ := List.getElem?_eq_some_iff.1 (l.getElem?_spread (variableOf l) h)
    rw [List.findIdx?_eq_some_iff_getElem]
    refine ⟨hlt, ?_, fun r hr heq => ?_⟩
    · simp only [interfaceOf, hget]
      exact beq_self_eq_true _
    · -- An earlier variable of the same name would be that of another element.
      have hr' : r < l.registerCount := Nat.lt_trans hr (l.lt_registerCount h)
      obtain ⟨b', i', hi', rfl⟩ := l.exists_register hr'
      obtain ⟨hlt', hget'⟩ := List.getElem?_eq_some_iff.1 (l.getElem?_spread (variableOf l) hi')
      simp only [interfaceOf, hget', beq_iff_eq] at heq
      obtain ⟨rfl, hi⟩ := variableName_inj heq
      omega
  rw [Interface.position?, hindex]
  rfl

end Descriptor
end LtiUnit
