import LtiUnit.Proofs.Interface
import LtiUnit.Proofs.XmlGrammar

/-!
# LtiUnit.Proofs.DescriptorText

The text of a descriptor is a well-formed XML document, whatever the model and the identity.

* `printed_root` — no element of a descriptor has an attribute twice, and all its characters are
  printed ones.
* `descriptor_wellFormed` — the text is a document of one element, with the six sections in their
  order.
-/

namespace LtiUnit
namespace Descriptor

open Model (StateSpace)
open Text (Only isPlain isProse)
open Xml (Element Node PrintedAttributes)

/-! ## The characters of values -/

theorem code_of_isProse {c : Char} (h : isProse c = true) : 0x20 ≤ c.toNat ∧ c.toNat < 0x7F := by
  have hcode : c.toNat = c.val.toNat := rfl
  simp only [isProse, isPlain, Char.isAlphanum, Char.isDigit, Bool.or_eq_true, Bool.and_eq_true,
    decide_eq_true_eq, beq_iff_eq, ge_iff_le, UInt32.le_iff_toNat_le] at h
  rcases h with (((((h | h) | rfl) | rfl) | rfl) | rfl) | rfl
  · have hcodes := Text.code_of_isAlpha h
    omega
  · have hbounds : 48 ≤ c.val.toNat ∧ c.val.toNat ≤ 57 := h
    omega
  all_goals decide

theorem isPrinted_of_isProse {c : Char} (h : isProse c = true) : Xml.isPrinted c = true := by
  obtain ⟨hlow, hhigh⟩ := code_of_isProse h
  simp only [Xml.isPrinted, Bool.and_eq_true, decide_eq_true_eq]
  exact ⟨hlow, hhigh⟩

theorem printed_of_prose {s : String} (h : Only isProse s) : Only Xml.isPrinted s :=
  h.mono fun _ => isPrinted_of_isProse

theorem printed_of_plain {s : String} (h : Only isPlain s) : Only Xml.isPrinted s :=
  printed_of_prose (h.mono fun _ => Text.isProse_of_isPlain)

theorem printed_name (id : Identity) : Only Xml.isPrinted id.name :=
  printed_of_plain (Text.plain_of_isName id.isName)

theorem printed_number (x : Float) : Only Xml.isPrinted (number x) :=
  printed_of_plain (Text.plain_literal x)

theorem printed_toString (n : Nat) : Only Xml.isPrinted (toString n) :=
  printed_of_plain (Text.plain_toString n)

/-! ## The nodes of a descriptor -/

theorem printedAttributes_nil : PrintedAttributes [] :=
  ⟨List.nodup_nil, List.forall_mem_nil _⟩

theorem printedAttributes_singleton {name value : String} (h : Only Xml.isPrinted value) :
    PrintedAttributes [⟨name, value⟩] :=
  ⟨List.pairwise_singleton _ _, List.forall_mem_singleton.2 h⟩

theorem printed_leaves {α : Type} {tag : String} {f : α → Xml.Attribute} {xs : List α}
    (h : ∀ x ∈ xs, Only Xml.isPrinted (f x).value) :
    ∀ n ∈ Node.allNodes (xs.map fun x => .leaf tag [f x]), n.Printed := by
  intro n hn
  rw [Xml.allNodes_eq, List.flatMap_map] at hn
  obtain ⟨x, hx, hn⟩ := List.mem_flatMap.1 hn
  cases List.mem_singleton.1 hn
  exact printedAttributes_singleton (h x hx)

theorem printed_sourceFiles : ∀ n ∈ sourceFiles.nodes, n.Printed := by
  rw [sourceFiles, Node.nodes, List.forall_mem_cons]
  have hname : ∀ name ∈ [Source.fileName], Only Xml.isPrinted name := by decide
  exact ⟨printedAttributes_nil, printed_leaves (f := Xml.Attribute.mk "name") hname⟩

theorem printed_modelExchange (id : Identity) : ∀ n ∈ (modelExchange id).nodes, n.Printed := by
  rw [modelExchange, Node.nodes, List.forall_mem_cons, Node.Printed, PrintedAttributes,
    Node.allNodes, Node.allNodes, List.append_nil, List.forall_mem_cons]
  exact ⟨⟨by simp, printed_name id, by decide⟩, printed_sourceFiles⟩

theorem printed_coSimulation (id : Identity) : ∀ n ∈ (coSimulation id).nodes, n.Printed := by
  rw [coSimulation, Node.nodes, List.forall_mem_cons, Node.Printed, PrintedAttributes,
    Node.allNodes, Node.allNodes, List.append_nil, List.forall_mem_cons]
  exact ⟨⟨by simp, printed_name id, by decide⟩, printed_sourceFiles⟩

theorem printed_categories : ∀ n ∈ categories.nodes, n.Printed := by
  rw [categories, Node.nodes, List.forall_mem_cons]
  have hnames : ∀ name ∈ logCategories, Only Xml.isPrinted name := by decide
  exact ⟨printedAttributes_nil, printed_leaves (f := Xml.Attribute.mk "name") hnames⟩

theorem printed_defaultExperiment : ∀ n ∈ defaultExperiment.nodes, n.Printed := by
  have hattributes : PrintedAttributes
      [⟨"startTime", number 0⟩, ⟨"stopTime", number 1⟩, ⟨"tolerance", number 1e-4⟩] := by
    rw [PrintedAttributes, List.forall_mem_cons, List.forall_mem_cons, List.forall_mem_singleton]
    exact ⟨by simp, printed_number _, printed_number _, printed_number _⟩
  exact List.forall_mem_singleton.2 hattributes

theorem printed_realAttributes (m : StateSpace Float) (i : Nat) (b : Block) :
    PrintedAttributes (realAttributes m i b) := by
  cases b with
  | state | output => exact printedAttributes_nil
  | derivative => exact printedAttributes_singleton (printed_toString _)
  | stateStart | input | inputStart => exact printedAttributes_singleton (printed_number _)

theorem printed_variableNodes (m : StateSpace Float) (b : Block) (i : Nat) :
    ∀ n ∈ Node.allNodes (variableNodes m b i), n.Printed := by
  have hrole : ∀ a ∈ role b, Only Xml.isPrinted a.value := by
    cases b <;> decide
  have hnames : (["name", "valueReference", "description"] ++ (role b).map (·.name)).Nodup := by
    cases b <;> decide
  have hattributes : PrintedAttributes
      ([⟨"name", variableName (i + 1) b⟩, ⟨"valueReference", toString (m.layout.base b + i)⟩,
        ⟨"description", variableDescription (i + 1) b⟩] ++ role b) := by
    rw [PrintedAttributes, List.map_append, List.forall_mem_append, List.forall_mem_cons,
      List.forall_mem_cons, List.forall_mem_singleton]
    exact ⟨hnames, ⟨printed_of_plain (plain_variableName _ _), printed_toString _,
      printed_of_prose (prose_variableDescription _ _)⟩, hrole⟩
  have hcomment : Only Xml.isPrinted ("index " ++ toString (m.layout.base b + i + 1)) :=
    Text.only_append.2 ⟨by decide, printed_toString _⟩
  simp only [variableNodes, Node.nodes, Node.allNodes, List.append_nil, List.cons_append,
    List.nil_append, List.forall_mem_cons]
  exact ⟨hcomment, hattributes, printed_realAttributes m i b, List.forall_mem_nil _⟩

theorem printed_modelVariables (m : StateSpace Float) :
    ∀ n ∈ (modelVariables m).nodes, n.Printed := by
  rw [modelVariables, Node.nodes, List.forall_mem_cons]
  refine ⟨printedAttributes_nil, fun n hn => ?_⟩
  rw [Xml.allNodes_eq, List.flatMap_assoc] at hn
  obtain ⟨b, -, hn⟩ := List.mem_flatMap.1 hn
  rw [List.flatMap_assoc] at hn
  obtain ⟨i, -, hn⟩ := List.mem_flatMap.1 hn
  rw [← Xml.allNodes_eq] at hn
  exact printed_variableNodes m b i n hn

theorem printed_unknowns (l : Layout) (tag : String) (blocks : List Block) :
    ∀ n ∈ Node.allNodes (unknowns l tag blocks), n.Printed := by
  unfold unknowns
  dsimp only
  split
  · simp [Node.allNodes]
  · rw [Node.allNodes, Node.allNodes, List.append_nil, Node.nodes, List.forall_mem_cons]
    exact ⟨printedAttributes_nil, printed_leaves fun r _ => printed_toString (r + 1)⟩

theorem printed_modelStructure (l : Layout) : ∀ n ∈ (modelStructure l).nodes, n.Printed := by
  have happend : ∀ xs ys, Node.allNodes (xs ++ ys) = Node.allNodes xs ++ Node.allNodes ys := by
    simp [Xml.allNodes_eq]
  rw [modelStructure, Node.nodes, List.forall_mem_cons, happend, happend, List.forall_mem_append,
    List.forall_mem_append]
  exact ⟨printedAttributes_nil, ⟨printed_unknowns l _ _, printed_unknowns l _ _⟩,
    printed_unknowns l _ _⟩

theorem printed_rootAttributes (id : Identity) : PrintedAttributes [
    ⟨"xmlns:xsi", "http://www.w3.org/2001/XMLSchema-instance"⟩,
    ⟨"fmiVersion", "2.0"⟩,
    ⟨"modelName", id.name⟩,
    ⟨"guid", id.occasion.guid.text⟩,
    ⟨"generationTool", toolAndVersion⟩,
    ⟨"generationDateAndTime", id.timestamp⟩,
    ⟨"variableNamingConvention", "flat"⟩,
    ⟨"numberOfEventIndicators", "0"⟩] := by
  refine ⟨by simp, ?_⟩
  simp only [List.forall_mem_cons]
  exact ⟨by decide, by decide, printed_name id, printed_of_plain (Text.plain_guid _), by decide,
    printed_of_plain (Text.plain_timestamp _), by decide, by decide, List.forall_mem_nil _⟩

theorem printed_root (m : StateSpace Float) (id : Identity) :
    ∀ n ∈ (root m id).nodes, n.Printed := by
  have hblank : ∀ n ∈ Node.blank.nodes, n.Printed := List.forall_mem_singleton.2 trivial
  rw [root, Node.nodes, List.forall_mem_cons]
  refine ⟨printed_rootAttributes id, ?_⟩
  simp only [Node.allNodes, List.forall_mem_append]
  exact ⟨hblank, printed_modelExchange id, hblank, printed_coSimulation id, hblank,
    printed_categories, hblank, printed_defaultExperiment, hblank, printed_modelVariables m, hblank,
    printed_modelStructure m.layout, List.forall_mem_nil _⟩

/-! ## The text of a descriptor -/

/-- For every model and identity, there is a descriptor. Its text is a well-formed document of one
element, in which each of the sections stands once; and that element is what is read from it. -/
theorem descriptor_wellFormed (m : StateSpace Float) (id : Identity) :
    ∃ text e, Render.descriptor m m.layout id = .ok text ∧
      Xml.DocumentText text e ∧
      Xml.read? text = some e ∧
      e.tag = "fmiModelDescription" ∧
      e.children.map Element.tag =
        ["ModelExchange", "CoSimulation", "LogCategories", "DefaultExperiment", "ModelVariables",
         "ModelStructure"] := by
  obtain ⟨e, he, htags⟩ : ∃ e, (root m id).elements = [e] ∧
      e.tag = "fmiModelDescription" ∧
      e.children.map Element.tag =
        ["ModelExchange", "CoSimulation", "LogCategories", "DefaultExperiment", "ModelVariables",
         "ModelStructure"] := ⟨_, rfl, rfl, rfl⟩
  have hlayout : Render.checkLayout m m.layout = .ok () := if_pos rfl
  have hproper : ∀ n ∈ (root m id).nodes, n.Proper := fun n hn => (printed_root m id n hn).proper
  refine ⟨Render.textOf (Render.descriptorLines m id), e, ?_, ?_, ?_, htags⟩
  · rw [Render.descriptor, hlayout]
    rfl
  · exact Xml.documentText_of_clean (clean_root m id) hproper he
  · exact Xml.read?_documentLines (clean_root m id) he

end Descriptor
end LtiUnit
