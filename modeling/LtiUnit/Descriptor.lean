import LtiUnit.Identity
import LtiUnit.Model.StateSpace
import LtiUnit.Number.Spelling
import LtiUnit.Source.Unit
import LtiUnit.Xml.Node

/-!
# LtiUnit.Descriptor

The interface descriptor of a unit: its identity, and one variable for every register, in register
order. Hosts refer to variables by position, counted from one, so the position of a variable is
its value reference plus one.
-/

namespace LtiUnit
namespace Descriptor

open Xml (Node)
open Model (StateSpace)

def fileName : String := "modelDescription.xml"

/-- The categories of log messages that the runtime skeleton knows. -/
def logCategories : List String := ["logAll", "logError", "logFmiCall", "logEvent"]

def number (x : Float) : String := Number.Spelling.literal.text x

def sourceFiles : Node :=
  .element "SourceFiles" [] false [.leaf "File" [⟨"name", Source.fileName⟩]]

def modelExchange (id : Identity) : Node :=
  .element "ModelExchange"
    [⟨"modelIdentifier", id.name⟩,
     ⟨"canGetAndSetFMUstate", "false"⟩,
     ⟨"canSerializeFMUstate", "false"⟩,
     ⟨"providesDirectionalDerivative", "false"⟩] true [sourceFiles]

def coSimulation (id : Identity) : Node :=
  .element "CoSimulation"
    [⟨"modelIdentifier", id.name⟩,
     ⟨"canHandleVariableCommunicationStepSize", "false"⟩,
     ⟨"canNotUseMemoryManagementFunctions", "false"⟩,
     ⟨"canGetAndSetFMUstate", "false"⟩,
     ⟨"canSerializeFMUstate", "false"⟩] true [sourceFiles]

def categories : Node :=
  .element "LogCategories" [] false (logCategories.map fun name => .leaf "Category" [⟨"name", name⟩])

def defaultExperiment : Node :=
  .leaf "DefaultExperiment"
    [⟨"startTime", number 0⟩, ⟨"stopTime", number 1⟩, ⟨"tolerance", number 1e-4⟩]

/-- The name of the variable of element `n`, counted from one, of a block. -/
def variableName (n : Nat) : Block → String
  | .state => "x" ++ toString n
  | .derivative => "der_x" ++ toString n
  | .stateStart => "x" ++ toString n ++ "_start"
  | .input => "u" ++ toString n
  | .inputStart => "u" ++ toString n ++ "_start"
  | .output => "y" ++ toString n

def variableDescription (n : Nat) : Block → String
  | .state => "Continuous state " ++ toString n
  | .derivative => "State derivative " ++ toString n
  | .stateStart => "Start value for x" ++ toString n
  | .input => "Model input " ++ toString n
  | .inputStart => "Start value for u" ++ toString n
  | .output => "Model output " ++ toString n

/-- How the variables of a block take part in a simulation. -/
def role : Block → List Xml.Attribute
  | .state | .derivative => []
  | .stateStart | .inputStart => [⟨"causality", "parameter"⟩, ⟨"variability", "fixed"⟩]
  | .input => [⟨"causality", "input"⟩]
  | .output => [⟨"causality", "output"⟩]

/-- The type element of element `i`, counted from zero, of a block. A derivative names the position
of its state. -/
def realAttributes (m : StateSpace Float) (i : Nat) : Block → List Xml.Attribute
  | .state | .output => []
  | .derivative => [⟨"derivative", toString (m.layout.base .state + i + 1)⟩]
  | .stateStart => [⟨"start", number (m.x0.getD i 0)⟩]
  | .input | .inputStart => [⟨"start", number (m.u0.getD i 0)⟩]

/-- A variable, with its position in a comment. -/
def variableNodes (m : StateSpace Float) (b : Block) (i : Nat) : List Node :=
  let register := m.layout.base b + i
  [.comment ("index " ++ toString (register + 1)),
   .element "ScalarVariable"
     ([⟨"name", variableName (i + 1) b⟩,
       ⟨"valueReference", toString register⟩,
       ⟨"description", variableDescription (i + 1) b⟩] ++ role b) false
     [.leaf "Real" (realAttributes m i b)]]

def modelVariables (m : StateSpace Float) : Node :=
  .element "ModelVariables" [] false
    (Block.order.flatMap fun b => (List.range (m.layout.size b)).flatMap (variableNodes m b))

/-- The positions of the variables of some blocks; nothing if there are none. -/
def unknowns (l : Layout) (tag : String) (blocks : List Block) : List Node :=
  let registers := blocks.flatMap l.registers
  if registers.isEmpty then []
  else
    [.element tag [] false
      (registers.map fun r => .leaf "Unknown" [⟨"index", toString (r + 1)⟩])]

def modelStructure (l : Layout) : Node :=
  .element "ModelStructure" [] false
    (unknowns l "Outputs" [.output] ++
     unknowns l "Derivatives" [.derivative] ++
     unknowns l "InitialUnknowns" [.state, .derivative, .output])

def root (m : StateSpace Float) (id : Identity) : Node :=
  .element "fmiModelDescription"
    [⟨"xmlns:xsi", "http://www.w3.org/2001/XMLSchema-instance"⟩,
     ⟨"fmiVersion", "2.0"⟩,
     ⟨"modelName", id.name⟩,
     ⟨"guid", id.occasion.guid.text⟩,
     ⟨"generationTool", toolAndVersion⟩,
     ⟨"generationDateAndTime", id.timestamp⟩,
     ⟨"variableNamingConvention", "flat"⟩,
     ⟨"numberOfEventIndicators", "0"⟩] true
    [.blank, modelExchange id, .blank, coSimulation id, .blank, categories, .blank,
     defaultExperiment, .blank, modelVariables m, .blank, modelStructure m.layout]

end Descriptor
end LtiUnit
