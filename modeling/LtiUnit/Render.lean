import LtiUnit.Descriptor
import LtiUnit.Source.Printer
import LtiUnit.Source.Unit

/-!
# LtiUnit.Render

The two texts of a unit, and why there may be none. Both are generated for a layout that the caller
has allocated, which has to be the model's own.
-/

namespace LtiUnit

/-- Why a text of a unit cannot be generated. -/
inductive RenderError where
  /-- The name of the unit is no C identifier. -/
  | badName (name : String)
  | layout (given own : Layout)
  | stepSize (value : Float)
  deriving Repr

def RenderError.message : RenderError → String
  | .badName name => "invalid model identifier '" ++ name ++ "': must be a C identifier"
  | .layout given own =>
    let sizes (l : Layout) :=
      "(" ++ toString l.nx ++ ", " ++ toString l.nu ++ ", " ++ toString l.ny ++ ")"
    "layout " ++ sizes given ++ " does not match model " ++ sizes own
  | .stepSize value =>
    "step size must be finite and positive, found " ++ Number.Spelling.plain.text value

namespace Render

open Model (StateSpace)

/-- Lines as a text in which every line is ended by a line break. -/
def textOf (lines : List String) : String := String.join (lines.map (· ++ "\n"))

def validStepSize (x : Float) : Bool := x.isFinite && decide (0 < x)

def identify (name : String) (occasion : Occasion) : Except RenderError Identity :=
  match Identity.make? name occasion with
  | some id => .ok id
  | none => .error (.badName name)

def checkLayout (m : StateSpace Float) (given : Layout) : Except RenderError Unit :=
  if given = m.layout then .ok () else .error (.layout given m.layout)

/-- The lines of the translation unit of a model. -/
def sourceLines (m : StateSpace Float) (id : Identity) (step : Float) : List String :=
  (Source.unit m id step).flatMap Source.Item.lines

/-- The lines of the interface descriptor of a model. -/
def descriptorLines (m : StateSpace Float) (id : Identity) : List String :=
  Xml.documentLines (Descriptor.root m id)

def source (m : StateSpace Float) (layout : Layout) (id : Identity) (step : Float) :
    Except RenderError String := do
  checkLayout m layout
  if !validStepSize step then throw (.stepSize step)
  return textOf (sourceLines m id step)

def descriptor (m : StateSpace Float) (layout : Layout) (id : Identity) :
    Except RenderError String := do
  checkLayout m layout
  return textOf (descriptorLines m id)

end Render
end LtiUnit
