import LtiUnit.Number.Spelling
import LtiUnit.Source.Code
import LtiUnit.Text

/-!
# LtiUnit.Source.Printer

The text of units, line by line. Constants are spelled by `Number.Spelling.literal`.
-/

namespace LtiUnit
namespace Source

open Text (separated)

def literals (xs : List Float) : String :=
  separated ", " (xs.map Number.Spelling.literal.text)

/-- Indices as the elements of an initializer. -/
def indices (ns : List Nat) : String := separated ", " (ns.map toString)

def TypeName.stem : TypeName → String
  | .real => "fmi2Real"
  | .size => "size_t"
  | .reference => "fmi2ValueReference"
  | .component => "ModelInstance"
  | .reals => "const fmi2Real"

/-- The declaration of names of a type, without the semicolon. -/
def TypeName.declaration (type : TypeName) (names : String) : String :=
  match type with
  | .component | .reals => type.stem ++ " *" ++ names
  | _ => type.stem ++ " " ++ names

def Operator.text : Operator → String
  | .add => "+"
  | .multiply => "*"
  | .divide => "/"
  | .less => "<"

def Expr.text : Expr Float → String
  | .name x => x
  | .natural n => toString n
  | .real x => Number.Spelling.literal.text x
  | .quoted s => "\"" ++ s ++ "\""
  | .entry table index => table.text ++ "[" ++ index.text ++ "]"
  | .member object field => object.text ++ "->" ++ field
  | .paren e => "(" ++ e.text ++ ")"
  | .cast type e => "(" ++ type.stem ++ ")" ++ e.text
  | .binary op a b => a.text ++ " " ++ op.text ++ " " ++ b.text
  | .sizeOf type => "sizeof(" ++ type.stem ++ ")"

/-- A call, without the semicolon. -/
def callText (function : String) (args : List (Expr Float)) : String :=
  function ++ "(" ++ separated ", " (args.map Expr.text) ++ ")"

def Rhs.text : Rhs Float → String
  | .expr e => e.text
  | .call function args => callText function args

mutual

/-- The lines of a statement at an indentation. -/
def Stmt.lines (indent : String) : Stmt Float → List String
  | .declare type names => [indent ++ type.declaration (separated ", " names) ++ ";"]
  | .define type name value =>
    [indent ++ type.declaration name ++ " = " ++ value.text ++ ";"]
  | .assign target value => [indent ++ target.text ++ " = " ++ value.text ++ ";"]
  | .accumulate target value => [indent ++ target.text ++ " += " ++ value.text ++ ";"]
  | .increment name => [indent ++ name ++ "++;"]
  | .when condition action =>
    [indent ++ "if (" ++ condition.text ++ ") " ++ String.join (action.lines "")]
  | .count counter stepFirst bound body =>
    let step := if stepFirst then "++" ++ counter else counter ++ "++"
    (indent ++ "for (" ++ counter ++ " = 0; " ++ counter ++ " < " ++ bound.text ++ "; " ++
        step ++ ") \x7b") ::
      (Stmt.block (indent ++ "    ") body ++ [indent ++ "\x7d"])
  | .call function args => [indent ++ callText function args ++ ";"]
  | .give value => [indent ++ "return " ++ value.text ++ ";"]
  | .discard name => [indent ++ "(void)" ++ name ++ ";"]

def Stmt.block (indent : String) : List (Stmt Float) → List String
  | [] => []
  | s :: rest => s.lines indent ++ Stmt.block indent rest

end

def Function.lines (f : Function Float) : List String :=
  let returns := (f.returns.map TypeName.stem).getD "void"
  let params := f.params.map fun (type, name) => type.declaration name
  ("static " ++ returns ++ " " ++ f.name ++ "(" ++ separated ", " params ++ ") \x7b") ::
    (Stmt.block "    " f.body ++ ["\x7d"])

def instanceLines (slots : Nat) : List String := [
  "typedef struct \x7b",
  "    ModelState state;",
  "    fmi2Real r[" ++ toString slots ++ "];",
  "    fmi2Real time;",
  "    fmi2Char instanceName[256];",
  "    fmi2Type type;",
  "    fmi2String GUID;",
  "    const fmi2CallbackFunctions *functions;",
  "    fmi2Boolean loggingOn;",
  "    fmi2Boolean logCategories[NUMBER_OF_CATEGORIES];",
  "    fmi2ComponentEnvironment componentEnvironment;",
  "    fmi2Boolean isDirtyValues;",
  "\x7d ModelInstance;"]

/-- A name with blanks after it up to four characters. -/
def padName (name : String) : String := name ++ String.ofList (List.replicate (4 - name.length) ' ')

def Item.lines : Item Float → List String
  | .blank => [""]
  | .note line => ["/* " ++ line ++ " */"]
  | .remark lines => "/*" :: (lines.map (" * " ++ ·) ++ [" */"])
  | .header file => ["#include \"" ++ file ++ "\""]
  | .define name value => ["#define " ++ name ++ " " ++ value.text]
  | .registers name base => ["#define " ++ padName name ++ " (comp->r + " ++ toString base ++ ")"]
  | .linkageOpen => ["#ifdef __cplusplus", "extern \"C\" \x7b", "#endif"]
  | .linkageClose => ["#ifdef __cplusplus", "\x7d", "#endif"]
  | .instanceType slots => instanceLines slots
  | .references name values =>
    ["static const fmi2ValueReference " ++ name ++ "[" ++ toString values.length ++ "] = \x7b " ++
      indices values ++ " \x7d;"]
  | .matrix name grid =>
    ("static const fmi2Real " ++ name ++ "[" ++ toString grid.height ++ "][" ++
        toString grid.cols ++ "] = \x7b") ::
      (grid.rows.map (fun row => "    \x7b " ++ literals row ++ " \x7d,") ++ ["\x7d;"])
  | .vector name values =>
    ["static const fmi2Real " ++ name ++ "[" ++ toString values.length ++ "] = \x7b " ++
      literals values ++ " \x7d;"]
  | .function f => f.lines
  | .passage lines => lines

end Source
end LtiUnit
