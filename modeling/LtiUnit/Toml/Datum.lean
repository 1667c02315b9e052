import LtiUnit.Toml.Statement

/-!
# LtiUnit.Toml.Datum

What TOML documents say: the statements of a document, put together into one table.
-/

namespace LtiUnit
namespace Toml

/-- Statements between headers: the pairs that come first, and the headers with the pairs that
follow them. -/
structure Sections where
  first : List (List String × String × Datum)
  rest : List ((Bool × List String × String) × List (List String × String × Datum))

/-- Group statements by the header before them. -/
def Sections.ofStatements : List Statement → Sections
  | [] => ⟨[], []⟩
  | .pair path key d :: more =>
    let s := ofStatements more
    ⟨(path, key, d) :: s.first, s.rest⟩
  | .header double path key :: more =>
    let s := ofStatements more
    ⟨[], ((double, path, key), s.first) :: s.rest⟩

/-- Add the tables of headers, one after the other. -/
def addSections (es : Entries) :
    List ((Bool × List String × String) × List (List String × String × Datum)) → Option Entries
  | [] => some es
  | ((double, path, key), values) :: more => do
    let es ← if double then es.addItem path key values else es.addTable path key values
    addSections es more

def entries? (statements : List Statement) : Option Entries := do
  let s := Sections.ofStatements statements
  addSections (← Entries.addAll [] s.first) s.rest

/-- A text without a byte order mark at its front. -/
def dropMark : List Char → List Char
  | '\uFEFF' :: rest => rest
  | rest => rest

def members? (s : String) : Option Members := do
  let cs := dropMark s.toList
  let statements ← statements? (cs.length + 1) cs
  return Node.members (← entries? statements)

end Toml
end LtiUnit
