import LtiUnit.Datum

/-!
# LtiUnit.Toml.Table

Tables of TOML documents while they are put together. A table may be added to from several places
of a document, but not from all of them, so each table knows how it came about.
-/

namespace LtiUnit
namespace Toml

/-- How a table came about. -/
inductive Origin where
  /-- By a header or braces of its own, or as the document itself. -/
  | own
  /-- On the way to the table of a header. -/
  | passed
  /-- On the way to the value of a dotted key. -/
  | dotted
  deriving DecidableEq, Repr

inductive Node where
  | value (d : Datum)
  | table (origin : Origin) (entries : List (String × Node))
  /-- Tables that headers in double brackets have added, the last one first. -/
  | tables (items : List (List (String × Node)))
  deriving Repr

abbrev Entries := List (String × Node)

namespace Entries

def find? (es : Entries) (key : String) : Option Node := es.lookup key

/-- The entries with a node in place of the one under its key, or after all others. -/
def set (es : Entries) (key : String) (node : Node) : Entries :=
  if es.any (·.1 == key) then es.map fun e => if e.1 == key then (key, node) else e
  else es ++ [(key, node)]

/-- Change the table at the end of a path. Missing tables are made on the way; of several tables
under one key the last one is taken. A dotted key does not pass through a table that has come about
by a header or braces of its own. -/
def update (dotted : Bool) (change : Origin → Entries → Option Entries) :
    List String → Origin → Entries → Option Entries
  | [], origin, es => change origin es
  | key :: path, _, es =>
    match es.find? key with
    | none =>
      let origin := if dotted then .dotted else .passed
      (update dotted change path origin []).map fun t => es.set key (.table origin t)
    | some (.table origin t) =>
      if dotted ∧ origin = .own then none
      else (update dotted change path origin t).map fun t => es.set key (.table origin t)
    | some (.tables (last :: before)) =>
      (update dotted change path .own last).map fun t => es.set key (.tables (t :: before))
    | some (.tables []) | some (.value _) => none

/-- Add a value under a key at the end of a path. The table there may not have been passed by a
header, and may not have the key yet. -/
def add (es : Entries) (path : List String) (key : String) (d : Datum) : Option Entries :=
  es.update true
    (fun origin t =>
      if (path.isEmpty || origin = .dotted) && (t.find? key).isNone then
        some (t.set key (.value d))
      else none)
    path .own

def addAll (es : Entries) : List (List String × String × Datum) → Option Entries
  | [] => some es
  | (path, key, d) :: rest => (es.add path key d).bind (addAll · rest)

/-- Add the table of a header at the end of a path. It may have been passed before, but it may not
have come about in any other way. -/
def addTable (es : Entries) (path : List String) (key : String)
    (values : List (List String × String × Datum)) : Option Entries :=
  es.update false
    (fun _ t =>
      match t.find? key with
      | none => (addAll [] values).map fun new => t.set key (.table .own new)
      | some (.table .passed old) =>
        (addAll old values).map fun new => t.set key (.table .own new)
      | some _ => none)
    path .own

/-- Add a table to those under a key at the end of a path. -/
def addItem (es : Entries) (path : List String) (key : String)
    (values : List (List String × String × Datum)) : Option Entries :=
  es.update false
    (fun _ t =>
      match t.find? key with
      | none => (addAll [] values).map fun new => t.set key (.tables [new])
      | some (.tables before) =>
        (addAll [] values).map fun new => t.set key (.tables (new :: before))
      | some _ => none)
    path .own

end Entries

mutual

def Node.datum : Node → Datum
  | .value d => d
  | .table _ entries => .table (Node.members entries)
  | .tables items => .list (Node.data items).reverse

def Node.members : List (String × Node) → Members
  | [] => []
  | (key, n) :: rest => (key, n.datum) :: Node.members rest

def Node.data : List (List (String × Node)) → List Datum
  | [] => []
  | es :: rest => .table (Node.members es) :: Node.data rest

end

end Toml
end LtiUnit
