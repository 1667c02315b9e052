import LtiUnit.Model.Grid

/-!
# LtiUnit.Source.Code

The part of C that generated units are written in, over any type `α` of constants. Expressions
make no calls: a call stands alone as a statement or is the value that a statement assigns, so
evaluating an expression changes nothing.
-/

namespace LtiUnit
namespace Source

inductive TypeName where
  | real
  | size
  | reference
  /-- Pointer to the instance of the unit. -/
  | component
  /-- Pointer to numbers that are only read. -/
  | reals
  deriving DecidableEq, Repr

inductive Operator where
  | add | multiply | divide | less
  deriving DecidableEq, Repr

inductive Expr (α : Type) where
  | name (x : String)
  | natural (n : Nat)
  | real (x : α)
  | quoted (s : String)
  /-- `table[index]` -/
  | entry (table index : Expr α)
  /-- `object->field` -/
  | member (object : Expr α) (field : String)
  | paren (e : Expr α)
  /-- `(type)e` -/
  | cast (type : TypeName) (e : Expr α)
  | binary (op : Operator) (a b : Expr α)
  | sizeOf (type : TypeName)
  deriving DecidableEq, Repr

inductive Rhs (α : Type) where
  | expr (e : Expr α)
  | call (function : String) (args : List (Expr α))
  deriving DecidableEq, Repr

inductive Stmt (α : Type) where
  /-- `type a, b;` -/
  | declare (type : TypeName) (names : List String)
  /-- `type name = value;` -/
  | define (type : TypeName) (name : String) (value : Expr α)
  /-- `target = value;` -/
  | assign (target : Expr α) (value : Rhs α)
  /-- `target += value;` -/
  | accumulate (target : Expr α) (value : Rhs α)
  /-- `name++;` -/
  | increment (name : String)
  /-- `if (condition) action` -/
  | when (condition : Expr α) (action : Stmt α)
  /-- A loop in which `counter` runs from zero to below `bound`. The counter is stepped by `++i`
  or by `i++`. -/
  | count (counter : String) (stepFirst : Bool) (bound : Expr α) (body : List (Stmt α))
  | call (function : String) (args : List (Expr α))
  /-- `return value;` -/
  | give (value : Expr α)
  /-- `(void)name;`, which marks a parameter as unused. -/
  | discard (name : String)
  deriving Repr

/-- A static function. `returns` is `none` for a procedure. -/
structure Function (α : Type) where
  returns : Option TypeName
  name : String
  params : List (TypeName × String)
  body : List (Stmt α)
  deriving Repr

/-- A piece of a unit, written on lines of its own. -/
inductive Item (α : Type) where
  | blank
  /-- A comment on one line. -/
  | note (line : String)
  /-- A comment with its marks on lines of their own. -/
  | remark (lines : List String)
  /-- `#include "header"` -/
  | header (file : String)
  | define (name : String) (value : Expr α)
  /-- The macro for the registers from `base` on. -/
  | registers (name : String) (base : Nat)
  /-- Start and end of the part with C linkage, for readers that take the unit as C++. -/
  | linkageOpen
  | linkageClose
  /-- The type of instances, with the given number of register slots. -/
  | instanceType (slots : Nat)
  /-- A constant table of value references. -/
  | references (name : String) (values : List Nat)
  | matrix (name : String) (grid : Model.Grid α)
  | vector (name : String) (values : List α)
  | function (f : Function α)
  /-- Lines that are the same in every unit. -/
  | passage (lines : List String)

end Source
end LtiUnit
