import LtiUnit.Proofs.SourceReader

/-!
# LtiUnit.Proofs.SourceLines

What is read from the lines of each piece of a translation unit. A piece is tidy if its names are
names and its fixed lines say nothing about registers.

* `readBack_item` — from the lines of a tidy piece its macros and tables are read.
* `tidy_unit` — all pieces of a unit are tidy.
* `macros_source`, `tables_source` — the macros and tables of the unit of a model.
-/

namespace LtiUnit
namespace Source

open Text (Only)

/-! ## Tidy code -/

/-- The names and strings in an expression are free of line breaks and marks of directives. -/
def Expr.Tidy : Expr Float → Prop
  | .name x => Only isCode x
  | .natural _ | .real _ | .sizeOf _ => True
  | .quoted s => Only isCode s
  | .entry table index => table.Tidy ∧ index.Tidy
  | .member object field => object.Tidy ∧ Only isCode field
  | .paren e | .cast _ e => e.Tidy
  | .binary _ a b => a.Tidy ∧ b.Tidy

def Rhs.Tidy : Rhs Float → Prop
  | .expr e => e.Tidy
  | .call function args => Only isCode function ∧ ∀ e ∈ args, e.Tidy

mutual

def Stmt.Tidy : Stmt Float → Prop
  | .declare _ names => ∀ x ∈ names, Only isCode x
  | .define _ name value => Only isCode name ∧ value.Tidy
  | .assign target value | .accumulate target value => target.Tidy ∧ value.Tidy
  | .increment name | .discard name => Only isCode name
  | .when condition action => condition.Tidy ∧ action.Tidy
  | .count counter _ bound body => Only isCode counter ∧ bound.Tidy ∧ Stmt.AllTidy body
  | .call function args => Only isCode function ∧ ∀ e ∈ args, e.Tidy
  | .give value => value.Tidy

def Stmt.AllTidy : List (Stmt Float) → Prop
  | [] => True
  | s :: rest => s.Tidy ∧ Stmt.AllTidy rest

end

structure Function.Tidy (f : Function Float) : Prop where
  name : Only isCode f.name
  params : ∀ p ∈ f.params, Only isCode p.2
  body : Stmt.AllTidy f.body

instance Expr.decidableTidy : (e : Expr Float) → Decidable e.Tidy
  | .name x | .quoted x => inferInstanceAs (Decidable (Only isCode x))
  | .natural _ | .real _ | .sizeOf _ => .isTrue trivial
  | .entry table index =>
    have := Expr.decidableTidy table
    have := Expr.decidableTidy index
    inferInstanceAs (Decidable (table.Tidy ∧ index.Tidy))
  | .member object field =>
    have := Expr.decidableTidy object
    inferInstanceAs (Decidable (object.Tidy ∧ Only isCode field))
  | .paren e | .cast _ e => Expr.decidableTidy e
  | .binary _ a b =>
    have := Expr.decidableTidy a
    have := Expr.decidableTidy b
    inferInstanceAs (Decidable (a.Tidy ∧ b.Tidy))

instance Rhs.decidableTidy : (value : Rhs Float) → Decidable value.Tidy
  | .expr e => Expr.decidableTidy e
  | .call function args =>
    inferInstanceAs (Decidable (Only isCode function ∧ ∀ e ∈ args, e.Tidy))

mutual

def Stmt.decidableTidy : (s : Stmt Float) → Decidable s.Tidy
  | .declare _ names => inferInstanceAs (Decidable (∀ x ∈ names, Only isCode x))
  | .define _ name value => inferInstanceAs (Decidable (Only isCode name ∧ value.Tidy))
  | .assign target value | .accumulate target value =>
    inferInstanceAs (Decidable (target.Tidy ∧ value.Tidy))
  | .increment name | .discard name => inferInstanceAs (Decidable (Only isCode name))
  | .when condition action =>
    have := Stmt.decidableTidy action
    inferInstanceAs (Decidable (condition.Tidy ∧ action.Tidy))
  | .count counter _ bound body =>
    have := Stmt.decidableAllTidy body
    inferInstanceAs (Decidable (Only isCode counter ∧ bound.Tidy ∧ Stmt.AllTidy body))
  | .call function args =>
    inferInstanceAs (Decidable (Only isCode function ∧ ∀ e ∈ args, e.Tidy))
  | .give value => inferInstanceAs (Decidable value.Tidy)

def Stmt.decidableAllTidy : (body : List (Stmt Float)) → Decidable (Stmt.AllTidy body)
  | [] => .isTrue trivial
  | s :: rest =>
    have := Stmt.decidableTidy s
    have := Stmt.decidableAllTidy rest
    inferInstanceAs (Decidable (s.Tidy ∧ Stmt.AllTidy rest))

end

instance (body : List (Stmt Float)) : Decidable (Stmt.AllTidy body) := Stmt.decidableAllTidy body

instance (f : Function Float) : Decidable f.Tidy :=
  decidable_of_iff (Only isCode f.name ∧ (∀ p ∈ f.params, Only isCode p.2) ∧ Stmt.AllTidy f.body)
    ⟨fun h => ⟨h.1, h.2.1, h.2.2⟩, fun h => ⟨h.name, h.params, h.body⟩⟩

def Item.Tidy : Item Float → Prop
  | .blank | .linkageOpen | .linkageClose | .instanceType _ => True
  | .note line => Only isCode line
  | .remark lines => ∀ line ∈ lines, Only isCode line
  | .header file => Only isCode file
  | .define name value => isName name = true ∧ value.Tidy
  | .registers name _ => isName name = true
  | .references name _ => isName name = true
  | .matrix name _ | .vector name _ => Only isCode name
  | .function f => f.Tidy
  | .passage lines => ∀ line ∈ lines, Quiet line.toList

/-! ## The characters of code -/

theorem code_stem (type : TypeName) : Only isCode type.stem := by
  cases type <;> decide

theorem code_declaration (type : TypeName) {names : String} (h : Only isCode names) :
    Only isCode (type.declaration names) := by
  have hstem := code_stem type
  have hpointer : Only isCode " *" := Text.only_chars (by decide)
  have hblank : Only isCode " " := Text.only_chars (by decide)
  unfold TypeName.declaration
  split <;> simp only [Text.only_append, hstem, h, hpointer, hblank, and_self]

theorem code_operator (op : Operator) : Only isCode op.text := by
  cases op <;> decide

theorem code_toString (n : Nat) : Only isCode (toString n) :=
  code_of_plain (Text.plain_toString n)

theorem code_expr {e : Expr Float} (h : e.Tidy) : Only isCode e.text := by
  induction e with
  | name x => exact h
  | natural n => exact code_toString n
  | real x => exact code_of_plain (Text.plain_literal x)
  | quoted s => exact Text.only_append.2 ⟨Text.only_append.2 ⟨Text.only_chars (by decide), h⟩,
      Text.only_chars (by decide)⟩
  | entry table index iht ihi =>
    have hopen : Only isCode "[" := Text.only_chars (by decide)
    have hclose : Only isCode "]" := Text.only_chars (by decide)
    simp only [Expr.text, Text.only_append, iht h.1, ihi h.2, hopen, hclose, and_self]
  | member object field ih =>
    have harrow : Only isCode "->" := Text.only_chars (by decide)
    simp only [Expr.text, Text.only_append, ih h.1, harrow, h.2, and_self]
  | paren e ih => exact Text.only_append.2 ⟨Text.only_append.2 ⟨Text.only_chars (by decide), ih h⟩,
      Text.only_chars (by decide)⟩
  | cast type e ih =>
    have hopen : Only isCode "(" := Text.only_chars (by decide)
    have hclose : Only isCode ")" := Text.only_chars (by decide)
    simp only [Expr.text, Text.only_append, code_stem, ih h, hopen, hclose, and_self]
  | binary op a b iha ihb =>
    have hblank : Only isCode " " := Text.only_chars (by decide)
    simp only [Expr.text, Text.only_append, iha h.1, ihb h.2, code_operator, hblank, and_self]
  | sizeOf type =>
    exact Text.only_append.2 ⟨Text.only_append.2 ⟨Text.only_chars (by decide), code_stem type⟩,
      Text.only_chars (by decide)⟩

theorem code_callText {function : String} {args : List (Expr Float)} (hf : Only isCode function)
    (hargs : ∀ e ∈ args, e.Tidy) : Only isCode (callText function args) := by
  have hlist : Only isCode (Text.separated ", " (args.map Expr.text)) := by
    refine Text.only_separated (Text.only_chars (by decide)) fun s hs => ?_
    obtain ⟨e, he, rfl⟩ := List.mem_map.1 hs
    exact code_expr (hargs e he)
  have hopen : Only isCode "(" := Text.only_chars (by decide)
  have hclose : Only isCode ")" := Text.only_chars (by decide)
  simp only [callText, Text.only_append, hf, hlist, hopen, hclose, and_self]

theorem code_rhs {value : Rhs Float} (h : value.Tidy) : Only isCode value.text := by
  cases value with
  | expr e => exact code_expr h
  | call function args => exact code_callText h.1 h.2

mutual

theorem code_stmt {indent : String} (hindent : Only isCode indent) (s : Stmt Float) (h : s.Tidy) :
    ∀ line ∈ s.lines indent, Only isCode line := by
  have hend : Only isCode ";" := Text.only_chars (by decide)
  have hsign : Only isCode " = " := Text.only_chars (by decide)
  cases s with
  | declare type names =>
    have hnames : Only isCode (Text.separated ", " names) :=
      Text.only_separated (Text.only_chars (by decide)) h
    rw [Stmt.lines, List.forall_mem_singleton]
    simp only [Text.only_append, hindent, code_declaration type hnames, hend, and_self]
  | define type name value =>
    rw [Stmt.lines, List.forall_mem_singleton]
    simp only [Text.only_append, hindent, code_declaration type h.1, code_expr h.2, hsign, hend,
      and_self]
  | assign target value =>
    rw [Stmt.lines, List.forall_mem_singleton]
    simp only [Text.only_append, hindent, code_expr h.1, code_rhs h.2, hsign, hend, and_self]
  | accumulate target value =>
    have hplus : Only isCode " += " := Text.only_chars (by decide)
    rw [Stmt.lines, List.forall_mem_singleton]
    simp only [Text.only_append, hindent, code_expr h.1, code_rhs h.2, hplus, hend, and_self]
  | increment name =>
    have hstep : Only isCode "++;" := Text.only_chars (by decide)
    rw [Stmt.lines, List.forall_mem_singleton]
    simp only [Text.only_append, hindent, hstep, and_true, true_and]
    exact h
  | when condition action =>
    have haction : Only isCode (String.join (action.lines "")) := by
      intro c hc
      rw [String.toList_join] at hc
      obtain ⟨line, hline, hc⟩ := List.mem_flatMap.1 hc
      have hempty : Only isCode "" := Text.only_chars (by decide)
      exact code_stmt hempty action h.2 line hline c hc
    have hopen : Only isCode "if (" := Text.only_chars (by decide)
    have hclose : Only isCode ") " := Text.only_chars (by decide)
    rw [Stmt.lines, List.forall_mem_singleton]
    simp only [Text.only_append, hindent, hopen, code_expr h.1, hclose, haction, and_self]
  | count counter stepFirst bound body =>
    obtain ⟨hcounter, hbound, hbody⟩ := h
    have hplus : Only isCode "++" := Text.only_chars (by decide)
    have hstep : Only isCode (if stepFirst then "++" ++ counter else counter ++ "++") := by
      cases stepFirst <;> simp [hcounter, hplus]
    have hopen : Only isCode "for (" ∧ Only isCode " = 0; " ∧ Only isCode " < " ∧
        Only isCode "; " ∧ Only isCode ") \x7b" := by
      decide
    have hdeeper : Only isCode (indent ++ "    ") :=
      Text.only_append.2 ⟨hindent, Text.only_chars (by decide)⟩
    have hclose : Only isCode (indent ++ "\x7d") :=
      Text.only_append.2 ⟨hindent, Text.only_chars (by decide)⟩
    rw [Stmt.lines, List.forall_mem_cons, List.forall_mem_append, List.forall_mem_singleton]
    refine ⟨?_, code_block hdeeper body hbody, hclose⟩
    simp only [Text.only_append, hindent, hcounter, code_expr hbound, hstep, hopen, and_self]
  | call function args =>
    rw [Stmt.lines, List.forall_mem_singleton]
    simp only [Text.only_append, hindent, code_callText h.1 h.2, hend, and_self]
  | give value =>
    have hreturn : Only isCode "return " := Text.only_chars (by decide)
    rw [Stmt.lines, List.forall_mem_singleton]
    simp only [Text.only_append, hindent, hreturn, code_expr h, hend, and_self]
  | discard name =>
    have hcast : Only isCode "(void)" := Text.only_chars (by decide)
    rw [Stmt.lines, List.forall_mem_singleton]
    simp only [Text.only_append, hindent, hcast, hend, and_true, true_and]
    exact h

theorem code_block {indent : String} (hindent : Only isCode indent) (body : List (Stmt Float))
    (h : Stmt.AllTidy body) : ∀ line ∈ Stmt.block indent body, Only isCode line := by
  cases body with
  | nil => simp [Stmt.block]
  | cons s rest =>
    rw [Stmt.block, List.forall_mem_append]
    exact ⟨code_stmt hindent s h.1, code_block hindent rest h.2⟩

end

mutual

/-- All lines of a statement have its indentation. -/
theorem indented_stmt (indent : String) (s : Stmt Float) :
    ∀ line ∈ s.lines indent, indent.toList <+: line.toList := by
  cases s with
  | count counter stepFirst bound body =>
    rw [Stmt.lines, List.forall_mem_cons, List.forall_mem_append, List.forall_mem_singleton]
    refine ⟨by simp, fun line hline => ?_, by simp⟩
    refine List.IsPrefix.trans ?_ (indented_block (indent ++ "    ") body line hline)
    simp
  | _ => rw [Stmt.lines, List.forall_mem_singleton]; simp

theorem indented_block (indent : String) (body : List (Stmt Float)) :
    ∀ line ∈ Stmt.block indent body, indent.toList <+: line.toList := by
  cases body with
  | nil => simp [Stmt.block]
  | cons s rest =>
    rw [Stmt.block, List.forall_mem_append]
    exact ⟨indented_stmt indent s, indented_block indent rest⟩

end

/-! ## Lines from which nothing is read -/

/-- A line of code whose first character is not that of a table. -/
theorem quiet_of_start {line : String} (h : Only isCode line) {c : Char} (hc : c ≠ 's')
    (hstart : line.toList.head? = some c) : Quiet line.toList :=
  quiet_of_code h (table?_of_head hstart hc)

theorem quiet_block {body : List (Stmt Float)} (h : Stmt.AllTidy body) :
    ∀ line ∈ Stmt.block "    " body, Quiet line.toList := by
  intro line hline
  refine quiet_of_start (code_block (by decide) body h line hline) (c := ' ') (by decide) ?_
  obtain ⟨rest, hrest⟩ := indented_block "    " body line hline
  rw [← hrest]
  rfl

/-- No function has tables for its type. -/
theorem table?_function (returns : Option TypeName) (rest : String) :
    table? ("static " ++ (returns.map TypeName.stem).getD "void" ++ rest).toList = none := by
  rw [String.toList_append]
  cases returns with
  | none => exact table?_append 7 (by decide) _
  | some type =>
    cases type with
    | reals => exact table?_append 17 (by decide) _
    | _ => exact table?_append 7 (by decide) _

theorem quiet_function {f : Function Float} (h : f.Tidy) :
    ∀ line ∈ f.lines, Quiet line.toList := by
  have hreturns : Only isCode ((f.returns.map TypeName.stem).getD "void") := by
    cases f.returns with
    | none => decide
    | some type => exact code_stem type
  have hmarks : Only isCode "static " ∧ Only isCode " " ∧ Only isCode "(" ∧
      Only isCode ") \x7b" :=
    ⟨Text.only_chars (by decide), Text.only_chars (by decide),
      Text.only_chars (by decide), Text.only_chars (by decide)⟩
  unfold Function.lines
  dsimp only
  rw [List.forall_mem_cons, List.forall_mem_append, List.forall_mem_singleton]
  refine ⟨quiet_of_code ?_ ?_, quiet_block h.body, quiet_ofList (by decide)⟩
  · simp only [Text.only_append, hreturns, h.name, hmarks, and_true, true_and]
    refine Text.only_separated (Text.only_chars (by decide)) fun s hs => ?_
    obtain ⟨p, hp, rfl⟩ := List.mem_map.1 hs
    exact code_declaration p.1 (h.params p hp)
  · simp only [String.append_assoc]
    rw [← String.append_assoc]
    exact table?_function f.returns _

theorem code_literals (xs : List Float) : Only isCode (literals xs) := by
  refine Text.only_separated (Text.only_chars (by decide)) fun s hs => ?_
  obtain ⟨x, -, rfl⟩ := List.mem_map.1 hs
  exact code_of_plain (Text.plain_literal x)

/-- Tables of numbers are no tables of value references. -/
theorem quiet_reals {rest : String} (h : Only isCode rest) :
    Quiet ("static const fmi2Real " ++ rest).toList := by
  refine quiet_of_code (Text.only_append.2 ⟨Text.only_chars (by decide), h⟩) ?_
  rw [String.toList_append]
  exact table?_append 17 (by decide) _

theorem quiet_instanceLines (slots : Nat) : ∀ line ∈ instanceLines slots, Quiet line.toList := by
  have hslots : Quiet ("    fmi2Real r[" ++ toString slots ++ "];").toList := by
    refine quiet_of_start (c := ' ') ?_ (by decide) (by simp)
    exact Text.only_append.2 ⟨Text.only_append.2 ⟨Text.only_chars (by decide), code_toString slots⟩,
      Text.only_chars (by decide)⟩
  unfold instanceLines
  refine List.forall_mem_cons.2 ⟨quiet_ofList (by decide), ?_⟩
  refine List.forall_mem_cons.2 ⟨quiet_ofList (by decide), ?_⟩
  refine List.forall_mem_cons.2 ⟨hslots, ?_⟩
  repeat refine List.forall_mem_cons.2 ⟨quiet_ofList (by decide), ?_⟩
  exact List.forall_mem_nil _

theorem quiet_support : ∀ line ∈ support, Quiet line.toList := by
  unfold support
  repeat refine List.forall_mem_cons.2 ⟨quiet_ofList (by decide), ?_⟩
  exact List.forall_mem_nil _

theorem quiet_remark {lines : List String} (h : ∀ line ∈ lines, Only isCode line) :
    ∀ line ∈ (Item.remark lines : Item Float).lines, Quiet line.toList := by
  rw [Item.lines, List.forall_mem_cons, List.forall_mem_append, List.forall_mem_singleton]
  refine ⟨quiet_ofList (by decide), fun line hline => ?_, quiet_ofList (by decide)⟩
  obtain ⟨text, htext, rfl⟩ := List.mem_map.1 hline
  exact quiet_of_start (c := ' ') (Text.only_append.2 ⟨Text.only_chars (by decide), h text htext⟩)
    (by decide) (by simp)

theorem quiet_matrix {name : String} (h : Only isCode name) (grid : Model.Grid Float) :
    ∀ line ∈ (Item.matrix name grid).lines, Quiet line.toList := by
  have hrows : ∀ line ∈ grid.rows.map (fun row => "    \x7b " ++ literals row ++ " \x7d,"),
      Quiet line.toList := by
    intro line hline
    obtain ⟨row, -, rfl⟩ := List.mem_map.1 hline
    refine quiet_of_start (c := ' ') ?_ (by decide) (by simp)
    exact Text.only_append.2 ⟨Text.only_append.2 ⟨Text.only_chars (by decide), code_literals row⟩,
      Text.only_chars (by decide)⟩
  have hmarks : Only isCode "[" ∧ Only isCode "][" ∧ Only isCode "] = \x7b" :=
    ⟨Text.only_chars (by decide), Text.only_chars (by decide), Text.only_chars (by decide)⟩
  rw [Item.lines, List.forall_mem_cons, List.forall_mem_append, List.forall_mem_singleton]
  refine ⟨?_, hrows, quiet_ofList (by decide)⟩
  simp only [String.append_assoc]
  refine quiet_reals ?_
  simp only [Text.only_append, h, code_toString, hmarks, and_self]

theorem quiet_vector {name : String} (h : Only isCode name) (values : List Float) :
    ∀ line ∈ (Item.vector name values).lines, Quiet line.toList := by
  have hmarks : Only isCode "[" ∧ Only isCode "] = \x7b " ∧ Only isCode " \x7d;" :=
    ⟨Text.only_chars (by decide), Text.only_chars (by decide), Text.only_chars (by decide)⟩
  rw [Item.lines, List.forall_mem_singleton]
  simp only [String.append_assoc]
  refine quiet_reals ?_
  simp only [Text.only_append, h, code_toString, code_literals, hmarks, and_self]

theorem quiet_header {file : String} (h : Only isCode file) :
    ∀ line ∈ (Item.header file : Item Float).lines, Quiet line.toList := by
  have hline : ("#include \"" ++ file ++ "\"").toList =
      '#' :: ("include".toList ++ ' ' :: ('"' :: (file.toList ++ ['"']))) := by
    simp
  have hbreak : '\n' ∉ file.toList := h.not_mem (by decide)
  rw [Item.lines, List.forall_mem_singleton, hline]
  refine ⟨by simp [hbreak], ?_, table?_of_head rfl (by decide)⟩
  have hword : "include" ≠ "define" := by decide
  refine macro?_of_word ?_ hword
  rw [words_sep, words_name (by decide)]
  rfl

/-! ## Reading a piece -/

/-- The macros without parameters that a piece defines. -/
def Item.macros : Item Float → List (String × List String)
  | .define name value => [(name, words value.text.toList)]
  | .registers name base => [(name, ["(comp->r", "+", toString base ++ ")"])]
  | _ => []

/-- The tables of value references that a piece declares. -/
def Item.tables : Item Float → List (String × List Char)
  | .references name values => [(name, (declarator values).toList)]
  | _ => []

/-- From the lines of a piece its macros and tables are read, and nothing else. -/
structure Item.ReadBack (item : Item Float) : Prop where
  oneLine : ∀ line ∈ item.lines, '\n' ∉ line.toList
  macros : (item.lines.map String.toList).filterMap macro? = item.macros
  tables : (item.lines.map String.toList).filterMap table? = item.tables

theorem readBack_of_quiet {item : Item Float} (h : ∀ line ∈ item.lines, Quiet line.toList)
    (hmacros : item.macros = []) (htables : item.tables = []) : item.ReadBack where
  oneLine := fun line hline => (h line hline).oneLine
  macros := by
    rw [hmacros, List.filterMap_eq_nil_iff, List.forall_mem_map]
    exact fun line hline => (h line hline).noMacro
  tables := by
    rw [htables, List.filterMap_eq_nil_iff, List.forall_mem_map]
    exact fun line hline => (h line hline).noTable

theorem readBack_define {name : String} (hname : isName name = true) {value : Expr Float}
    (hvalue : value.Tidy) : (Item.define name value).ReadBack where
  oneLine := by
    have hbreak : '\n' ∉ name.toList ∧ '\n' ∉ value.text.toList :=
      ⟨(Text.plain_of_isName hname).not_mem (by decide), (code_expr hvalue).not_mem (by decide)⟩
    rw [Item.lines, List.forall_mem_singleton]
    simp [hbreak]
  macros := by
    rw [Item.lines, List.map_singleton, List.filterMap_cons, macro?_define hname]
    rfl
  tables := by
    have hhead : table? ("#define " ++ name ++ " " ++ value.text).toList = none :=
      table?_of_head (c := '#') (by simp) (by decide)
    rw [Item.lines, List.map_singleton, List.filterMap_cons, hhead]
    rfl

theorem readBack_registers {name : String} (hname : isName name = true) (base : Nat) :
    (Item.registers name base).ReadBack where
  oneLine := by
    have hbreak : '\n' ∉ name.toList := (Text.plain_of_isName hname).not_mem (by decide)
    have hbase : '\n' ∉ (toString base).toList := Text.not_mem_toString (by decide) base
    rw [Item.lines, List.forall_mem_singleton]
    simpa [padName, hbreak] using hbase
  macros := by
    rw [Item.lines, List.map_singleton, List.filterMap_cons, macro?_registers hname]
    rfl
  tables := by
    have hhead : table? ("#define " ++ padName name ++ " (comp->r + " ++ toString base ++
        ")").toList = none :=
      table?_of_head (c := '#') (by simp) (by decide)
    rw [Item.lines, List.map_singleton, List.filterMap_cons, hhead]
    rfl

theorem readBack_references {name : String} (hname : isName name = true) (values : List Nat) :
    (Item.references name values).ReadBack := by
  have hlines : (Item.references name values).lines =
      ["static const fmi2ValueReference " ++ name ++ declarator values] := by
    simp only [Item.lines, declarator, String.append_assoc]
  have hcode : Only isCode ("static const fmi2ValueReference " ++ name ++ declarator values) := by
    have hindices : Only isCode (indices values) :=
      (only_indices values).mono fun _ => isCode_of_isEntry
    have hmarks : Only isCode "[" ∧ Only isCode "] = \x7b " ∧ Only isCode " \x7d;" :=
    ⟨Text.only_chars (by decide), Text.only_chars (by decide), Text.only_chars (by decide)⟩
    have hname := code_of_plain (Text.plain_of_isName hname)
    have hstart : Only isCode "static const fmi2ValueReference " := Text.only_chars (by decide)
    simp only [Text.only_append, declarator, hindices, code_toString, hmarks, hname, hstart,
      and_self]
  have hopen : isNameRest '[' = false := by decide
  have htable := table?_references hname (declarator values) (by simp [declarator, hopen])
  refine ⟨?_, ?_, ?_⟩ <;> rw [hlines]
  · rw [List.forall_mem_singleton]
    exact hcode.not_mem (by decide)
  · rw [List.map_singleton, List.filterMap_cons, macro?_of_code hcode]
    rfl
  · rw [List.map_singleton, List.filterMap_cons, htable]
    rfl

theorem readBack_item {item : Item Float} (h : item.Tidy) : item.ReadBack := by
  cases item with
  | blank =>
    refine readBack_of_quiet ?_ rfl rfl
    rw [Item.lines, List.forall_mem_singleton]
    exact quiet_ofList (by decide)
  | note line =>
    refine readBack_of_quiet ?_ rfl rfl
    rw [Item.lines, List.forall_mem_singleton]
    have hopen : Only isCode "/* " := Text.only_chars (by decide)
    have hclose : Only isCode " */" := Text.only_chars (by decide)
    exact quiet_of_start (c := '/') (Text.only_append.2 ⟨Text.only_append.2 ⟨hopen, h⟩, hclose⟩)
      (by decide) (by simp)
  | remark lines => exact readBack_of_quiet (quiet_remark h) rfl rfl
  | header file => exact readBack_of_quiet (quiet_header h) rfl rfl
  | define name value => exact readBack_define h.1 h.2
  | registers name base => exact readBack_registers h base
  | linkageOpen =>
    refine readBack_of_quiet ?_ rfl rfl
    rw [Item.lines, List.forall_mem_cons, List.forall_mem_cons, List.forall_mem_singleton]
    exact ⟨quiet_ofList (by decide), quiet_ofList (by decide),
      quiet_ofList (by decide)⟩
  | linkageClose =>
    refine readBack_of_quiet ?_ rfl rfl
    rw [Item.lines, List.forall_mem_cons, List.forall_mem_cons, List.forall_mem_singleton]
    exact ⟨quiet_ofList (by decide), quiet_ofList (by decide),
      quiet_ofList (by decide)⟩
  | instanceType slots => exact readBack_of_quiet (quiet_instanceLines slots) rfl rfl
  | references name values => exact readBack_references h values
  | matrix name grid => exact readBack_of_quiet (quiet_matrix h grid) rfl rfl
  | vector name values => exact readBack_of_quiet (quiet_vector h values) rfl rfl
  | function f => exact readBack_of_quiet (quiet_function h) rfl rfl
  | passage lines => exact readBack_of_quiet h rfl rfl

/-! ## The pieces of a unit -/

section Unit

open Hooks

theorem tidy_innerProduct : (innerProduct : Function Float).Tidy := by
  decide

theorem tidy_updateDerivatives (l : Layout) : (updateDerivatives l : Function Float).Tidy := by
  unfold updateDerivatives
  generalize decide (0 < l.nu) = hasInputs
  cases hasInputs <;> decide

theorem tidy_updateStates : (updateStates : Function Float).Tidy := by
  decide

theorem tidy_updateOutputs (l : Layout) : (updateOutputs l : Function Float).Tidy := by
  unfold updateOutputs
  split
  · decide
  · generalize decide (0 < l.nx) = hasStates
    generalize decide (0 < l.nu) = hasInputs
    cases hasStates <;> cases hasInputs <;> decide

theorem tidy_resets : (copyX0toX : Function Float).Tidy ∧ (resetX : Function Float).Tidy ∧
    (copyU0toU : Function Float).Tidy ∧ (resetU : Function Float).Tidy := by
  decide

theorem tidy_evaluate (l : Layout) : (evaluate l : Function Float).Tidy := by
  unfold evaluate
  generalize decide (0 < l.nx) = hasStates
  generalize decide (0 < l.ny) = hasOutputs
  generalize (l.nx == 0 && l.ny == 0) = empty
  cases hasStates <;> cases hasOutputs <;> cases empty <;> decide

theorem forall_onlyIf {β : Type} {P : β → Prop} {condition : Bool} {xs : List β}
    (h : ∀ x ∈ xs, P x) : ∀ x ∈ onlyIf condition xs, P x := by
  cases condition with
  | false => exact List.forall_mem_nil P
  | true => exact h

theorem tidy_withBlank {f : Function Float} (h : f.Tidy) : ∀ item ∈ withBlank f, item.Tidy := by
  rw [withBlank, List.forall_mem_cons, List.forall_mem_singleton]
  exact ⟨h, trivial⟩

theorem tidy_hooks (l : Layout) : ∀ item ∈ (items l : List (Item Float)), item.Tidy := by
  obtain ⟨hcopyX, hresetX, hcopyU, hresetU⟩ := tidy_resets
  unfold items
  simp only [List.forall_mem_append]
  refine ⟨⟨⟨⟨⟨forall_onlyIf (tidy_withBlank tidy_innerProduct), forall_onlyIf ?_⟩,
    tidy_withBlank (tidy_updateOutputs l)⟩, forall_onlyIf ?_⟩, forall_onlyIf ?_⟩,
    tidy_withBlank (tidy_evaluate l)⟩
  · rw [List.forall_mem_append, List.forall_mem_cons]
    exact ⟨tidy_withBlank (tidy_updateDerivatives l), by rw [Item.Tidy]; decide,
      tidy_withBlank tidy_updateStates⟩
  · exact List.forall_mem_append.2 ⟨tidy_withBlank hcopyX, tidy_withBlank hresetX⟩
  · exact List.forall_mem_append.2 ⟨tidy_withBlank hcopyU, tidy_withBlank hresetU⟩

theorem tidy_opening (l : Layout) (id : Identity) (step : Float) :
    ∀ item ∈ opening l id step, item.Tidy := by
  have hname : Only isCode id.name := code_of_plain (Text.plain_of_isName id.isName)
  have hguid : Only isCode id.occasion.guid.text := code_of_plain (Text.plain_guid _)
  have htime : Only isCode id.timestamp := code_of_plain (Text.plain_timestamp _)
  have horigin : (origin id : Item Float).Tidy := by
    simp only [origin, Item.Tidy, List.forall_mem_cons]
    exact ⟨by decide, Text.only_append.2 ⟨Text.only_chars (by decide), hname⟩,
      Text.only_append.2 ⟨Text.only_chars (by decide), hguid⟩,
      Text.only_append.2 ⟨Text.only_chars (by decide), htime⟩, List.forall_mem_nil _⟩
  simp only [opening, List.forall_mem_cons]
  refine ⟨horigin, trivial, ?_, trivial, trivial, trivial, ⟨by decide, hname⟩, ⟨by decide, hguid⟩,
    trivial, ⟨by decide, trivial⟩, ⟨by decide, trivial⟩, ⟨by decide, trivial⟩,
    ⟨by decide, trivial⟩, trivial, ⟨by decide, trivial⟩, ⟨by decide, trivial⟩, trivial,
    List.forall_mem_nil _⟩
  rw [Item.Tidy]
  decide

theorem tidy_instances (l : Layout) : ∀ item ∈ (instances l : List (Item Float)), item.Tidy := by
  have hcategories : Quiet ("static const fmi2String logCategoriesNames[] = " ++
      "\x7b\"logAll\", \"logError\", \"logFmiCall\", \"logEvent\"\x7d;").toList := by
    refine quiet_of_code (Text.only_append.2 ⟨Text.only_chars (by decide), by decide⟩) ?_
    rw [String.toList_append]
    exact table?_append 17 (by decide) _
  simp only [instances, List.forall_mem_cons]
  refine ⟨trivial, trivial, ?_, trivial, List.forall_mem_nil _⟩
  rw [Item.Tidy, List.forall_mem_cons, List.forall_mem_singleton]
  exact ⟨hcategories, quiet_ofList (by decide)⟩

theorem isName_blockMacro (b : Block) : isName (blockMacro b) = true := by
  cases b <;> decide

theorem tidy_registerMacros (l : Layout) :
    ∀ item ∈ (registerMacros l : List (Item Float)), item.Tidy := by
  intro item hitem
  obtain ⟨b, -, hitem⟩ := List.mem_flatMap.1 hitem
  refine forall_onlyIf ?_ item hitem
  rw [List.forall_mem_singleton]
  exact isName_blockMacro b

theorem isName_table (b : Block) : isName ("vrs_" ++ b.name) = true := by
  cases b <;> decide

theorem tidy_referenceTables (l : Layout) :
    ∀ item ∈ (referenceTables l : List (Item Float)), item.Tidy := by
  intro item hitem
  obtain ⟨b, -, hitem⟩ := List.mem_flatMap.1 hitem
  refine forall_onlyIf ?_ item hitem
  rw [List.forall_mem_singleton]
  exact isName_table b

theorem tidy_coefficientTables (m : Model.StateSpace Float) :
    ∀ item ∈ coefficientTables m, item.Tidy := by
  unfold coefficientTables
  simp only [List.forall_mem_append]
  refine ⟨⟨⟨⟨⟨?_, ?_⟩, ?_⟩, ?_⟩, ?_⟩, ?_⟩ <;>
    refine forall_onlyIf ?_ <;>
    rw [List.forall_mem_singleton, Item.Tidy] <;>
    decide

theorem tidy_unit (m : Model.StateSpace Float) (id : Identity) (step : Float) :
    ∀ item ∈ unit m id step, item.Tidy := by
  have hfile : (Item.header skeletonImplementation : Item Float).Tidy := by
    rw [Item.Tidy]
    decide
  unfold unit
  simp only [List.forall_mem_append, List.forall_mem_cons]
  exact ⟨⟨⟨⟨⟨⟨tidy_opening m.layout id step, tidy_instances m.layout⟩,
    tidy_registerMacros m.layout⟩, trivial, tidy_referenceTables m.layout⟩,
    trivial, tidy_coefficientTables m⟩, trivial, quiet_support, trivial, tidy_hooks m.layout⟩,
    hfile, trivial, trivial, List.forall_mem_nil _⟩

end Unit

/-! ## Reading a unit -/

/-- The lines of the text of tidy pieces are the lines of the pieces. -/
theorem cutAt_lines {items : List (Item Float)} (h : ∀ item ∈ items, item.Tidy) :
    Text.cutAt '\n' (Render.textOf (items.flatMap Item.lines)).toList =
      (items.flatMap Item.lines).map String.toList ++ [[]] := by
  refine cutAt_textOf fun line hline => ?_
  obtain ⟨item, hitem, hline⟩ := List.mem_flatMap.1 hline
  exact (readBack_item (h item hitem)).oneLine line hline

/-- What is read from tidy pieces, by a reader of lines that gives for each piece what it holds. -/
theorem filterMap_lines {β : Type} {reader : List Char → Option β} {held : Item Float → List β}
    (hread : ∀ item : Item Float, item.Tidy →
      (item.lines.map String.toList).filterMap reader = held item)
    (hempty : reader [] = none) {items : List (Item Float)} (h : ∀ item ∈ items, item.Tidy) :
    (Text.cutAt '\n' (Render.textOf (items.flatMap Item.lines)).toList).filterMap reader =
      items.flatMap held := by
  have hlast : [[]].filterMap reader = [] := by simp [hempty]
  rw [cutAt_lines h, List.filterMap_append, hlast, List.append_nil, List.map_flatMap,
    List.filterMap_flatMap, List.flatMap_def, List.flatMap_def,
    List.map_congr_left fun item hitem => hread item (h item hitem)]

theorem macros_source (m : Model.StateSpace Float) (id : Identity) (step : Float) :
    macros (Render.textOf (Render.sourceLines m id step)) =
      (unit m id step).flatMap Item.macros :=
  filterMap_lines (fun _ h => (readBack_item h).macros) rfl (tidy_unit m id step)

theorem tables_source (m : Model.StateSpace Float) (id : Identity) (step : Float) :
    tables (Render.textOf (Render.sourceLines m id step)) =
      (unit m id step).flatMap Item.tables :=
  filterMap_lines (fun _ h => (readBack_item h).tables) rfl (tidy_unit m id step)

end Source
end LtiUnit
