import LtiUnit.Proofs.SourceContents
import LtiUnit.Proofs.TableEntries

/-!
# LtiUnit.Proofs.UnitEntries

The entries of each piece of a translation unit, and so those of a whole unit.

* `reads_item` — from the lines of a legible piece its entries are read.
* `legible_unit` — all pieces of the unit of a model are legible.
* `entries?_source` — the entries of the unit of a model.
-/

namespace LtiUnit
namespace Source

open Model (StateSpace)

/-! ## Lines that are written out -/

/-- Some lines have a property whose first ones are given by their characters, last one first.
Characters that are spelled out are quicker to compute with than those of a text. -/
def Spelled (P : List Char → Prop) (acc : List (List Char)) (lines : List String) : Prop :=
  P (acc.reverse.flatMap (· ++ ['\n']) ++ chars lines)

section Spelled

variable {P : List Char → Prop} {acc : List (List Char)} {lines : List String}

theorem Spelled.holds (h : Spelled P [] lines) : P (chars lines) := h

theorem spelled_nil (h : P (acc.reverse.flatMap (· ++ ['\n']))) : Spelled P acc [] := by
  rwa [Spelled, chars_nil, List.append_nil]

theorem spelled_cons {cs : List Char} (h : Spelled P (cs :: acc) lines) :
    Spelled P acc (String.ofList cs :: lines) := by
  simpa [Spelled] using h

end Spelled

/-! ## Directives and comments -/

theorem reads_directive {cs : List Char} {ts : List Lexeme} (hts : .lineBreak ∉ ts)
    (hcs : Scans cs (.mark '#' :: (ts ++ [Lexeme.lineBreak]))) : Reads cs [.ofDirective ts] :=
  ⟨_, _, hcs, gathers_directive hts, rfl⟩

theorem reads_header {file : String} (h : Text.Only isQuotable file) :
    Reads (chars (Item.header file : Item Float).lines)
      [.ofDirective [.word "include", .quoted]] := by
  have htext : chars (Item.header file : Item Float).lines = '#' :: ("include".toList ++ ' ' ::
      '"' :: (file.toList ++ '"' :: '\n' :: [])) := by
    simp [Item.lines]
  refine reads_directive (by decide) ?_
  rw [htext]
  exact scans_mark rfl (scans_name (by decide) rfl (scans_blank
    (scans_quoted h (scans_lineBreak scans_nil))))

theorem reads_define {name : String} {value : Expr Float} (hname : isName name = true)
    (hvalue : value.isLegible = true) : Reads (chars (Item.define name value).lines)
      [.ofDirective (.word "define" :: .word name :: value.lexemes)] := by
  have hlines : .lineBreak ∉ Lexeme.word "define" :: .word name :: value.lexemes := by
    intro h
    have hmem : .lineBreak ∈ value.lexemes := by simpa using h
    exact absurd (outer_expr value _ hmem) (by decide)
  have htext : chars (Item.define name value).lines = '#' :: ("define".toList ++ ' ' ::
      (name.toList ++ ' ' :: (value.text.toList ++ '\n' :: []))) := by
    simp [Item.lines]
  refine reads_directive hlines ?_
  rw [htext]
  exact scans_mark rfl (scans_name (by decide) rfl (scans_blank (scans_name hname rfl
    (scans_blank (stands_expr hvalue _ _ _ rfl (scans_lineBreak scans_nil))))))

/-- The lexemes of the macro for the registers from `base` on. -/
def registersLexemes (name : String) (base : Nat) : List Lexeme :=
  [.word "define", .word name, .mark '(', .word "comp", .mark '-', .mark '>', .word "r", .mark '+',
    .number (toString base), .mark ')']

theorem reads_registers {name : String} (hname : isName name = true) (base : Nat) :
    Reads (chars (Item.registers name base : Item Float).lines)
      [.ofDirective (registersLexemes name base)] := by
  have hclosed : Scans ('(' :: ("comp".toList ++ '-' :: '>' :: ("r".toList ++ ' ' :: '+' :: ' ' ::
      ((toString base).toList ++ ')' :: '\n' :: []))))
      [.mark '(', .word "comp", .mark '-', .mark '>', .word "r", .mark '+',
        .number (toString base), .mark ')', .lineBreak] :=
    scans_mark rfl (scans_name (by decide) rfl (scans_mark rfl (scans_mark rfl
      (scans_name (by decide) rfl (scans_blank (scans_mark rfl (scans_blank
        (scans_number (numberText_toString base) rfl (scans_mark rfl
          (scans_lineBreak scans_nil))))))))))
  have hpadded {k : Nat} {cs : List Char} {ts : List Lexeme} (hcs : Scans cs ts) :
      Scans (List.replicate k ' ' ++ cs) ts := by
    induction k with
    | zero => exact hcs
    | succ k ih => exact scans_blank ih
  have hblanks (k : Nat) (cs : List Char) :
      List.replicate k ' ' ++ ' ' :: cs = ' ' :: (List.replicate k ' ' ++ cs) := by
    rw [← List.cons_append, ← List.replicate_succ, List.replicate_succ', List.append_assoc]
    rfl
  have htext : chars (Item.registers name base : Item Float).lines = '#' :: ("define".toList ++
      ' ' :: (name.toList ++ ' ' :: (List.replicate (4 - name.length) ' ' ++ '(' ::
        ("comp".toList ++ '-' :: '>' :: ("r".toList ++ ' ' :: '+' :: ' ' ::
          ((toString base).toList ++ ')' :: '\n' :: [])))))) := by
    rw [← hblanks]
    simp [Item.lines, padName]
  refine reads_directive (by simp [registersLexemes]) ?_
  rw [htext]
  exact scans_mark rfl (scans_name (by decide) rfl (scans_blank (scans_name hname rfl
    (scans_blank (hpadded hclosed)))))

theorem reads_of_lineBreak {cs : List Char} (h : Scans cs [.lineBreak]) : Reads cs [] :=
  ⟨_, [], h, rfl, rfl⟩

theorem reads_note {line : String} (h : '/' ∉ line.toList) :
    Reads (chars (Item.note line : Item Float).lines) [] := by
  have htext : chars (Item.note line : Item Float).lines =
      '/' :: '*' :: ((' ' :: (line.toList ++ [' '])) ++ '*' :: '/' :: '\n' :: []) := by
    simp [Item.lines]
  refine reads_of_lineBreak ?_
  rw [htext]
  exact scans_comment (by simpa using h) (scans_lineBreak scans_nil)

theorem reads_remark {lines : List String} (h : ∀ line ∈ lines, '/' ∉ line.toList) :
    Reads (chars (Item.remark lines : Item Float).lines) [] := by
  have hinner : '/' ∉ '\n' :: (chars (lines.map (" * " ++ ·)) ++ [' ']) := by
    have hlines : '/' ∉ chars (lines.map (" * " ++ ·)) := by
      simpa [chars, List.mem_flatMap] using h
    simpa using hlines
  have htext : chars (Item.remark lines : Item Float).lines =
      '/' :: '*' :: (('\n' :: (chars (lines.map (" * " ++ ·)) ++ [' '])) ++
        '*' :: '/' :: '\n' :: []) := by
    simp [Item.lines]
  refine reads_of_lineBreak ?_
  rw [htext]
  exact scans_comment hinner (scans_lineBreak scans_nil)

/-! ## The type of instances -/

/-- The lexemes of a field and of the line break after it. -/
def fieldLexemes (type : List String) (declarator : List Lexeme) : List Lexeme :=
  type.map Lexeme.word ++ declarator ++ [Lexeme.mark ';', .lineBreak]

/-- The lexemes of the fields of an instance after the registers. -/
def restFields : List Lexeme :=
  fieldLexemes ["fmi2Real", "time"] [] ++
  fieldLexemes ["fmi2Char", "instanceName"] (boundLexemes [256]) ++
  fieldLexemes ["fmi2Type", "type"] [] ++
  fieldLexemes ["fmi2String", "GUID"] [] ++
  fieldLexemes ["const", "fmi2CallbackFunctions"] [.mark '*', .word "functions"] ++
  fieldLexemes ["fmi2Boolean", "loggingOn"] [] ++
  fieldLexemes ["fmi2Boolean", "logCategories"]
    [.mark '[', .word "NUMBER_OF_CATEGORIES", .mark ']'] ++
  fieldLexemes ["fmi2ComponentEnvironment", "componentEnvironment"] [] ++
  fieldLexemes ["fmi2Boolean", "isDirtyValues"] []

/-- The lexemes of the fields of an instance. -/
def instanceFields (slots : Nat) : List Lexeme :=
  .lineBreak :: (fieldLexemes ["ModelState", "state"] [] ++
    (fieldLexemes ["fmi2Real", "r"] (boundLexemes [slots]) ++ restFields))

theorem scans_instanceLines (slots : Nat) : Scans (chars (instanceLines slots))
    ([Lexeme.word "typedef", .word "struct"] ++ Lexeme.mark '\x7b' :: (instanceFields slots ++
      Lexeme.mark '\x7d' :: ([Lexeme.word "ModelInstance"] ++ [Lexeme.mark ';', .lineBreak]))) := by
  have hfirst : Scans (chars ((instanceLines 0).take 2))
      (.word "typedef" :: .word "struct" :: .mark '\x7b' :: .lineBreak ::
        fieldLexemes ["ModelState", "state"] []) := by
    apply Spelled.holds (P := fun cs => Scans cs _)
    repeat refine spelled_cons ?_
    refine spelled_nil ?_
    unfold Scans
    decide +kernel
  have hlast : Scans (chars ((instanceLines 0).drop 3))
      (restFields ++ [Lexeme.mark '\x7d', .word "ModelInstance", .mark ';', .lineBreak]) := by
    apply Spelled.holds (P := fun cs => Scans cs _)
    repeat refine spelled_cons ?_
    refine spelled_nil ?_
    unfold Scans
    decide +kernel
  have hindent : Text.Only (· == ' ') "    " := by decide
  have hslots := scans_indent hindent (scans_name (x := "fmi2Real") (by decide) rfl
    (scans_blank (scans_name (x := "r") (by decide) rfl (scans_bound slots (scans_ended hlast)))))
  have hlines : instanceLines slots = (instanceLines 0).take 2 ++
      ("    fmi2Real r[" ++ toString slots ++ "];") :: (instanceLines 0).drop 3 := rfl
  have htext : chars (instanceLines slots) = chars ((instanceLines 0).take 2) ++ ("    ".toList ++
      ("fmi2Real".toList ++ ' ' :: ("r".toList ++ '[' :: ((toString slots).toList ++ ']' ::
        ';' :: '\n' :: chars ((instanceLines 0).drop 3))))) := by
    rw [hlines, chars_append, chars_cons]
    simp
  have hscan := hfirst.append hslots
  rw [← htext] at hscan
  simpa [instanceFields, fieldLexemes, boundLexemes] using hscan

/-- The entry of the type of instances. -/
def instanceEntry (slots : Nat) : Entry :=
  ⟨⟨.other, none, []⟩, [[.count slots], [.count 256], [.named "NUMBER_OF_CATEGORIES"]], none⟩

/-- The declaration of the type of instances. -/
def instanceType (slots : Nat) : List Lexeme :=
  [Lexeme.word "typedef", .word "struct"] ++ Lexeme.mark '\x7b' ::
    (visible (instanceFields slots) ++
      Lexeme.mark '\x7d' :: ([Lexeme.word "ModelInstance"] ++ [Lexeme.mark ';']))

theorem entry_instanceType (slots : Nat) :
    Entry.ofDeclaration (instanceType slots) = instanceEntry slots := by
  have hmentions : mentions (instanceType slots) = [] := by
    have hwords : wordsOf (instanceType slots) = wordsOf (instanceType 0) := rfl
    rw [mentions, hwords]
    decide
  have hlength (n : Nat) :
      ((Text.decimal? (toString n)).map Bound.count).getD .other = .count n := by
    rw [Text.decimal?_toString]
    rfl
  have hbounds : arrays (instanceType slots) =
      [[((Text.decimal? (toString slots)).map Bound.count).getD .other],
        [((Text.decimal? (toString 256)).map Bound.count).getD .other],
        [.named "NUMBER_OF_CATEGORIES"]] := rfl
  have harrays : arrays (instanceType slots) = (instanceEntry slots).arrays := by
    rw [hbounds, hlength, hlength]
    rfl
  have hother : Entry.ofDeclaration (instanceType slots) =
      ⟨⟨.other, none, mentions (instanceType slots)⟩, arrays (instanceType slots), none⟩ := rfl
  rw [hother, hmentions, harrays]
  rfl

theorem reads_instanceLines (slots : Nat) :
    Reads (chars (instanceLines slots)) [instanceEntry slots] := by
  have hnested : Nested (instanceFields slots) := nested_of_inner (List.all_eq_true.1 rfl)
  have hhead : ∀ t ∈ [Lexeme.word "typedef", .word "struct"], t.isOuter = true := by decide
  have hgather := gathers_data [.word "ModelInstance"] hhead (by decide) (by decide) hnested
    (by decide)
  refine ⟨_, _, scans_instanceLines slots, hgather, ?_⟩
  exact congrArg (fun e => [e]) (entry_instanceType slots)

/-! ## Fixed lines -/

/-- An entry that declares no array. -/
def Entry.bare (m : Mention) : Entry := ⟨m, [], none⟩

/-- What some entries mention, if none of them declares an array. -/
def mentioned? (es : List Entry) : Option (List Mention) :=
  if es.all fun e => e.arrays.isEmpty && e.initializer.isNone then some (es.map Entry.toMention)
  else none

theorem eq_bare {es : List Entry} {ms : List Mention} (h : mentioned? es = some ms) :
    es = ms.map Entry.bare := by
  simp only [mentioned?, Option.ite_none_right_eq_some, List.all_eq_true, Option.some_inj] at h
  obtain ⟨hbare, rfl⟩ := h
  rw [List.map_map]
  refine (List.map_id es).symm.trans (List.map_congr_left fun e he => ?_)
  have h := hbare e he
  simp only [Bool.and_eq_true, List.isEmpty_iff, Option.isNone_iff_eq_none] at h
  obtain ⟨m, arrays, initializer⟩ := e
  obtain ⟨rfl, rfl⟩ := h
  rfl

/-- From some characters entries without arrays are read, which mention what is given. -/
def Mentions (ms : List Mention) (cs : List Char) : Prop :=
  (entriesOf? cs).bind mentioned? = some ms

instance (ms : List Mention) (cs : List Char) : Decidable (Mentions ms cs) :=
  inferInstanceAs (Decidable (_ = _))

theorem reads_of_mentions {ms : List Mention} {cs : List Char} (h : Mentions ms cs) :
    Reads cs (ms.map Entry.bare) := by
  obtain ⟨es, hes, hms⟩ := Option.bind_eq_some_iff.1 h
  rw [← eq_bare hms]
  exact entriesOf?_eq_some_iff.1 hes

/-- What is mentioned where nothing is defined and no watched name occurs. -/
def silent : Mention := ⟨.other, none, []⟩

def supportMentions : List Mention :=
  [⟨.define, some "FILTERED_LOG", []⟩, silent, ⟨.define, some "max", []⟩, silent] ++
    ["isCategoryLogged", "isInvalidState", "isNullPtr", "isVROutOfRange", "isInvalidNumber",
      "unsupportedFunction"].map fun x => ⟨.routine, some x, []⟩

set_option maxRecDepth 10000 in
theorem mentions_support : Mentions supportMentions (chars support) := by
  apply Spelled.holds
  unfold support
  repeat refine spelled_cons ?_
  refine spelled_nil ?_
  decide

theorem mentions_linkage :
    Mentions [silent, silent] (chars (Item.linkageOpen : Item Float).lines) ∧
      Mentions [silent, silent] (chars (Item.linkageClose : Item Float).lines) := by
  refine ⟨?_, ?_⟩
  all_goals
    apply Spelled.holds
    repeat refine spelled_cons ?_
    refine spelled_nil ?_
    decide

/-- The lines of the names of the categories and of the one instance. -/
def instanceLexemes : List Lexeme :=
  [.word "static", .word "const", .word "fmi2String", .word "logCategoriesNames", .mark '[',
    .mark ']', .mark '=', .mark '\x7b', .quoted, .mark ',', .quoted, .mark ',', .quoted, .mark ',',
    .quoted, .mark '\x7d', .mark ';', .lineBreak, .word "static", .word "ModelInstance",
    .word "instance", .mark ';', .lineBreak]

def instanceEntries : List Entry :=
  [⟨⟨.data, some "logCategoriesNames", []⟩, [[.omitted]],
      some (.list [.value, .value, .value, .value])⟩,
    ⟨⟨.data, some "instance", []⟩, [], none⟩]

theorem reads_passage : Reads (chars ["static const fmi2String logCategoriesNames[] = " ++
    "\x7b\"logAll\", \"logError\", \"logFmiCall\", \"logEvent\"\x7d;",
    "static ModelInstance instance;"]) instanceEntries := by
  have hscan : Scans (chars ["static const fmi2String logCategoriesNames[] = " ++
      "\x7b\"logAll\", \"logError\", \"logFmiCall\", \"logEvent\"\x7d;",
      "static ModelInstance instance;"]) instanceLexemes := by
    rw [chars_cons, chars_cons, chars_nil, String.toList_append]
    rw [String.toList_ofList, String.toList_ofList, String.toList_ofList]
    unfold Scans
    decide
  refine ⟨_, _, hscan, rfl, ?_⟩
  rfl

/-! ## Pieces -/

/-- The entry of a function. -/
def Function.entry (f : Function Float) : Entry := .ofDeclaration (visible f.lexemes)

theorem reads_function {f : Function Float} (h : f.isLegible = true) :
    Reads (chars f.lines) [f.entry] :=
  ⟨_, _, scans_function h, gathers_lexemes f, rfl⟩

/-- The entries of a piece. -/
def Item.entries : Item Float → List Entry
  | .blank | .note _ | .remark _ => []
  | .header _ => [.ofDirective [.word "include", .quoted]]
  | .define name value => [.ofDirective (.word "define" :: .word name :: value.lexemes)]
  | .registers name base => [.ofDirective (registersLexemes name base)]
  | .linkageOpen | .linkageClose => [silent, silent].map Entry.bare
  | .instanceType slots => [instanceEntry slots]
  | .references name values => [.table name [values.length] (.row values)]
  | .matrix name grid =>
    [.table name [grid.height, grid.cols] (.list (grid.rows.map Initializer.row))]
  | .vector name values => [.table name [values.length] (.row values)]
  | .function f => [f.entry]
  | .passage lines => (entriesOf? (chars lines)).getD []

/-- Whether a piece can be read by its lexemes: its names are names, its comments end where they
should and its constants are finite. -/
def Item.Legible : Item Float → Prop
  | .blank | .linkageOpen | .linkageClose | .instanceType _ => True
  | .note line => '/' ∉ line.toList
  | .remark lines => ∀ line ∈ lines, '/' ∉ line.toList
  | .header file => Text.Only isQuotable file
  | .define name value => isName name = true ∧ value.isLegible = true
  | .registers name _ | .references name _ => isName name = true
  | .matrix name grid => isName name = true ∧ ∀ x ∈ grid.entries, x.isFinite = true
  | .vector name values => isName name = true ∧ ∀ x ∈ values, x.isFinite = true
  | .function f => f.isLegible = true
  | .passage lines => ∃ es, Reads (chars lines) es

theorem reads_item {item : Item Float} (h : item.Legible) :
    Reads (chars item.lines) item.entries := by
  cases item with
  | blank => exact reads_of_lineBreak rfl
  | note line => exact reads_note h
  | remark lines => exact reads_remark h
  | header file => exact reads_header h
  | define name value => exact reads_define h.1 h.2
  | registers name base => exact reads_registers h base
  | linkageOpen => exact reads_of_mentions mentions_linkage.1
  | linkageClose => exact reads_of_mentions mentions_linkage.2
  | instanceType slots => exact reads_instanceLines slots
  | references name values => exact reads_references h values
  | matrix name grid =>
    exact reads_matrix h.1 grid fun row hrow x hx => h.2 x (List.mem_flatten_of_mem hrow hx)
  | vector name values => exact reads_vector h.1 h.2
  | function f => exact reads_function h
  | passage lines =>
    obtain ⟨es, hes⟩ := h
    rw [Item.entries, entriesOf?_eq_some_iff.2 hes]
    exact hes

theorem reads_items {items : List (Item Float)} (h : ∀ item ∈ items, item.Legible) :
    Reads (chars (items.flatMap Item.lines)) (items.flatMap Item.entries) := by
  induction items with
  | nil => exact reads_nil
  | cons item items ih =>
    obtain ⟨hitem, hitems⟩ := List.forall_mem_cons.1 h
    rw [List.flatMap_cons, List.flatMap_cons, chars_append]
    exact (reads_item hitem).append (ih hitems)

/-! ## The pieces of a unit -/

theorem not_mem_slash {s : String} (h : Text.Only Text.isPlain s) : '/' ∉ s.toList :=
  h.not_mem (by decide)

theorem quotable_of_plain {s : String} (h : Text.Only Text.isPlain s) : Text.Only isQuotable s :=
  h.mono fun c hc => by
    simp only [isQuotable, Bool.and_eq_true, bne_iff_ne, ne_eq]
    constructor <;> rintro rfl <;> revert hc <;> decide

section Hooks

open Hooks

/-- The functions that the layout has a part in. -/
theorem legible_laidOut (l : Layout) :
    (updateDerivatives l : Function Float).isLegible = true ∧
      (updateOutputs l : Function Float).isLegible = true ∧
      (evaluate l : Function Float).isLegible = true := by
  unfold updateDerivatives updateOutputs evaluate
  generalize decide (0 < l.nx) = hasStates
  generalize decide (0 < l.nu) = hasInputs
  generalize decide (0 < l.ny) = hasOutputs
  generalize (l.nx == 0 && l.ny == 0) = empty
  refine ⟨?_, ?_, ?_⟩
  · cases hasInputs <;> decide +kernel
  · split
    · decide +kernel
    · cases hasStates <;> cases hasInputs <;> decide +kernel
  · cases hasStates <;> cases hasOutputs <;> cases empty <;> decide +kernel

theorem legible_withBlank {f : Function Float} (h : f.isLegible = true) :
    ∀ item ∈ withBlank f, item.Legible := by
  rw [withBlank, List.forall_mem_cons, List.forall_mem_singleton]
  exact ⟨h, trivial⟩

theorem legible_hooks (l : Layout) : ∀ item ∈ (items l : List (Item Float)), item.Legible := by
  have hnote : (Item.note "Forward Euler; no substep is longer than STEP_SIZE." :
      Item Float).Legible := by
    rw [Item.Legible]
    decide
  obtain ⟨hderivatives, houtputs, hevaluate⟩ := legible_laidOut l
  unfold items
  simp only [List.forall_mem_append]
  refine ⟨⟨⟨⟨⟨forall_onlyIf (legible_withBlank (by decide)), forall_onlyIf ?_⟩,
    legible_withBlank houtputs⟩, forall_onlyIf ?_⟩, forall_onlyIf ?_⟩,
    legible_withBlank hevaluate⟩
  · rw [List.forall_mem_append, List.forall_mem_cons]
    exact ⟨legible_withBlank hderivatives, hnote,
      legible_withBlank (by decide)⟩
  · exact List.forall_mem_append.2
      ⟨legible_withBlank (by decide), legible_withBlank (by decide)⟩
  · exact List.forall_mem_append.2
      ⟨legible_withBlank (by decide), legible_withBlank (by decide)⟩

end Hooks

theorem legible_opening (l : Layout) (id : Identity) {step : Float} (hstep : step.isFinite = true) :
    ∀ item ∈ opening l id step, item.Legible := by
  have hguid := Text.plain_guid id.occasion.guid
  have horigin : (origin id : Item Float).Legible := by
    simp only [origin, Item.Legible, List.forall_mem_cons, String.toList_append, List.mem_append,
      not_or]
    exact ⟨by decide,
      ⟨by decide, not_mem_slash (Text.plain_of_isName id.isName)⟩,
      ⟨by decide, not_mem_slash hguid⟩,
      ⟨by decide, not_mem_slash (Text.plain_timestamp _)⟩, List.forall_mem_nil _⟩
  have hheader : (Item.header skeletonHeader : Item Float).Legible := by
    rw [Item.Legible]
    decide
  have hquoted : (Expr.quoted id.occasion.guid.text : Expr Float).isLegible = true :=
    List.all_eq_true.2 (quotable_of_plain hguid)
  simp only [opening, List.forall_mem_cons]
  exact ⟨horigin, trivial, hheader, trivial, trivial, trivial, ⟨by decide, id.isName⟩,
    ⟨by decide, hquoted⟩, trivial, ⟨by decide, rfl⟩, ⟨by decide, rfl⟩, ⟨by decide, rfl⟩,
    ⟨by decide, rfl⟩, trivial, ⟨by decide, hstep⟩, ⟨by decide, rfl⟩, trivial,
    List.forall_mem_nil _⟩

theorem legible_instances (l : Layout) :
    ∀ item ∈ (instances l : List (Item Float)), item.Legible := by
  simp only [instances, List.forall_mem_cons]
  exact ⟨trivial, trivial, ⟨_, reads_passage⟩, trivial, List.forall_mem_nil _⟩

theorem legible_registerMacros (l : Layout) :
    ∀ item ∈ (registerMacros l : List (Item Float)), item.Legible := by
  refine List.forall_mem_flatMap.2 fun b _ => forall_onlyIf ?_
  exact List.forall_mem_singleton.2 (isName_blockMacro b)

theorem legible_referenceTables (l : Layout) :
    ∀ item ∈ (referenceTables l : List (Item Float)), item.Legible := by
  refine List.forall_mem_flatMap.2 fun b _ => forall_onlyIf ?_
  exact List.forall_mem_singleton.2 (isName_table b)

theorem legible_coefficientTables (m : StateSpace Float) :
    ∀ item ∈ coefficientTables m, item.Legible := by
  have hfinite {x : Float} (h : x ∈ m.A.entries ∨ x ∈ m.B.entries ∨ x ∈ m.C.entries ∨
      x ∈ m.D.entries ∨ x ∈ m.x0 ∨ x ∈ m.u0) : x.isFinite = true :=
    isFinite_of_mem_coefficients m (mem_coefficients m h)
  unfold coefficientTables
  simp only [List.forall_mem_append]
  refine ⟨⟨⟨⟨⟨?_, ?_⟩, ?_⟩, ?_⟩, ?_⟩, ?_⟩ <;>
    refine forall_onlyIf (List.forall_mem_singleton.2 ⟨by decide, fun x hx => hfinite ?_⟩) <;>
    tauto

theorem legible_unit (m : StateSpace Float) (id : Identity) {step : Float}
    (hstep : step.isFinite = true) : ∀ item ∈ unit m id step, item.Legible := by
  have hheader : (Item.header skeletonImplementation : Item Float).Legible := by
    rw [Item.Legible]
    decide
  unfold unit
  simp only [List.forall_mem_append, List.forall_mem_cons]
  exact ⟨⟨⟨⟨⟨⟨legible_opening m.layout id hstep, legible_instances m.layout⟩,
    legible_registerMacros m.layout⟩, trivial, legible_referenceTables m.layout⟩,
    trivial, legible_coefficientTables m⟩, trivial, ⟨_, reads_of_mentions mentions_support⟩,
    trivial, legible_hooks m.layout⟩, hheader, trivial, trivial, List.forall_mem_nil _⟩

theorem entries?_source (m : StateSpace Float) (id : Identity) {step : Float}
    (hstep : step.isFinite = true) :
    entries? (Render.textOf (Render.sourceLines m id step)) =
      some ((unit m id step).flatMap Item.entries) := by
  have htext (lines : List String) : (Render.textOf lines).toList = chars lines := by
    simp [Render.textOf, chars, String.toList_join, List.flatMap_map]
  rw [entries?, htext]
  exact entriesOf?_eq_some_iff.2 (reads_items (legible_unit m id hstep))

end Source
end LtiUnit
