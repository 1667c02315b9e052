import LtiUnit.Proofs.Agreement
import LtiUnit.Proofs.DescriptorText

/-!
# LtiUnit.Proofs.StatedOccasion

Where the texts of a unit depend on the occasion of its build. A mark is what a line starts with
that says the GUID or the time; the marks of a text are said in order, once each, and between them
stand lines that no mark starts (`AlikeLines`).

* `alikeBut_textOf` — texts of such lines are equal but for one line of each mark, which has the
  same place in both.
* `alike_sourceLines`, `alike_descriptorLines` — the texts of a model on two occasions are made of
  such lines.
* `texts_alikeBut_marks` — so they are generated on both occasions, and equal but for those lines.
-/

namespace LtiUnit

open Text (Only pieces)
open Model (StateSpace)
open Xml (Node)

/-! ## Lines that are alike -/

/-- No mark starts the line. -/
def Unmarked (marks : List String) (line : String) : Prop :=
  ∀ mark ∈ marks, ¬ mark.toList <+: line.toList

instance (marks : List String) (line : String) : Decidable (Unmarked marks line) :=
  inferInstanceAs (Decidable (∀ mark ∈ marks, ¬ mark.toList <+: line.toList))

/-- Line `k`, counted from zero, is there and starts with the mark. -/
def MarkedAt (mark : String) (lines : List String) (k : Nat) : Prop :=
  ∃ line, lines[k]? = some line ∧ mark.toList <+: line.toList

/-- As many lines, which are equal where no mark starts them. Each mark starts one line, which has
the same place in both lists. -/
structure AlikeBut (marks : List String) (lines lines' : List String) : Prop where
  length : lines.length = lines'.length
  same : ∀ (k : Nat) (line : String),
    lines[k]? = some line → Unmarked marks line → lines'[k]? = some line
  once : ∀ mark ∈ marks, ∃ n, ∀ k,
    (MarkedAt mark lines k ↔ k = n) ∧ (MarkedAt mark lines' k ↔ k = n)

/-- No mark starts another one. -/
def Apart (marks : List String) : Prop :=
  ∀ mark ∈ marks, ∀ other ∈ marks, mark.toList <+: other.toList → mark = other

instance (marks : List String) : Decidable (Apart marks) :=
  inferInstanceAs (Decidable (∀ mark ∈ marks, ∀ other ∈ marks,
    mark.toList <+: other.toList → mark = other))

/-- Lines in which marks start the lines that may differ. `said` are those marks, in their order;
the other lines are equal, and none of `marks` starts them. -/
inductive AlikeLines (marks : List String) : List String → List String → List String → Prop
  | nil : AlikeLines marks [] [] []
  | same {said lines lines' : List String} {line : String} (unmarked : Unmarked marks line)
      (rest : AlikeLines marks said lines lines') :
      AlikeLines marks said (line :: lines) (line :: lines')
  | stated {said lines lines' : List String} {mark line line' : String}
      (starts : mark.toList <+: line.toList) (starts' : mark.toList <+: line'.toList)
      (rest : AlikeLines marks said lines lines') :
      AlikeLines marks (mark :: said) (line :: lines) (line' :: lines')

section Alike

variable {marks said more lines lines' others others' : List String} {mark : String}

@[simp] theorem not_markedAt_nil (k : Nat) : ¬ MarkedAt mark [] k := by
  simp [MarkedAt]

@[simp] theorem markedAt_zero {line : String} :
    MarkedAt mark (line :: lines) 0 ↔ mark.toList <+: line.toList := by
  simp [MarkedAt]

@[simp] theorem markedAt_succ {line : String} {k : Nat} :
    MarkedAt mark (line :: lines) (k + 1) ↔ MarkedAt mark lines k := by
  simp [MarkedAt]

/-- A line does not start with two marks. -/
theorem Apart.eq_of_starts (h : Apart marks) {other line : String} (hmark : mark ∈ marks)
    (hother : other ∈ marks) (hstart : mark.toList <+: line.toList)
    (hstarts : other.toList <+: line.toList) : mark = other := by
  rcases List.prefix_or_prefix_of_prefix hstart hstarts with hprefix | hprefix
  · exact h mark hmark other hother hprefix
  · exact (h other hother mark hmark hprefix).symm

theorem alikeLines_of_unmarked (h : ∀ line ∈ lines, Unmarked marks line) :
    AlikeLines marks [] lines lines := by
  induction lines with
  | nil => exact .nil
  | cons line lines ih =>
    rw [List.forall_mem_cons] at h
    exact .same h.1 (ih h.2)

theorem AlikeLines.append (h : AlikeLines marks said lines lines')
    (hothers : AlikeLines marks more others others') :
    AlikeLines marks (said ++ more) (lines ++ others) (lines' ++ others') := by
  induction h with
  | nil => exact hothers
  | same unmarked _ ih => exact .same unmarked ih
  | stated starts starts' _ ih => exact .stated starts starts' ih

theorem AlikeLines.length_eq (h : AlikeLines marks said lines lines') :
    lines.length = lines'.length := by
  induction h with
  | nil => rfl
  | same _ _ ih | stated _ _ _ ih => rw [List.length_cons, List.length_cons, ih]

theorem AlikeLines.getElem?_eq (h : AlikeLines marks said lines lines') (hsaid : said ⊆ marks)
    {k : Nat} {line : String} (hline : lines[k]? = some line) (hunmarked : Unmarked marks line) :
    lines'[k]? = some line := by
  induction h generalizing k with
  | nil => exact hline
  | same _ _ ih =>
    cases k with
    | zero => exact hline
    | succ k => exact ih hsaid hline
  | stated starts _ _ ih =>
    rw [List.cons_subset] at hsaid
    cases k with
    | zero =>
      cases hline
      exact absurd starts (hunmarked _ hsaid.1)
    | succ k => exact ih hsaid.2 hline

/-- A mark that is not said starts no line. -/
theorem AlikeLines.not_markedAt (h : AlikeLines marks said lines lines') (hapart : Apart marks)
    (hsaid : said ⊆ marks) (hmark : mark ∈ marks) (hnot : mark ∉ said) (k : Nat) :
    ¬ MarkedAt mark lines k ∧ ¬ MarkedAt mark lines' k := by
  induction h generalizing k with
  | nil => simp
  | same unmarked _ ih =>
    cases k with
    | zero => simp [unmarked mark hmark]
    | succ k => simpa using ih hsaid hnot k
  | stated starts starts' _ ih =>
    rw [List.cons_subset] at hsaid
    rw [List.mem_cons, not_or] at hnot
    cases k with
    | zero =>
      rw [markedAt_zero, markedAt_zero]
      exact ⟨fun hstart => hnot.1 (hapart.eq_of_starts hmark hsaid.1 hstart starts),
        fun hstart => hnot.1 (hapart.eq_of_starts hmark hsaid.1 hstart starts')⟩
    | succ k => simpa using ih hsaid.2 hnot.2 k

/-- A mark that is said starts one line, which has the same place in both lists. -/
theorem AlikeLines.existsUnique_markedAt (h : AlikeLines marks said lines lines')
    (hapart : Apart marks) (hsaid : said ⊆ marks) (hnodup : said.Nodup) (hmark : mark ∈ said) :
    ∃ n, ∀ k, (MarkedAt mark lines k ↔ k = n) ∧ (MarkedAt mark lines' k ↔ k = n) := by
  induction h with
  | nil => cases hmark
  | same unmarked _ ih =>
    obtain ⟨n, hn⟩ := ih hsaid hnodup hmark
    refine ⟨n + 1, fun k => ?_⟩
    cases k with
    | zero => simp [unmarked mark (hsaid hmark)]
    | succ k => simpa using hn k
  | @stated said lines lines' other line line' starts starts' rest ih =>
    rw [List.cons_subset] at hsaid
    rw [List.nodup_cons] at hnodup
    by_cases he : mark = other
    · subst he
      refine ⟨0, fun k => ?_⟩
      cases k with
      | zero => simp [starts, starts']
      | succ k => simpa using rest.not_markedAt hapart hsaid.2 hsaid.1 hnodup.1 k
    · have hrest := (List.mem_cons.1 hmark).resolve_left he
      obtain ⟨n, hn⟩ := ih hsaid.2 hnodup.2 hrest
      refine ⟨n + 1, fun k => ?_⟩
      cases k with
      | zero =>
        have hstart : ¬ mark.toList <+: line.toList := fun hstart =>
          he (hapart.eq_of_starts (hsaid.2 hrest) hsaid.1 hstart starts)
        have hstart' : ¬ mark.toList <+: line'.toList := fun hstart =>
          he (hapart.eq_of_starts (hsaid.2 hrest) hsaid.1 hstart starts')
        simp [hstart, hstart']
      | succ k => simpa using hn k

theorem pieces_textOf (h : ∀ line ∈ lines, '\n' ∉ line.toList) :
    pieces '\n' (Render.textOf lines) = lines ++ [""] := by
  rw [pieces, Source.cutAt_textOf h, List.map_append, List.map_map]
  simp [Function.comp_def]

/-- Texts whose lines say each mark once are equal but for the lines of the marks. -/
theorem alikeBut_textOf (h : AlikeLines marks marks lines lines') (hapart : Apart marks)
    (hnodup : marks.Nodup) (hempty : Unmarked marks "")
    (hlines : ∀ line ∈ lines, '\n' ∉ line.toList)
    (hlines' : ∀ line ∈ lines', '\n' ∉ line.toList) :
    AlikeBut marks (pieces '\n' (Render.textOf lines)) (pieces '\n' (Render.textOf lines')) := by
  have hends := h.append (alikeLines_of_unmarked (List.forall_mem_singleton.2 hempty))
  rw [List.append_nil] at hends
  rw [pieces_textOf hlines, pieces_textOf hlines']
  exact {
    length := hends.length_eq
    same := fun _ _ hline hunmarked => hends.getElem?_eq (List.Subset.refl _) hline hunmarked
    once := fun _ hmark => hends.existsUnique_markedAt hapart (List.Subset.refl _) hnodup hmark }

/-- A line that starts otherwise than every mark. -/
theorem unmarked_of_start {line : String} (start : String) (hstart : start.toList <+: line.toList)
    (h : ∀ mark ∈ marks, ¬ start.toList <+: mark.toList ∧ ¬ mark.toList <+: start.toList) :
    Unmarked marks line := by
  intro mark hmark hprefix
  rcases List.prefix_or_prefix_of_prefix hstart hprefix with hbefore | hbefore
  · exact (h mark hmark).1 hbefore
  · exact (h mark hmark).2 hbefore

end Alike

/-! ## Sources -/

namespace Source

open Hooks

/-- What the lines of a source start with that say the GUID or the time. -/
def marks : List String := [" * GUID:", " * Generated:", "#define MODEL_GUID"]

/-- A piece that says nothing of the occasion, whatever its names and values. -/
def Item.Markless : Item Float → Prop
  | .remark _ => False
  | .define name _ | .registers name _ =>
    ¬ name.toList <+: "MODEL_GUID".toList ∧ ¬ "MODEL_GUID".toList <+: name.toList
  | .passage lines => ∀ line ∈ lines, Unmarked marks line
  | _ => True

theorem unmarked_define {name line : String}
    (h : ¬ name.toList <+: "MODEL_GUID".toList ∧ ¬ "MODEL_GUID".toList <+: name.toList)
    (hline : ("#define " ++ name).toList <+: line.toList) : Unmarked marks line := by
  have hguid : "#define MODEL_GUID".toList = "#define ".toList ++ "MODEL_GUID".toList := by decide
  refine unmarked_of_start _ hline ?_
  simp only [marks, List.forall_mem_cons, hguid, String.toList_append,
    List.prefix_append_right_inj]
  exact ⟨by simp, by simp, h, List.forall_mem_nil _⟩

/-- A line that is written out, by its first characters. -/
theorem unmarked_ofList {cs : List Char}
    (h : ¬ [' ', '*'] <+: cs ∧ ¬ ['#', 'd', 'e', 'f', 'i', 'n', 'e', ' ', 'M'] <+: cs) :
    Unmarked marks (String.ofList cs) := by
  have hmarks : ∀ mark ∈ marks, [' ', '*'] <+: mark.toList ∨
      ['#', 'd', 'e', 'f', 'i', 'n', 'e', ' ', 'M'] <+: mark.toList := by decide
  intro mark hmark hprefix
  rw [String.toList_ofList] at hprefix
  exact (hmarks mark hmark).elim (fun hstart => h.1 (hstart.trans hprefix))
    fun hstart => h.2 (hstart.trans hprefix)

theorem unmarked_function (f : Function Float) : ∀ line ∈ f.lines, Unmarked marks line := by
  unfold Function.lines
  dsimp only
  rw [List.forall_mem_cons, List.forall_mem_append, List.forall_mem_singleton]
  refine ⟨unmarked_of_start "static " (by simp) (by decide), fun line hline => ?_,
    by decide⟩
  exact unmarked_of_start _ (indented_block "    " f.body line hline) (by decide)

theorem unmarked_matrix (name : String) (grid : Model.Grid Float) :
    ∀ line ∈ (Item.matrix name grid).lines, Unmarked marks line := by
  rw [Item.lines, List.forall_mem_cons, List.forall_mem_append, List.forall_mem_singleton]
  refine ⟨unmarked_of_start "static " (by simp) (by decide), fun line hline => ?_,
    by decide⟩
  obtain ⟨row, -, rfl⟩ := List.mem_map.1 hline
  exact unmarked_of_start "    " (by simp) (by decide)

theorem unmarked_instanceLines (slots : Nat) :
    ∀ line ∈ instanceLines slots, Unmarked marks line := by
  have hslots : Unmarked marks ("    fmi2Real r[" ++ toString slots ++ "];") :=
    unmarked_of_start "    " (by simp) (by decide)
  unfold instanceLines
  refine List.forall_mem_cons.2 ⟨unmarked_ofList (by decide), ?_⟩
  refine List.forall_mem_cons.2 ⟨unmarked_ofList (by decide), ?_⟩
  refine List.forall_mem_cons.2 ⟨hslots, ?_⟩
  repeat refine List.forall_mem_cons.2 ⟨unmarked_ofList (by decide), ?_⟩
  exact List.forall_mem_nil _

theorem unmarked_support : ∀ line ∈ support, Unmarked marks line := by
  unfold support
  repeat refine List.forall_mem_cons.2 ⟨unmarked_ofList (by decide), ?_⟩
  exact List.forall_mem_nil _

theorem unmarked_item {item : Item Float} (h : item.Markless) :
    ∀ line ∈ item.lines, Unmarked marks line := by
  cases item with
  | blank | linkageOpen | linkageClose => rw [Item.lines]; decide
  | note line =>
    rw [Item.lines, List.forall_mem_singleton]
    exact unmarked_of_start "/* " (by simp) (by decide)
  | remark lines => cases h
  | header file =>
    rw [Item.lines, List.forall_mem_singleton]
    exact unmarked_of_start "#include " (by simp) (by decide)
  | define name value =>
    rw [Item.lines, List.forall_mem_singleton]
    exact unmarked_define h (by simp)
  | registers name base =>
    rw [Item.lines, List.forall_mem_singleton]
    exact unmarked_define h (by simp [padName])
  | instanceType slots => exact unmarked_instanceLines slots
  | references name values =>
    rw [Item.lines, List.forall_mem_singleton]
    exact unmarked_of_start "static " (by simp) (by decide)
  | matrix name grid => exact unmarked_matrix name grid
  | vector name values =>
    rw [Item.lines, List.forall_mem_singleton]
    exact unmarked_of_start "static " (by simp) (by decide)
  | function f => exact unmarked_function f
  | passage lines => exact h

/-- Pieces that say nothing of the occasion, among them the ones that are left out. -/
theorem alike_markless {items : List (Item Float)} (h : ∀ item ∈ items, item.Markless) :
    AlikeLines marks [] (items.flatMap Item.lines) (items.flatMap Item.lines) := by
  refine alikeLines_of_unmarked fun line hline => ?_
  obtain ⟨item, hitem, hline⟩ := List.mem_flatMap.1 hline
  exact unmarked_item (h item hitem) line hline

theorem markless_instances (l : Layout) :
    ∀ item ∈ (instances l : List (Item Float)), item.Markless := by
  simp only [instances, List.forall_mem_cons]
  refine ⟨trivial, trivial, ?_, trivial, List.forall_mem_nil _⟩
  rw [Item.Markless, List.forall_mem_cons, List.forall_mem_singleton]
  exact ⟨unmarked_of_start "static const fmi2String " (by simp) (by decide),
    unmarked_ofList (by decide)⟩

theorem markless_registerMacros (l : Layout) :
    ∀ item ∈ (registerMacros l : List (Item Float)), item.Markless := by
  intro item hitem
  obtain ⟨b, -, hitem⟩ := List.mem_flatMap.1 hitem
  refine forall_onlyIf ?_ item hitem
  rw [List.forall_mem_singleton, Item.Markless]
  cases b <;> decide

theorem markless_referenceTables (l : Layout) :
    ∀ item ∈ (referenceTables l : List (Item Float)), item.Markless := by
  intro item hitem
  obtain ⟨b, -, hitem⟩ := List.mem_flatMap.1 hitem
  exact forall_onlyIf (List.forall_mem_singleton.2 trivial) item hitem

theorem markless_coefficientTables (m : StateSpace Float) :
    ∀ item ∈ coefficientTables m, item.Markless := by
  unfold coefficientTables
  simp only [List.forall_mem_append]
  refine ⟨⟨⟨⟨⟨?_, ?_⟩, ?_⟩, ?_⟩, ?_⟩, ?_⟩ <;>
    exact forall_onlyIf (List.forall_mem_singleton.2 trivial)

theorem markless_hooks (l : Layout) : ∀ item ∈ (items l : List (Item Float)), item.Markless := by
  have hfunction : ∀ f : Function Float, ∀ item ∈ withBlank f, item.Markless := fun f =>
    List.forall_mem_cons.2 ⟨trivial, List.forall_mem_singleton.2 trivial⟩
  have htwo : ∀ f g : Function Float, ∀ item ∈ withBlank f ++ withBlank g, item.Markless :=
    fun f g => List.forall_mem_append.2 ⟨hfunction f, hfunction g⟩
  unfold items
  simp only [List.forall_mem_append]
  refine ⟨⟨⟨⟨⟨forall_onlyIf (hfunction _), forall_onlyIf ?_⟩, hfunction _⟩,
    forall_onlyIf (htwo _ _)⟩, forall_onlyIf (htwo _ _)⟩, hfunction _⟩
  rw [List.forall_mem_append, List.forall_mem_cons]
  exact ⟨hfunction _, trivial, hfunction _⟩

section Unit

variable (m : StateSpace Float) (name : String) (hname : isName name = true) (o o' : Occasion)
  (step : Float)

theorem alike_origin :
    AlikeLines marks [" * GUID:", " * Generated:"]
      (origin ⟨name, hname, o⟩ : Item Float).lines
      (origin ⟨name, hname, o'⟩ : Item Float).lines := by
  have hmodel : Unmarked marks (" * " ++ ("Model:     " ++ name)) :=
    unmarked_of_start " * Model:" (by simp) (by decide)
  exact .same (by decide) (.same (by decide) (.same hmodel
    (.stated (by simp) (by simp) (.stated (by simp) (by simp) (.same (by decide) .nil)))))

theorem alike_guid :
    AlikeLines marks ["#define MODEL_GUID"]
      (Item.define "MODEL_GUID" (.quoted o.guid.text) : Item Float).lines
      (Item.define "MODEL_GUID" (.quoted o'.guid.text) : Item Float).lines :=
  .stated (by simp) (by simp) .nil

/-- The opening names the unit, then its occasion, then its sizes. -/
theorem alike_opening (l : Layout) :
    AlikeLines marks marks ((opening l ⟨name, hname, o⟩ step).flatMap Item.lines)
      ((opening l ⟨name, hname, o'⟩ step).flatMap Item.lines) := by
  let before : List (Item Float) :=
    [.blank, .header skeletonHeader, .blank, .linkageOpen, .blank,
     .define "MODEL_IDENTIFIER" (.name name)]
  let after : List (Item Float) := (opening l ⟨name, hname, o⟩ step).drop 8
  have hopening : ∀ o, opening l ⟨name, hname, o⟩ step =
      origin ⟨name, hname, o⟩ ::
        (before ++ .define "MODEL_GUID" (.quoted o.guid.text) :: after) := fun _ => rfl
  have hbefore : ∀ item ∈ before, item.Markless := by
    simp only [before, List.forall_mem_cons]
    exact ⟨trivial, trivial, trivial, trivial, trivial, by rw [Item.Markless]; decide,
      List.forall_mem_nil _⟩
  have hafter : ∀ item ∈ after, item.Markless := by
    simp only [after, opening, List.drop_succ_cons, List.drop_zero, List.forall_mem_cons]
    exact ⟨trivial, by rw [Item.Markless]; decide, by rw [Item.Markless]; decide,
      by rw [Item.Markless]; decide, by rw [Item.Markless]; decide, trivial,
      by rw [Item.Markless]; decide, by rw [Item.Markless]; decide, trivial, List.forall_mem_nil _⟩
  rw [hopening, hopening]
  simp only [List.flatMap_cons, List.flatMap_append]
  exact (alike_origin name hname o o').append ((alike_markless hbefore).append
    ((alike_guid o o').append (alike_markless hafter)))

theorem alike_sourceLines :
    AlikeLines marks marks (Render.sourceLines m ⟨name, hname, o⟩ step)
      (Render.sourceLines m ⟨name, hname, o'⟩ step) := by
  let rest : List (Item Float) := instances m.layout ++ (registerMacros m.layout ++
    (.blank :: referenceTables m.layout ++ (.blank :: coefficientTables m ++
      (.blank :: .passage support :: .blank :: Hooks.items m.layout ++
        [.header skeletonImplementation, .blank, .linkageClose]))))
  have hunit : ∀ o, unit m ⟨name, hname, o⟩ step =
      opening m.layout ⟨name, hname, o⟩ step ++ rest := by
    intro o
    simp only [unit, rest, List.append_assoc, List.cons_append]
  have hrest : ∀ item ∈ rest, item.Markless := by
    simp only [rest, List.forall_mem_append, List.forall_mem_cons]
    exact ⟨markless_instances _, markless_registerMacros _, ⟨trivial, markless_referenceTables _⟩,
      ⟨trivial, markless_coefficientTables m⟩,
      ⟨trivial, unmarked_support, trivial, markless_hooks _⟩, trivial, trivial, trivial,
      List.forall_mem_nil _⟩
  rw [Render.sourceLines, Render.sourceLines, hunit, hunit, List.flatMap_append,
    List.flatMap_append]
  exact (alike_opening name hname o o' step m.layout).append (alike_markless hrest)

/-- The lines of a unit hold no line break. -/
theorem oneLine_sourceLines (id : Identity) :
    ∀ line ∈ Render.sourceLines m id step, '\n' ∉ line.toList := by
  intro line hline
  obtain ⟨item, hitem, hline⟩ := List.mem_flatMap.1 hline
  exact (readBack_item (tidy_unit m id step item hitem)).oneLine line hline

end Unit

end Source

/-! ## Descriptors -/

namespace Xml

mutual

/-- A line of a node is empty, or starts with a tag or deeper. -/
theorem start_lines (indent : String) (n : Node) : ∀ line ∈ n.lines indent,
    line = "" ∨ (indent ++ "<").toList <+: line.toList ∨
      (indent ++ "  ").toList <+: line.toList := by
  cases n with
  | leaf tag attributes => simp [Node.lines]
  | element tag attributes spread children =>
    rw [Node.lines, List.forall_mem_append, List.forall_mem_append, List.forall_mem_singleton]
    refine ⟨⟨?_, fun line hline => ?_⟩, by simp⟩
    · unfold startTag
      split
      · rw [List.forall_mem_cons, List.forall_mem_append, List.forall_mem_map]
        simp
      · simp
    · rcases start_allLines (indent ++ "  ") children line hline with hline | hline | hline
      · exact .inl hline
      · exact .inr (.inr (List.IsPrefix.trans (by simp) hline))
      · exact .inr (.inr (List.IsPrefix.trans (by simp) hline))
  | comment text => simp [Node.lines]
  | blank => simp [Node.lines]

theorem start_allLines (indent : String) (nodes : List Node) :
    ∀ line ∈ Node.allLines indent nodes,
      line = "" ∨ (indent ++ "<").toList <+: line.toList ∨
        (indent ++ "  ").toList <+: line.toList := by
  cases nodes with
  | nil => simp [Node.allLines]
  | cons n rest =>
    rw [Node.allLines, List.forall_mem_append]
    exact ⟨start_lines indent n, start_allLines indent rest⟩

end

theorem plain_of_isTagChar {c : Char} (h : isTagChar c = true) : Text.isPlain c = true := by
  simp only [isTagChar, isNameRest, Bool.or_eq_true, beq_iff_eq] at h
  rcases h with (((rfl | h) | rfl) | rfl) | rfl
  · decide
  · simp [Text.isPlain, h]
  · decide
  · decide
  · decide

theorem printed_tagName {name : String} (h : isTagName name = true) : Only isPrinted name :=
  Descriptor.printed_of_plain fun _ hc => plain_of_isTagChar (isTagChar_of_mem h hc)

theorem printed_attribute {a : Attribute} (hclean : a.Clean) (hprinted : Only isPrinted a.value) :
    Only isPrinted a.text := by
  have hmarks : Only isPrinted "=\"" ∧ Only isPrinted "\"" := by decide
  simp only [Attribute.text, Text.only_append, printed_tagName hclean.name, hprinted, hmarks,
    and_self]

section Printed

variable {indent tag : String} {attributes : List Attribute}

theorem printed_inlineAttributes (hclean : ∀ a ∈ attributes, a.Clean)
    (hprinted : PrintedAttributes attributes) : Only isPrinted (inlineAttributes attributes) := by
  intro c hc
  rw [inlineAttributes, String.toList_join, List.flatMap_map] at hc
  obtain ⟨a, ha, hc⟩ := List.mem_flatMap.1 hc
  have hblank : Only isPrinted " " := by decide
  exact Text.only_append.2 ⟨hblank, printed_attribute (hclean a ha) (hprinted.2 a ha)⟩ c hc

theorem printed_startTag (hindent : Only isPrinted indent) (htag : isTagName tag = true)
    (hclean : ∀ a ∈ attributes, a.Clean) (hprinted : PrintedAttributes attributes) (spread : Bool) :
    ∀ line ∈ startTag indent tag attributes spread, Only isPrinted line := by
  have hmarks : Only isPrinted "<" ∧ Only isPrinted ">" ∧ Only isPrinted "  " := by decide
  unfold startTag
  split
  · rename_i last before hreverse
    have hattribute : ∀ a ∈ last :: before, Only isPrinted (indent ++ "  " ++ a.text) := by
      intro a ha
      have hmem : a ∈ attributes := by rwa [← List.mem_reverse, hreverse]
      simp only [Text.only_append, hindent, hmarks,
        printed_attribute (hclean a hmem) (hprinted.2 a hmem), and_self]
    rw [List.forall_mem_cons] at hattribute
    rw [List.forall_mem_cons, List.forall_mem_append, List.forall_mem_singleton,
      List.forall_mem_map]
    refine ⟨?_, fun a ha => hattribute.2 a (List.mem_reverse.1 ha), ?_⟩
    · simp only [Text.only_append, hindent, hmarks, printed_tagName htag, and_self]
    · exact Text.only_append.2 ⟨hattribute.1, hmarks.2.1⟩
  · rw [List.forall_mem_singleton]
    simp only [Text.only_append, hindent, hmarks, printed_tagName htag,
      printed_inlineAttributes hclean hprinted, and_self]

end Printed

mutual

/-- The lines of a node hold printed characters only, so no line break. -/
theorem printed_lines {indent : String} (hindent : Only isPrinted indent) (n : Node) (h : n.Clean)
    (hprinted : ∀ x ∈ n.nodes, x.Printed) : ∀ line ∈ n.lines indent, Only isPrinted line := by
  cases n with
  | leaf tag attributes =>
    have hmarks : Only isPrinted "<" ∧ Only isPrinted "/>" := by decide
    rw [Node.Clean] at h
    have hattributes := hprinted _ (List.mem_singleton.2 rfl)
    rw [Node.lines, List.forall_mem_singleton]
    simp only [Text.only_append, hindent, hmarks, printed_tagName h.1,
      printed_inlineAttributes h.2 hattributes, and_self]
  | element tag attributes spread children =>
    obtain ⟨htag, hattributes, hchildren⟩ := h
    have hmarks : Only isPrinted "</" ∧ Only isPrinted ">" ∧ Only isPrinted "  " := by decide
    have hdeeper : Only isPrinted (indent ++ "  ") := Text.only_append.2 ⟨hindent, hmarks.2.2⟩
    rw [Node.nodes, List.forall_mem_cons] at hprinted
    rw [Node.lines, List.forall_mem_append, List.forall_mem_append, List.forall_mem_singleton]
    refine ⟨⟨printed_startTag hindent htag hattributes hprinted.1 spread,
      printed_allLines hdeeper children hchildren hprinted.2⟩, ?_⟩
    simp only [Text.only_append, hindent, hmarks, printed_tagName htag, and_self]
  | comment text =>
    have hmarks : Only isPrinted "<!-- " ∧ Only isPrinted " -->" := by decide
    rw [Node.lines, List.forall_mem_singleton]
    simp only [Text.only_append, hindent, hmarks, and_true, true_and]
    exact hprinted _ (List.mem_singleton.2 rfl)
  | blank =>
    rw [Node.lines, List.forall_mem_singleton]
    decide

theorem printed_allLines {indent : String} (hindent : Only isPrinted indent) (nodes : List Node)
    (h : Node.AllClean nodes) (hprinted : ∀ x ∈ Node.allNodes nodes, x.Printed) :
    ∀ line ∈ Node.allLines indent nodes, Only isPrinted line := by
  cases nodes with
  | nil => simp [Node.allLines]
  | cons n rest =>
    rw [Node.allNodes, List.forall_mem_append] at hprinted
    rw [Node.allLines, List.forall_mem_append]
    exact ⟨printed_lines hindent n h.1 hprinted.1, printed_allLines hindent rest h.2 hprinted.2⟩

end

end Xml

namespace Descriptor

/-- What the lines of a descriptor start with that say the GUID or the time. -/
def marks : List String := ["  guid=\"", "  generationDateAndTime=\""]

/-- Deeper in the tree than the attributes of the root, no line starts as they do. -/
theorem unmarked_children (nodes : List Xml.Node) :
    ∀ line ∈ Node.allLines "  " nodes, Unmarked marks line := by
  intro line hline
  rcases Xml.start_allLines "  " nodes line hline with rfl | hline | hline
  · decide
  · exact unmarked_of_start _ hline (by decide)
  · exact unmarked_of_start _ hline (by decide)

theorem oneLine_descriptorLines (m : StateSpace Float) (id : Identity) :
    ∀ line ∈ Render.descriptorLines m id, '\n' ∉ line.toList := by
  have hindent : Only Xml.isPrinted "" := by decide
  have hlines := Xml.printed_lines hindent (root m id) (clean_root m id) (printed_root m id)
  rw [Render.descriptorLines, Xml.documentLines, List.forall_mem_cons]
  exact ⟨by decide, fun line hline => (hlines line hline).not_mem (by decide)⟩

/-- The line of an attribute of the root. -/
def attributeLine (name value : String) : String := "" ++ "  " ++ Xml.Attribute.text ⟨name, value⟩

theorem start_attributeLine (name value : String) :
    ("  " ++ name ++ "=\"").toList <+: (attributeLine name value).toList := by
  simp [attributeLine, Xml.Attribute.text]

section Root

variable (m : StateSpace Float) (name : String) (hname : isName name = true)

/-- The lines of a descriptor, of which two say on which occasion. -/
theorem descriptorLines_eq : ∃ before between after : List String,
    (∀ line ∈ before, Unmarked marks line) ∧ (∀ line ∈ between, Unmarked marks line) ∧
    (∀ line ∈ after, Unmarked marks line) ∧
    ∀ o, Render.descriptorLines m ⟨name, hname, o⟩ =
      before ++ attributeLine "guid" o.guid.text :: (between ++
        attributeLine "generationDateAndTime" (Calendar.text o.seconds) :: after) := by
  let any : Identity := ⟨name, hname, ⟨⟨0⟩, 0⟩⟩
  let children : List Node :=
    [.blank, modelExchange any, .blank, coSimulation any, .blank, categories, .blank,
     defaultExperiment, .blank, modelVariables m, .blank, modelStructure m.layout]
  have hmodel : Unmarked marks (attributeLine "modelName" name) :=
    unmarked_of_start _ (start_attributeLine _ _) (by decide)
  refine ⟨["<?xml version=\"1.0\" encoding=\"UTF-8\"?>", "<fmiModelDescription",
      attributeLine "xmlns:xsi" "http://www.w3.org/2001/XMLSchema-instance",
      attributeLine "fmiVersion" "2.0", attributeLine "modelName" name],
    [attributeLine "generationTool" toolAndVersion],
    attributeLine "variableNamingConvention" "flat" ::
      (attributeLine "numberOfEventIndicators" "0" ++ ">") ::
      (Node.allLines "  " children ++ ["</fmiModelDescription>"]), ?_, by decide, ?_, fun _ => rfl⟩
  · simp only [List.forall_mem_cons]
    exact ⟨by decide, by decide, by decide, by decide, hmodel, List.forall_mem_nil _⟩
  · simp only [List.forall_mem_cons, List.forall_mem_append]
    exact ⟨by decide, by decide, unmarked_children children, by decide, List.forall_mem_nil _⟩

theorem alike_descriptorLines (o o' : Occasion) :
    AlikeLines marks marks (Render.descriptorLines m ⟨name, hname, o⟩)
      (Render.descriptorLines m ⟨name, hname, o'⟩) := by
  have hguid : ∀ o : Occasion,
      "  guid=\"".toList <+: (attributeLine "guid" o.guid.text).toList := fun o => by
    simpa using start_attributeLine "guid" o.guid.text
  have htime : ∀ o : Occasion, "  generationDateAndTime=\"".toList <+:
      (attributeLine "generationDateAndTime" (Calendar.text o.seconds)).toList := fun o => by
    simpa using start_attributeLine "generationDateAndTime" (Calendar.text o.seconds)
  obtain ⟨before, between, after, hbefore, hbetween, hafter, hlines⟩ :=
    descriptorLines_eq m name hname
  rw [hlines, hlines]
  exact (alikeLines_of_unmarked hbefore).append (.stated (hguid o) (hguid o')
    ((alikeLines_of_unmarked hbetween).append (.stated (htime o) (htime o')
      (alikeLines_of_unmarked hafter))))

end Root

end Descriptor

/-! ## The texts of a unit -/

/-- Of a model, a name and a step size that are accepted, both texts are generated on any two
occasions. The two sources are equal but for the line of the GUID, the line of the time and the line
of the macro for the GUID; the two descriptors are equal but for the lines of these two attributes;
and each of these lines stands once in every text, in the same place on both occasions. -/
theorem texts_alikeBut_marks (m : StateSpace Float) {name : String} (hname : isName name = true)
    {step : Float} (hstep : Render.validStepSize step = true) (o o' : Occasion) :
    (∃ s s', Render.source m m.layout ⟨name, hname, o⟩ step = .ok s ∧
      Render.source m m.layout ⟨name, hname, o'⟩ step = .ok s' ∧
      AlikeBut Source.marks (pieces '\n' s) (pieces '\n' s')) ∧
    ∃ s s', Render.descriptor m m.layout ⟨name, hname, o⟩ = .ok s ∧
      Render.descriptor m m.layout ⟨name, hname, o'⟩ = .ok s' ∧
      AlikeBut Descriptor.marks (pieces '\n' s) (pieces '\n' s') := by
  have hlayout : Render.checkLayout m m.layout = .ok () := if_pos rfl
  have hdescriptor : ∀ id, Render.descriptor m m.layout id =
      .ok (Render.textOf (Render.descriptorLines m id)) := by
    intro id
    rw [Render.descriptor, hlayout]
    rfl
  have hsource : ∀ o, Render.source m m.layout ⟨name, hname, o⟩ step =
      .ok (Render.textOf (Render.sourceLines m ⟨name, hname, o⟩ step)) := fun o =>
    Source.source_eq_ok_iff.2 ⟨hstep, rfl⟩
  refine ⟨⟨_, _, hsource o, hsource o', ?_⟩, _, _, hdescriptor _, hdescriptor _, ?_⟩
  · exact alikeBut_textOf (Source.alike_sourceLines m name hname o o' step) (by decide) (by decide)
      (by decide) (Source.oneLine_sourceLines m step _) (Source.oneLine_sourceLines m step _)
  · exact alikeBut_textOf (Descriptor.alike_descriptorLines m name hname o o') (by decide)
      (by decide) (by decide) (Descriptor.oneLine_descriptorLines m _)
      (Descriptor.oneLine_descriptorLines m _)

/-- A unit may be named like the macro for its GUID. -/
theorem texts_alikeBut_marks_lag :
    isName "MODEL_GUID" = true ∧ Render.validStepSize 0.01 = true ∧
    (∃ s s',
      Render.source Model.StateSpace.lag Model.StateSpace.lag.layout
        ⟨"MODEL_GUID", by decide, ⟨⟨0⟩, 0⟩⟩ 0.01 = .ok s ∧
      Render.source Model.StateSpace.lag Model.StateSpace.lag.layout
        ⟨"MODEL_GUID", by decide, ⟨⟨1⟩, 86400⟩⟩ 0.01 = .ok s' ∧
      AlikeBut Source.marks (pieces '\n' s) (pieces '\n' s')) ∧
    ∃ s s',
      Render.descriptor Model.StateSpace.lag Model.StateSpace.lag.layout
        ⟨"MODEL_GUID", by decide, ⟨⟨0⟩, 0⟩⟩ = .ok s ∧
      Render.descriptor Model.StateSpace.lag Model.StateSpace.lag.layout
        ⟨"MODEL_GUID", by decide, ⟨⟨1⟩, 86400⟩⟩ = .ok s' ∧
      AlikeBut Descriptor.marks (pieces '\n' s) (pieces '\n' s') :=
  have hname : isName "MODEL_GUID" = true := by decide
  have hstep : Render.validStepSize 0.01 = true := by decide
  ⟨hname, hstep, texts_alikeBut_marks Model.StateSpace.lag hname hstep ⟨⟨0⟩, 0⟩ ⟨⟨1⟩, 86400⟩⟩

end LtiUnit
