import LtiUnit.Proofs.PlainText
import LtiUnit.Render

/-!
# LtiUnit.Proofs.SourceReader

A reader for what a translation unit says about registers: the macros without parameters that it
defines, and the constant tables of value references at file scope. It takes one line at a time.

* `cutAt_textOf` — the lines of a text are the lines it was put together from.
* `macro?_define`, `macro?_registers` — the macro that is read from a definition.
* `table?_references`, `values?_declarator` — the values that are read from a table.
-/

namespace LtiUnit
namespace Source

open Text (Only cutAt pieces decimal?)

/-! ## The reader -/

/-- The parts of a line between blanks. -/
def words (cs : List Char) : List String :=
  ((cutAt ' ' cs).filter fun word => !word.isEmpty).map String.ofList

/-- A line that defines a macro without parameters: the name, and the words of the value. -/
def macro? (line : List Char) : Option (String × List String) :=
  match line.dropWhile (· == ' ') with
  | '#' :: directive =>
    match words directive with
    | "define" :: name :: value => if isName name then some (name, value) else none
    | _ => none
  | _ => none

/-- How tables of value references begin. -/
def tableStart : List Char := "static const fmi2ValueReference ".toList

/-- A line that declares a constant table of value references: the name, and what follows it. -/
def table? (line : List Char) : Option (String × List Char) :=
  if tableStart <+: line then
    let rest := line.drop tableStart.length
    some (String.ofList (rest.takeWhile isNameRest), rest.dropWhile isNameRest)
  else none

/-- The macros that a text defines, from top to bottom. -/
def macros (text : String) : List (String × List String) :=
  (cutAt '\n' text.toList).filterMap macro?

/-- The tables that a text declares, from top to bottom. -/
def tables (text : String) : List (String × List Char) :=
  (cutAt '\n' text.toList).filterMap table?

/-- All that is entered under a name. -/
def under {α : Type} (name : String) (entries : List (String × α)) : List α :=
  (entries.filter fun e => e.1 == name).map (·.2)

/-- A value that is a decimal number. -/
def natural? : List String → Option Nat
  | [n] => decimal? n
  | _ => none

/-- A value that points some registers beyond the first. -/
def offset? : List String → Option Nat
  | ["(comp->r", "+", last] =>
    match pieces ')' last with
    | [n, ""] => decimal? n
    | _ => none
  | _ => none

/-- Characters cut at the first of each of some marks, one after the other. -/
def fields : List Char → List Char → Option (List (List Char))
  | [], cs => some [cs]
  | mark :: marks, cs =>
    match cs.dropWhile (· != mark) with
    | [] => none
    | _ :: rest => (fields marks rest).map (cs.takeWhile (· != mark) :: ·)

/-- The values of a table, from what follows its name. They have to be as many as declared. -/
def values? (declarator : List Char) : Option (List Nat) := do
  match ← fields ['[', ']', '{', '}'] declarator with
  | [[], size, [' ', '=', ' '], entries, [';']] =>
    let count ← natural? (words size)
    let values ← (cutAt ',' entries).mapM fun entry => natural? (words entry)
    if values.length = count then return values else none
  | _ => none

/-! ## Words and fields -/

@[simp] theorem words_nil : words [] = [] := rfl

@[simp] theorem words_sep (xs ys : List Char) : words (xs ++ ' ' :: ys) = words xs ++ words ys := by
  rw [words, Text.cutAt_sep, List.filter_append, List.map_append]
  rfl

@[simp] theorem words_blank (cs : List Char) : words (' ' :: cs) = words cs :=
  words_sep [] cs

theorem words_of_not_mem {cs : List Char} (h : ' ' ∉ cs) (hne : cs ≠ []) :
    words cs = [String.ofList cs] := by
  rw [words, Text.cutAt_of_not_mem h]
  simp [hne]

@[simp] theorem words_replicate (n : Nat) : words (List.replicate n ' ') = [] := by
  induction n with
  | zero => rfl
  | succ n ih => rw [List.replicate_succ, words_blank, ih]

theorem words_name {name : String} (h : isName name = true) : words name.toList = [name] := by
  have hne : name.toList ≠ [] := by
    intro hnil
    simp [isName, isIdentifier, hnil] at h
  have hblank : ' ' ∉ name.toList := (Text.plain_of_isName h).not_mem (by decide)
  rw [words_of_not_mem hblank hne, String.ofList_toList]

theorem words_toString (n : Nat) : words (toString n).toList = [toString n] := by
  have hne : (toString n).toList ≠ [] := by
    rw [Nat.toString_eq_ofList_toDigits, String.toList_ofList]
    exact List.ne_nil_of_length_pos Nat.length_toDigits_pos
  rw [words_of_not_mem (Text.not_mem_toString (by decide) n) hne, String.ofList_toList]

theorem fields_cons {mark : Char} {cs : List Char} (h : mark ∉ cs) (marks rest : List Char) :
    fields (mark :: marks) (cs ++ mark :: rest) = (fields marks rest).map (cs :: ·) := by
  have hall : ∀ c ∈ cs, (c != mark) = true := by
    intro c hc
    rw [bne_iff_ne]
    exact fun he => h (he ▸ hc)
  rw [fields, List.dropWhile_append_of_pos hall, List.takeWhile_append_of_pos hall]
  simp

theorem cutAt_textOf {lines : List String} (h : ∀ line ∈ lines, '\n' ∉ line.toList) :
    cutAt '\n' (Render.textOf lines).toList = lines.map String.toList ++ [[]] := by
  induction lines with
  | nil => rfl
  | cons line lines ih =>
    have htext : (Render.textOf (line :: lines)).toList =
        line.toList ++ '\n' :: (Render.textOf lines).toList := by
      simp [Render.textOf, String.toList_join]
    rw [htext, Text.cutAt_append (h line (List.mem_cons_self ..)),
      ih fun l hl => h l (List.mem_cons_of_mem _ hl)]
    rfl

/-- When the source of a unit is generated, and what it is then. -/
theorem source_eq_ok_iff {m : Model.StateSpace Float} {id : Identity} {step : Float}
    {text : String} : Render.source m m.layout id step = .ok text ↔
      Render.validStepSize step = true ∧ Render.textOf (Render.sourceLines m id step) = text := by
  have hlayout : Render.checkLayout m m.layout = .ok () := if_pos rfl
  generalize htext : Render.textOf (Render.sourceLines m id step) = own
  rw [Render.source, hlayout, htext]
  cases hstep : Render.validStepSize step with
  | false => simp [bind, Except.bind, throw, throwThe, MonadExceptOf.throw]
  | true => exact ⟨fun h => ⟨rfl, Except.ok.inj h⟩, fun h => congrArg Except.ok h.2⟩

/-! ## Lines that say nothing about registers -/

/-- Whether a character can stand anywhere in a line of code: it ends no line and starts no
directive. -/
def isCode (c : Char) : Bool := c != '\n' && c != '#'

theorem isCode_of_isPlain {c : Char} (h : Text.isPlain c = true) : isCode c = true := by
  simp only [isCode, Bool.and_eq_true, bne_iff_ne, ne_eq]
  constructor <;> rintro rfl <;> revert h <;> decide

theorem code_of_plain {s : String} (h : Only Text.isPlain s) : Only isCode s :=
  h.mono fun _ => isCode_of_isPlain

/-- A line that is one line, and from which nothing is read. -/
structure Quiet (line : List Char) : Prop where
  oneLine : '\n' ∉ line
  noMacro : macro? line = none
  noTable : table? line = none

theorem macro?_of_code {line : String} (h : Only isCode line) : macro? line.toList = none := by
  unfold macro?
  split
  · rename_i directive hline
    have hmem : '#' ∈ line.toList.dropWhile (· == ' ') := hline ▸ List.mem_cons_self ..
    exact absurd ((List.dropWhile_sublist _).subset hmem) (h.not_mem (by decide))
  · rfl

/-- Lines of other directives define nothing. -/
theorem macro?_of_word {directive : List Char} {word : String}
    (hwords : (words directive).head? = some word) (hword : word ≠ "define") :
    macro? ('#' :: directive) = none := by
  show (match words directive with
    | "define" :: name :: value => if isName name then some (name, value) else none
    | _ => none) = none
  split
  · rename_i heq
    rw [heq] at hwords
    exact absurd (Option.some_inj.1 hwords).symm hword
  · rfl

/-- A line that differs from the start of tables somewhere declares none. -/
theorem table?_eq_none {cs : List Char} (n : Nat) (hn : n < tableStart.length)
    (h : cs[n]? ≠ tableStart[n]?) : table? cs = none := by
  refine if_neg ?_
  rintro ⟨rest, rfl⟩
  exact h (List.getElem?_append_left hn)

theorem table?_of_head {line : List Char} {c : Char} (h : line.head? = some c) (hc : c ≠ 's') :
    table? line = none := by
  refine table?_eq_none 0 (by decide) ?_
  rw [← List.head?_eq_getElem?, h]
  exact fun he => hc (Option.some_inj.1 he)

theorem table?_append {start : List Char} (n : Nat)
    (h : n < start.length ∧ n < tableStart.length ∧ start[n]? ≠ tableStart[n]?)
    (rest : List Char) : table? (start ++ rest) = none :=
  table?_eq_none n h.2.1 (by rw [List.getElem?_append_left h.1]; exact h.2.2)

theorem quiet_of_code {line : String} (h : Only isCode line) (htable : table? line.toList = none) :
    Quiet line.toList :=
  ⟨h.not_mem (by decide), macro?_of_code h, htable⟩

/-- A check that a line is quiet. What begins with `static c` does not pass. -/
def isQuiet (cs : List Char) : Bool :=
  cs.all (· != '\n') && (macro? cs).isNone && (cs.head? != some 's' || cs[7]? != some 'c')

theorem quiet_ofList {cs : List Char} (h : isQuiet cs = true) :
    Quiet (String.ofList cs).toList := by
  simp only [isQuiet, Bool.and_eq_true, Bool.or_eq_true, bne_iff_ne, List.all_eq_true,
    Option.isNone_iff_eq_none] at h
  obtain ⟨⟨hbreak, hmacro⟩, htable⟩ := h
  rw [String.toList_ofList]
  refine ⟨fun hmem => hbreak _ hmem rfl, hmacro, ?_⟩
  rcases htable with htable | htable
  · exact table?_eq_none 0 (by decide) (by rwa [← List.head?_eq_getElem?])
  · exact table?_eq_none 7 (by decide) htable

/-! ## Definitions and tables -/

section Definition

variable {name : String}

theorem macro?_directive {directive : List Char} {value : List String} (h : isName name = true)
    (hwords : words directive = "define" :: name :: value) :
    macro? ('#' :: directive) = some (name, value) := by
  show (match words directive with
    | "define" :: name :: value => if isName name then some (name, value) else none
    | _ => none) = _
  rw [hwords]
  exact if_pos h

theorem macro?_define (h : isName name = true) (value : String) :
    macro? ("#define " ++ name ++ " " ++ value).toList = some (name, words value.toList) := by
  have hline : ("#define " ++ name ++ " " ++ value).toList =
      '#' :: ("define".toList ++ ' ' :: (name.toList ++ ' ' :: value.toList)) := by
    simp
  rw [hline]
  apply macro?_directive h
  rw [words_sep, words_sep, words_name h, words_name (by decide)]
  rfl

theorem words_padName (h : isName name = true) : words (padName name).toList = [name] := by
  have hpad : words (name.toList ++ List.replicate (4 - name.length) ' ') = [name] := by
    cases 4 - name.length with
    | zero => rw [List.replicate_zero, List.append_nil, words_name h]
    | succ n => rw [List.replicate_succ, words_sep, words_name h, words_replicate]; rfl
  rw [padName, String.toList_append, String.toList_ofList, hpad]

theorem macro?_registers (h : isName name = true) (base : Nat) :
    macro? ("#define " ++ padName name ++ " (comp->r + " ++ toString base ++ ")").toList =
      some (name, ["(comp->r", "+", toString base ++ ")"]) := by
  have hline : ("#define " ++ padName name ++ " (comp->r + " ++ toString base ++ ")").toList =
      '#' :: ("define".toList ++ ' ' :: ((padName name).toList ++ ' ' :: ("(comp->r".toList ++
        ' ' :: ("+".toList ++ ' ' :: (toString base ++ ")").toList)))) := by
    simp
  have hlast : words (toString base ++ ")").toList = [toString base ++ ")"] := by
    have hblank : ' ' ∉ (toString base ++ ")").toList := by
      rw [String.toList_append, List.mem_append, not_or]
      exact ⟨Text.not_mem_toString (by decide) base, by decide⟩
    rw [words_of_not_mem hblank (by simp), String.ofList_toList]
  rw [hline]
  apply macro?_directive h
  rw [words_sep, words_sep, words_sep, words_sep, words_name (by decide), words_padName h, hlast]
  rfl

theorem offset?_registers (base : Nat) :
    offset? ["(comp->r", "+", toString base ++ ")"] = some base := by
  have hpieces : pieces ')' (toString base ++ ")") = [toString base, ""] := by
    have hcut := Text.cutAt_append (Text.not_mem_toString (by decide) base : ')' ∉ _) []
    rw [pieces, String.toList_append, show ")".toList = [')'] from rfl, hcut, List.map_cons,
      String.ofList_toList]
    rfl
  simp only [offset?, hpieces, Text.decimal?_toString]

theorem table?_references (h : isName name = true) (declarator : String)
    (hdeclarator : ∀ c ∈ declarator.toList.head?, isNameRest c = false) :
    table? ("static const fmi2ValueReference " ++ name ++ declarator).toList =
      some (name, declarator.toList) := by
  have hline : ("static const fmi2ValueReference " ++ name ++ declarator).toList =
      tableStart ++ (name.toList ++ declarator.toList) := by
    rw [String.toList_append, String.toList_append, List.append_assoc]
    rfl
  have hname : ∀ c ∈ name.toList, isNameRest c = true := fun c hc => isNameRest_of_mem h hc
  unfold table?
  simp only [hline, List.prefix_append, if_true, List.drop_left]
  rw [List.takeWhile_append_of_pos hname, List.dropWhile_append_of_pos hname]
  cases hcs : declarator.toList with
  | nil => simp
  | cons c cs =>
    have hc : isNameRest c = false := hdeclarator c (by rw [hcs]; rfl)
    simp [hc]

def declarator (values : List Nat) : String :=
  "[" ++ toString values.length ++ "] = \x7b " ++ indices values ++ " \x7d;"

/-- Whether a character can stand in a list of numbers. -/
def isEntry (c : Char) : Bool := c.isDigit || c == ',' || c == ' '

theorem only_indices (ns : List Nat) : Only isEntry (indices ns) := by
  refine Text.only_separated (by decide) fun s hs => ?_
  obtain ⟨n, -, rfl⟩ := List.mem_map.1 hs
  intro c hc
  simp [isEntry, Text.isDigit_of_mem_toString hc]

theorem isCode_of_isEntry {c : Char} (h : isEntry c = true) : isCode c = true := by
  simp only [isCode, Bool.and_eq_true, bne_iff_ne, ne_eq]
  constructor <;> rintro rfl <;> revert h <;> decide

theorem toList_indices_cons (n n' : Nat) (ns : List Nat) :
    (indices (n :: n' :: ns)).toList =
      (toString n).toList ++ ',' :: ' ' :: (indices (n' :: ns)).toList := by
  rw [indices, List.map_cons, List.map_cons, Text.separated, String.intercalate_cons_cons,
    String.toList_append, String.toList_append, ← List.map_cons, List.append_assoc]
  rfl

/-- The entries of a table, with a blank on either side, are read back. -/
theorem mapM_entries (n : Nat) (ns : List Nat) :
    (cutAt ',' (' ' :: (indices (n :: ns)).toList ++ [' '])).mapM
        (fun entry => natural? (words entry)) = some (n :: ns) := by
  have hcomma (k : Nat) : ',' ∉ ' ' :: (toString k).toList := by
    rw [List.mem_cons, not_or]
    exact ⟨by decide, Text.not_mem_toString (by decide) k⟩
  induction ns generalizing n with
  | nil =>
    have hlast : ',' ∉ ' ' :: (indices [n]).toList ++ [' '] := by
      rw [List.mem_append, not_or]
      exact ⟨hcomma n, by decide⟩
    have hwords : words (' ' :: (indices [n]).toList ++ [' ']) = [toString n] := by
      rw [words_sep, words_blank]
      exact congrArg (· ++ []) (words_toString n)
    rw [Text.cutAt_of_not_mem hlast, List.mapM_cons, hwords, natural?, Text.decimal?_toString]
    rfl
  | cons n' ns ih =>
    have hwords : words (' ' :: (toString n).toList) = [toString n] := by
      rw [words_blank, words_toString]
    have hline : ' ' :: (indices (n :: n' :: ns)).toList ++ [' '] =
        ' ' :: (toString n).toList ++ ',' :: (' ' :: (indices (n' :: ns)).toList ++ [' ']) := by
      simp [toList_indices_cons]
    rw [hline, Text.cutAt_append (hcomma n), List.mapM_cons, ih n', hwords, natural?,
      Text.decimal?_toString]
    rfl

theorem values?_declarator {values : List Nat} (h : values ≠ []) :
    values? (declarator values).toList = some values := by
  obtain ⟨n, ns, rfl⟩ := List.exists_cons_of_ne_nil h
  have hline : (declarator (n :: ns)).toList =
      [] ++ '[' :: ((toString (n :: ns).length).toList ++ ']' :: ([' ', '=', ' '] ++ '\x7b' ::
        ((' ' :: (indices (n :: ns)).toList ++ [' ']) ++ '\x7d' :: [';']))) := by
    simp [declarator]
  have hclose : '\x7d' ∉ ' ' :: (indices (n :: ns)).toList ++ [' '] := by
    have hindices := (only_indices (n :: ns)).not_mem (c := '\x7d') (by decide)
    simp [hindices]
  have hfields : fields ['[', ']', '\x7b', '\x7d'] (declarator (n :: ns)).toList =
      some [[], (toString (n :: ns).length).toList, [' ', '=', ' '],
        ' ' :: (indices (n :: ns)).toList ++ [' '], [';']] := by
    rw [hline, fields_cons (by decide), fields_cons (Text.not_mem_toString (by decide) _),
      fields_cons (by decide), fields_cons hclose, fields]
    rfl
  rw [values?, hfields, Option.bind_eq_bind, Option.bind_some]
  simp only
  rw [words_toString, natural?, Text.decimal?_toString, Option.bind_eq_bind, Option.bind_some,
    mapM_entries, Option.bind_eq_bind, Option.bind_some, if_pos rfl]
  rfl

end Definition

end Source
end LtiUnit
