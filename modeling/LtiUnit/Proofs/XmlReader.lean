import LtiUnit.Proofs.PlainText
import LtiUnit.Xml.Node

/-!
# LtiUnit.Proofs.XmlReader

A reader for the XML that descriptors are written in: declarations, comments, tags and attributes in
double quotes; character data is passed over. It takes one character at a time over a stack of the
elements that are open, and fails where the text is not well-formed.

`read?_documentLines` — reading what is written for a tree gives its elements, for all names and
values that need no escape.
-/

namespace LtiUnit
namespace Xml

open Text (Only)

/-! ## The reader -/

/-- An element with its attributes and all that is in it. -/
inductive Element where
  | mk (tag : String) (attributes : List Attribute) (children : List Element)

/-- An element that is open, with what has been read in it. -/
structure Frame where
  tag : String
  attributes : List Attribute
  children : List Element

/-- The frame with more elements in it. -/
def Frame.extend (f : Frame) (elements : List Element) : Frame :=
  { f with children := f.children ++ elements }

/-- What is being read. -/
inductive Mode where
  | content
  | markup
  /-- In `<?…?>`, and whether the last character was a question mark. -/
  | instruction (asked : Bool)
  /-- After `<!` and some dashes. -/
  | bang (dashes : Nat)
  /-- In a comment, after some dashes. -/
  | comment (dashes : Nat)
  | startName (tag : List Char)
  /-- In a start tag, after its name or after an attribute. -/
  | after (tag : List Char) (attributes : List Attribute)
  /-- In a start tag, after a blank. -/
  | between (tag : List Char) (attributes : List Attribute)
  | key (tag : List Char) (attributes : List Attribute) (name : List Char)
  /-- After the sign between a name and its value. -/
  | equals (tag : List Char) (attributes : List Attribute) (name : List Char)
  | value (tag : List Char) (attributes : List Attribute) (name value : List Char)
  /-- After the slash of an element that closes itself. -/
  | slash (tag : List Char) (attributes : List Attribute)
  | endName (tag : List Char)

/-- A mode, and the open elements from the inside out. -/
structure Reader where
  mode : Mode
  frames : List Frame

def isSpace (c : Char) : Bool := c == ' ' || c == '\n' || c == '\t' || c == '\r'

def isTagStart (c : Char) : Bool := isNameStart c || c == ':'

def isTagChar (c : Char) : Bool := isNameRest c || c == ':' || c == '-' || c == '.'

/-- Whether a character stands for itself in a quoted value. -/
def isValueChar (c : Char) : Bool := c != '"' && c != '<' && c != '&'

/-- An element is complete. -/
def add (e : Element) : List Frame → Option (List Frame)
  | [] => none
  | f :: frames => some (f.extend [e] :: frames)

/-- An end tag closes the innermost element, whose name it has to carry. -/
def close (tag : String) : List Frame → Option (List Frame)
  | [] => none
  | f :: frames => if f.tag = tag then add (.mk f.tag f.attributes f.children) frames else none

/-- What may follow a name or an attribute in a start tag. -/
def stepAfter (frames : List Frame) (tag : List Char) (attributes : List Attribute) (c : Char) :
    Option Reader :=
  if isSpace c then some ⟨.between tag attributes, frames⟩
  else if c = '/' then some ⟨.slash tag attributes, frames⟩
  else if c = '>' then some ⟨.content, ⟨String.ofList tag, attributes, []⟩ :: frames⟩
  else none

def Reader.step (r : Reader) (c : Char) : Option Reader :=
  match r.mode with
  | .content => some (if c = '<' then ⟨.markup, r.frames⟩ else r)
  | .markup =>
    if c = '/' then some ⟨.endName [], r.frames⟩
    else if c = '!' then some ⟨.bang 0, r.frames⟩
    else if c = '?' then some ⟨.instruction false, r.frames⟩
    else if isTagStart c then some ⟨.startName [c], r.frames⟩
    else none
  | .instruction asked =>
    if asked && c = '>' then some ⟨.content, r.frames⟩
    else some ⟨.instruction (c = '?'), r.frames⟩
  | .bang dashes =>
    if c ≠ '-' then none
    else if dashes = 0 then some ⟨.bang 1, r.frames⟩ else some ⟨.comment 0, r.frames⟩
  | .comment dashes =>
    if dashes = 2 then if c = '>' then some ⟨.content, r.frames⟩ else none
    else some ⟨.comment (if c = '-' then dashes + 1 else 0), r.frames⟩
  | .startName tag =>
    if isTagChar c then some ⟨.startName (tag ++ [c]), r.frames⟩ else stepAfter r.frames tag [] c
  | .after tag attributes => stepAfter r.frames tag attributes c
  | .between tag attributes =>
    if isTagStart c then some ⟨.key tag attributes [c], r.frames⟩
    else stepAfter r.frames tag attributes c
  | .key tag attributes name =>
    if c = '=' then some ⟨.equals tag attributes name, r.frames⟩
    else if isTagChar c then some ⟨.key tag attributes (name ++ [c]), r.frames⟩
    else none
  | .equals tag attributes name =>
    if c = '"' then some ⟨.value tag attributes name [], r.frames⟩ else none
  | .value tag attributes name value =>
    if c = '"' then
      some ⟨.after tag (attributes ++ [⟨String.ofList name, String.ofList value⟩]), r.frames⟩
    else if isValueChar c then some ⟨.value tag attributes name (value ++ [c]), r.frames⟩
    else none
  | .slash tag attributes =>
    if c = '>' then
      (add (.mk (String.ofList tag) attributes []) r.frames).map fun frames => ⟨.content, frames⟩
    else none
  | .endName tag =>
    if c = '>' then
      (close (String.ofList tag) r.frames).map fun frames => ⟨.content, frames⟩
    else if isTagChar c then some ⟨.endName (tag ++ [c]), r.frames⟩
    else none

def Reader.run (r : Reader) : List Char → Option Reader
  | [] => some r
  | c :: cs => (r.step c).bind fun r => r.run cs

/-- The root element of a document. -/
def read? (s : String) : Option Element :=
  match (⟨.content, [⟨"", [], []⟩]⟩ : Reader).run s.toList with
  | some ⟨.content, [⟨_, _, [root]⟩]⟩ => some root
  | _ => none

theorem run_cons (r : Reader) (c : Char) (cs : List Char) :
    r.run (c :: cs) = (r.step c).bind fun r => r.run cs := rfl

/-- Characters that a mode passes over. -/
theorem run_pass {r : Reader} {cs : List Char} (h : ∀ c ∈ cs, r.step c = some r)
    (rest : List Char) : r.run (cs ++ rest) = r.run rest := by
  induction cs with
  | nil => rfl
  | cons c cs ih =>
    rw [List.cons_append, run_cons, h c (List.mem_cons_self ..), Option.bind_some]
    exact ih fun d hd => h d (List.mem_cons_of_mem _ hd)

/-- Characters that a mode collects. -/
theorem run_collect {mode : List Char → Mode} {frames : List Frame} {cs : List Char}
    (h : ∀ before, ∀ c ∈ cs,
      Reader.step ⟨mode before, frames⟩ c = some ⟨mode (before ++ [c]), frames⟩)
    (before rest : List Char) :
    (⟨mode before, frames⟩ : Reader).run (cs ++ rest) =
      (⟨mode (before ++ cs), frames⟩ : Reader).run rest := by
  induction cs generalizing before with
  | nil => rw [List.append_nil, List.nil_append]
  | cons c cs ih =>
    rw [List.cons_append, run_cons, h before c (List.mem_cons_self ..), Option.bind_some,
      ih fun before d hd => h before d (List.mem_cons_of_mem _ hd), List.append_assoc]
    rfl

/-! ## Texts that need no escape -/

def isTagName (s : String) : Bool :=
  match s.toList with
  | [] => false
  | c :: cs => isTagStart c && cs.all isTagChar

structure Attribute.Clean (a : Attribute) : Prop where
  name : isTagName a.name = true
  value : Only isValueChar a.value

instance (a : Attribute) : Decidable a.Clean :=
  decidable_of_iff (isTagName a.name = true ∧ Only isValueChar a.value)
    ⟨fun h => ⟨h.1, h.2⟩, fun h => ⟨h.name, h.value⟩⟩

mutual

/-- All names in a tree are names, no value ends its quotes, and no comment ends early. -/
def Node.Clean : Node → Prop
  | .leaf tag attributes => isTagName tag = true ∧ ∀ a ∈ attributes, a.Clean
  | .element tag attributes _ children =>
    isTagName tag = true ∧ (∀ a ∈ attributes, a.Clean) ∧ Node.AllClean children
  | .comment text => '-' ∉ text.toList
  | .blank => True

def Node.AllClean : List Node → Prop
  | [] => True
  | n :: rest => n.Clean ∧ Node.AllClean rest

end

mutual

/-- The elements that a node stands for. -/
def Node.elements : Node → List Element
  | .leaf tag attributes => [.mk tag attributes []]
  | .element tag attributes _ children => [.mk tag attributes (Node.allElements children)]
  | .comment _ | .blank => []

def Node.allElements : List Node → List Element
  | [] => []
  | n :: rest => n.elements ++ Node.allElements rest

end

theorem allClean_iff {nodes : List Node} : Node.AllClean nodes ↔ ∀ n ∈ nodes, n.Clean := by
  induction nodes with
  | nil => simp [Node.AllClean]
  | cons n rest ih => simp [Node.AllClean, ih]

theorem allElements_eq (nodes : List Node) :
    Node.allElements nodes = nodes.flatMap Node.elements := by
  induction nodes with
  | nil => rfl
  | cons n rest ih => rw [Node.allElements, ih, List.flatMap_cons]

/-! ## Reading a start tag -/

section Tag

variable {frames : List Frame} {tag : List Char} {attributes : List Attribute}

theorem run_startName {cs : List Char} (h : ∀ c ∈ cs, isTagChar c = true) (rest : List Char) :
    (⟨.startName tag, frames⟩ : Reader).run (cs ++ rest) =
      (⟨.startName (tag ++ cs), frames⟩ : Reader).run rest :=
  run_collect (fun _ c hc => by simp only [Reader.step, h c hc, if_true]) tag rest

theorem run_tagName {name : String} (h : isTagName name = true) (rest : List Char) :
    (⟨.markup, frames⟩ : Reader).run (name.toList ++ rest) =
      (⟨.startName name.toList, frames⟩ : Reader).run rest := by
  unfold isTagName at h
  cases hname : name.toList with
  | nil => simp [hname] at h
  | cons c cs =>
    simp only [hname, Bool.and_eq_true, List.all_eq_true] at h
    have hstart := h.1
    have hslash : c ≠ '/' ∧ c ≠ '!' ∧ c ≠ '?' := by
      refine ⟨?_, ?_, ?_⟩ <;> rintro rfl <;> revert hstart <;> decide
    rw [List.cons_append, run_cons]
    simp only [Reader.step, hslash, hstart, if_false, if_true, Option.bind_some]
    rw [run_startName h.2]
    rfl

/-- A character that is not part of the name ends it. -/
theorem run_nameEnd {c : Char} (h : isTagChar c = false) (rest : List Char) :
    (⟨.startName tag, frames⟩ : Reader).run (c :: rest) =
      (⟨.after tag [], frames⟩ : Reader).run (c :: rest) := by
  simp only [run_cons, Reader.step, h, if_neg Bool.false_ne_true]

theorem run_key {name cs : List Char} (h : ∀ c ∈ cs, isTagChar c = true) (rest : List Char) :
    (⟨.key tag attributes name, frames⟩ : Reader).run (cs ++ rest) =
      (⟨.key tag attributes (name ++ cs), frames⟩ : Reader).run rest := by
  refine run_collect (fun _ c hc => ?_) name rest
  have hchar := h c hc
  have heq : c ≠ '=' := by rintro rfl; revert hchar; decide
  simp only [Reader.step, heq, hchar, if_false, if_true]

theorem run_value {name value cs : List Char} (h : ∀ c ∈ cs, isValueChar c = true)
    (rest : List Char) :
    (⟨.value tag attributes name value, frames⟩ : Reader).run (cs ++ rest) =
      (⟨.value tag attributes name (value ++ cs), frames⟩ : Reader).run rest := by
  refine run_collect (fun _ c hc => ?_) value rest
  have hchar := h c hc
  have hquote : c ≠ '"' := by rintro rfl; revert hchar; decide
  simp only [Reader.step, hquote, hchar, if_false, if_true]

theorem run_attribute {a : Attribute} (ha : a.Clean) (rest : List Char) :
    (⟨.between tag attributes, frames⟩ : Reader).run (a.text.toList ++ rest) =
      (⟨.after tag (attributes ++ [a]), frames⟩ : Reader).run rest := by
  have hname := ha.name
  unfold isTagName at hname
  cases hcs : a.name.toList with
  | nil => simp [hcs] at hname
  | cons c cs =>
    simp only [hcs, Bool.and_eq_true, List.all_eq_true] at hname
    have htext : a.text.toList ++ rest =
        c :: (cs ++ '=' :: '"' :: (a.value.toList ++ '"' :: rest)) := by
      simp [Attribute.text, hcs]
    rw [htext, run_cons]
    simp only [Reader.step, hname.1, if_true, Option.bind_some]
    rw [run_key hname.2, run_cons]
    simp only [Reader.step, if_true, Option.bind_some]
    rw [run_cons]
    simp only [Reader.step, if_true, Option.bind_some]
    rw [run_value ha.value, run_cons]
    simp only [Reader.step, if_true, Option.bind_some]
    rw [List.singleton_append, ← hcs, List.nil_append, String.ofList_toList, String.ofList_toList]

theorem run_spaces {ws : List Char} (h : ∀ c ∈ ws, isSpace c = true) (rest : List Char) :
    (⟨.between tag attributes, frames⟩ : Reader).run (ws ++ rest) =
      (⟨.between tag attributes, frames⟩ : Reader).run rest := by
  refine run_pass (fun c hc => ?_) rest
  have hspace := h c hc
  have hstart : isTagStart c = false := by
    simp only [isSpace, Bool.or_eq_true, beq_iff_eq] at hspace
    rcases hspace with ((rfl | rfl) | rfl) | rfl <;> decide
  simp only [Reader.step, hstart, stepAfter, hspace, if_true, if_neg Bool.false_ne_true]

variable {blank : Char} {ws : List Char}

theorem run_attributes (hblank : isSpace blank = true) (hws : ∀ c ∈ ws, isSpace c = true)
    {more : List Attribute} (h : ∀ a ∈ more, a.Clean) (rest : List Char) :
    (⟨.after tag attributes, frames⟩ : Reader).run
        (more.flatMap (fun a => blank :: ws ++ a.text.toList) ++ rest) =
      (⟨.after tag (attributes ++ more), frames⟩ : Reader).run rest := by
  induction more generalizing attributes with
  | nil => simp
  | cons a more ih =>
    have ih := @ih (attributes ++ [a]) fun b hb => h b (List.mem_cons_of_mem _ hb)
    rw [List.flatMap_cons, List.append_assoc, List.cons_append, List.cons_append, run_cons]
    simp only [Reader.step, stepAfter, hblank, if_true, Option.bind_some]
    rw [List.append_assoc, run_spaces hws, run_attribute (h a (List.mem_cons_self ..)), ih,
      List.append_assoc]
    rfl

theorem run_startTag {name : String} (hname : isTagName name = true)
    (hblank : isSpace blank = true) (hws : ∀ c ∈ ws, isSpace c = true)
    (h : ∀ a ∈ attributes, a.Clean) {c : Char} (hc : isTagChar c = false) (rest : List Char) :
    (⟨.content, frames⟩ : Reader).run
        ('<' :: (name.toList ++
          (attributes.flatMap (fun a => blank :: ws ++ a.text.toList) ++ c :: rest))) =
      (⟨.after name.toList attributes, frames⟩ : Reader).run (c :: rest) := by
  rw [run_cons]
  simp only [Reader.step, if_true, Option.bind_some]
  rw [run_tagName hname]
  -- What follows the name is the blank of the first attribute, or else `c`.
  cases attributes with
  | nil => exact run_nameEnd hc rest
  | cons a attributes =>
    have hspace : isTagChar blank = false := by
      simp only [isSpace, Bool.or_eq_true, beq_iff_eq] at hblank
      rcases hblank with ((rfl | rfl) | rfl) | rfl <;> decide
    have hrun := @run_attributes frames name.toList [] blank ws hblank hws _ h (c :: rest)
    rw [List.nil_append] at hrun
    rw [← hrun, List.flatMap_cons, List.append_assoc, List.cons_append, List.cons_append]
    exact run_nameEnd hspace _

end Tag

/-! ## Reading lines -/

/-- The characters of lines, each with its line break. -/
def chars (lines : List String) : List Char := lines.flatMap fun s => s.toList ++ ['\n']

@[simp] theorem chars_nil : chars [] = [] := rfl

@[simp] theorem chars_cons (s : String) (lines : List String) :
    chars (s :: lines) = s.toList ++ '\n' :: chars lines := by
  simp [chars]

@[simp] theorem chars_append (xs ys : List String) : chars (xs ++ ys) = chars xs ++ chars ys :=
  List.flatMap_append

theorem run_content {cs : List Char} (h : '<' ∉ cs) (frames : List Frame) (rest : List Char) :
    (⟨.content, frames⟩ : Reader).run (cs ++ rest) = (⟨.content, frames⟩ : Reader).run rest := by
  refine run_pass (fun c hc => ?_) rest
  have hc : c ≠ '<' := fun he => h (he ▸ hc)
  simp only [Reader.step, hc, if_false]

/-- A line break between lines. -/
theorem run_break (frames : List Frame) (rest : List Char) :
    (⟨.content, frames⟩ : Reader).run ('\n' :: rest) = (⟨.content, frames⟩ : Reader).run rest :=
  rfl

theorem run_comment {cs : List Char} (h : '-' ∉ cs) (frames : List Frame) (rest : List Char) :
    (⟨.comment 0, frames⟩ : Reader).run (cs ++ rest) =
      (⟨.comment 0, frames⟩ : Reader).run rest := by
  refine run_pass (fun c hc => ?_) rest
  have hc : c ≠ '-' := fun he => h (he ▸ hc)
  simp only [Reader.step, hc, if_false]
  rfl

theorem run_endName {tag cs : List Char} (h : ∀ c ∈ cs, isTagChar c = true) (frames : List Frame)
    (rest : List Char) :
    (⟨.endName tag, frames⟩ : Reader).run (cs ++ rest) =
      (⟨.endName (tag ++ cs), frames⟩ : Reader).run rest := by
  refine run_collect (fun _ c hc => ?_) tag rest
  have hchar := h c hc
  have hend : c ≠ '>' := by rintro rfl; revert hchar; decide
  simp only [Reader.step, hend, hchar, if_false, if_true]

theorem isTagChar_of_mem {name : String} (h : isTagName name = true) {c : Char}
    (hc : c ∈ name.toList) : isTagChar c = true := by
  unfold isTagName at h
  cases hname : name.toList with
  | nil => simp [hname] at h
  | cons d cs =>
    simp only [hname, Bool.and_eq_true, List.all_eq_true] at h
    rw [hname] at hc
    rcases List.mem_cons.1 hc with rfl | hc
    · have hstart := h.1
      simp only [isTagStart, isNameStart, Bool.or_eq_true, beq_iff_eq] at hstart
      rcases hstart with (rfl | halpha) | rfl
      · decide
      · simp [isTagChar, isNameRest, Char.isAlphanum, halpha]
      · decide
    · exact h.2 c hc

theorem run_endTag {name : String} (h : isTagName name = true) (attributes : List Attribute)
    (children : List Element) (f : Frame) (frames : List Frame) (rest : List Char) :
    (⟨.content, ⟨name, attributes, children⟩ :: f :: frames⟩ : Reader).run
        ('<' :: '/' :: (name.toList ++ '>' :: rest)) =
      (⟨.content, f.extend [.mk name attributes children] :: frames⟩ : Reader).run rest := by
  rw [run_cons]
  simp only [Reader.step, if_true, Option.bind_some]
  rw [run_cons]
  simp only [Reader.step, if_true, Option.bind_some]
  rw [run_endName fun c hc => isTagChar_of_mem h hc, run_cons, List.nil_append]
  simp [Reader.step, close, add]

theorem toList_inlineAttributes (attributes : List Attribute) :
    (inlineAttributes attributes).toList =
      attributes.flatMap fun a => ' ' :: [] ++ a.text.toList := by
  simp [inlineAttributes, String.toList_join, List.flatMap_def, Function.comp_def]

/-- Of pieces on lines of their own, the line break before each can count as its first character. -/
theorem shift_lineBreaks {α : Type} (f : α → List Char) (xs : List α) (rest : List Char) :
    '\n' :: (xs.flatMap (fun x => f x ++ ['\n']) ++ rest) =
      xs.flatMap (fun x => '\n' :: f x) ++ '\n' :: rest := by
  induction xs with
  | nil => rfl
  | cons x xs ih =>
    simp only [List.flatMap_cons, List.append_assoc, List.cons_append, List.nil_append, ih]

/-- In a start tag, blanks stand in front of each attribute. -/
theorem chars_startTag {indent : String} (hindent : Only isSpace indent) (tag : String)
    (attributes : List Attribute) (spread : Bool) :
    ∃ blank ws, isSpace blank = true ∧ (∀ c ∈ ws, isSpace c = true) ∧
      chars (startTag indent tag attributes spread) =
        indent.toList ++ '<' :: (tag.toList ++
          (attributes.flatMap (fun a => blank :: ws ++ a.text.toList) ++ ['>', '\n'])) := by
  unfold startTag
  split
  · rename_i last before hreverse
    refine ⟨ '\n', indent.toList ++ [' ', ' '], by decide, ?_, ?_⟩
    · intro c hc
      rcases List.mem_append.1 hc with hc | hc
      · exact hindent c hc
      · have hblanks : ∀ c ∈ [' ', ' '], isSpace c = true := List.all_eq_true.1 (by decide)
        exact hblanks c hc
    · have hattributes : attributes = before.reverse ++ [last] := by
        rw [← List.reverse_reverse attributes, hreverse, List.reverse_cons]
      have hshift := shift_lineBreaks
        (fun a : Attribute => indent.toList ++ ' ' :: ' ' :: a.text.toList) before.reverse
      simp only [List.cons_append, List.append_assoc] at hshift
      simp [hattributes, chars, -List.map_reverse, List.flatMap_map, hshift]
  · refine ⟨ ' ', [], by decide, by simp, ?_⟩
    simp [toList_inlineAttributes]

@[simp] theorem Frame.extend_nil (f : Frame) : f.extend [] = f := by
  simp [Frame.extend]

@[simp] theorem Frame.extend_extend (f : Frame) (xs ys : List Element) :
    (f.extend xs).extend ys = f.extend (xs ++ ys) := by
  simp [Frame.extend]

theorem not_lt_of_space {s : String} (h : Only isSpace s) : '<' ∉ s.toList :=
  h.not_mem (by decide)

section Lines

variable {indent : String} (f : Frame) (frames : List Frame) (rest : List Char)

theorem run_leaf (hindent : Only isSpace indent) {tag : String} {attributes : List Attribute}
    (htag : isTagName tag = true) (h : ∀ a ∈ attributes, a.Clean) :
    (⟨.content, f :: frames⟩ : Reader).run
        (chars ((Node.leaf tag attributes).lines indent) ++ rest) =
      (⟨.content, f.extend [.mk tag attributes []] :: frames⟩ : Reader).run rest := by
  have hchars : chars ((Node.leaf tag attributes).lines indent) ++ rest =
      indent.toList ++ '<' :: (tag.toList ++
        (attributes.flatMap (fun a => ' ' :: [] ++ a.text.toList) ++
          '/' :: '>' :: '\n' :: rest)) := by
    simp [Node.lines, toList_inlineAttributes]
  rw [hchars, run_content (not_lt_of_space hindent),
    run_startTag htag (by decide) (by simp) h (by decide), run_cons]
  simp only [Reader.step, stepAfter, if_neg Bool.false_ne_true,
    show isSpace '/' = false by decide, if_true, Option.bind_some]
  rw [run_cons]
  simp only [Reader.step, if_true, add, Option.map_some, Option.bind_some, String.ofList_toList]
  exact run_break _ rest

theorem run_open (hindent : Only isSpace indent) {tag : String} {attributes : List Attribute}
    (htag : isTagName tag = true) (h : ∀ a ∈ attributes, a.Clean) (spread : Bool) :
    (⟨.content, f :: frames⟩ : Reader).run
        (chars (startTag indent tag attributes spread) ++ rest) =
      (⟨.content, ⟨tag, attributes, []⟩ :: f :: frames⟩ : Reader).run rest := by
  obtain ⟨blank, ws, hblank, hws, hchars⟩ := chars_startTag hindent tag attributes spread
  rw [hchars, List.append_assoc, run_content (not_lt_of_space hindent), List.cons_append,
    List.append_assoc, List.append_assoc, List.cons_append,
    run_startTag htag hblank hws h (by decide), run_cons]
  simp only [Reader.step, stepAfter, if_neg Bool.false_ne_true, String.ofList_toList,
    show isSpace '>' = false by decide, if_true, if_neg (show '>' ≠ '/' by decide),
    Option.bind_some]
  exact run_break _ rest

theorem run_note (hindent : Only isSpace indent) {text : String} (h : '-' ∉ text.toList) :
    (⟨.content, f :: frames⟩ : Reader).run (chars ((Node.comment text).lines indent) ++ rest) =
      (⟨.content, f :: frames⟩ : Reader).run rest := by
  have hchars : chars ((Node.comment text).lines indent) ++ rest =
      indent.toList ++ '<' :: '!' :: '-' :: '-' :: (' ' :: text.toList ++ [' '] ++
        '-' :: '-' :: '>' :: '\n' :: rest) := by
    simp [Node.lines]
  have hdash : '-' ∉ ' ' :: text.toList ++ [' '] := by
    simp [h]
  rw [hchars, run_content (not_lt_of_space hindent), ← run_break (f :: frames) rest]
  exact run_comment hdash (f :: frames) ('-' :: '-' :: '>' :: '\n' :: rest)

end Lines

/-! ## Reading a document -/

theorem space_deeper {indent : String} (h : Only isSpace indent) : Only isSpace (indent ++ "  ") :=
  Text.only_append.2 ⟨h, by decide⟩

mutual

/-- The lines of a node leave its elements in the innermost open element, and nothing open. -/
theorem run_lines {indent : String} (hindent : Only isSpace indent) (n : Node) (h : n.Clean)
    (f : Frame) (frames : List Frame) (rest : List Char) :
    (⟨.content, f :: frames⟩ : Reader).run (chars (n.lines indent) ++ rest) =
      (⟨.content, f.extend n.elements :: frames⟩ : Reader).run rest := by
  cases n with
  | leaf tag attributes =>
    rw [Node.Clean] at h
    exact run_leaf f frames rest hindent h.1 h.2
  | element tag attributes spread children =>
    obtain ⟨htag, hattributes, hchildren⟩ := h
    rw [Node.lines, chars_append, chars_append, List.append_assoc, List.append_assoc,
      run_open f frames _ hindent htag hattributes,
      run_allLines (space_deeper hindent) children hchildren]
    have hend : chars [indent ++ "</" ++ tag ++ ">"] ++ rest =
        indent.toList ++ '<' :: '/' :: (tag.toList ++ '>' :: '\n' :: rest) := by
      simp
    rw [hend, run_content (not_lt_of_space hindent)]
    exact (run_endTag htag _ _ f frames _).trans (run_break _ rest)
  | comment text =>
    rw [Node.Clean] at h
    rw [Node.elements, Frame.extend_nil]
    exact run_note f frames rest hindent h
  | blank =>
    rw [Node.elements, Frame.extend_nil]
    exact run_break _ rest

theorem run_allLines {indent : String} (hindent : Only isSpace indent) (nodes : List Node)
    (h : Node.AllClean nodes) (f : Frame) (frames : List Frame) (rest : List Char) :
    (⟨.content, f :: frames⟩ : Reader).run (chars (Node.allLines indent nodes) ++ rest) =
      (⟨.content, f.extend (Node.allElements nodes) :: frames⟩ : Reader).run rest := by
  cases nodes with
  | nil => rw [Node.allElements, Frame.extend_nil]; rfl
  | cons n nodes =>
    obtain ⟨hn, hnodes⟩ := h
    rw [Node.allLines, chars_append, List.append_assoc, run_lines hindent n hn,
      run_allLines hindent nodes hnodes, Frame.extend_extend, Node.allElements]

end

theorem toList_join_lines (lines : List String) :
    (String.join (lines.map (· ++ "\n"))).toList = chars lines := by
  simp [String.toList_join, List.flatMap_def, chars, Function.comp_def]

/-- The lines of a document are read back as the element that they were written for. -/
theorem read?_documentLines {root : Node} (h : root.Clean) {e : Element}
    (he : root.elements = [e]) :
    read? (String.join ((documentLines root).map (· ++ "\n"))) = some e := by
  have hindent : Only isSpace "" := by decide
  have hroot := run_lines hindent root h ⟨"", [], []⟩ [] []
  rw [List.append_nil, he] at hroot
  have hprolog : ∀ (frames : List Frame) (rest : List Char),
      (⟨.content, frames⟩ : Reader).run
          ("<?xml version=\"1.0\" encoding=\"UTF-8\"?>".toList ++ '\n' :: rest) =
        (⟨.content, frames⟩ : Reader).run rest :=
    fun _ _ => rfl
  rw [read?, toList_join_lines, documentLines, chars_cons, hprolog, hroot]
  rfl

end Xml
end LtiUnit
