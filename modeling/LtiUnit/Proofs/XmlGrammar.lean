import LtiUnit.Proofs.XmlReader

/-!
# LtiUnit.Proofs.XmlGrammar

The well-formed XML documents in which elements hold elements, comments and blanks, as a grammar:
`DocumentText` says what the text of a root element looks like, with no regard to how it is read or
written.

`documentText_of_clean` — what is written for a tree is such a text.
-/

namespace LtiUnit
namespace Xml

open Text (Only)

/-! ## The grammar -/

/-- Whether a document may hold a character. -/
def isLegal (c : Char) : Bool :=
  isSpace c || 0x20 ≤ c.toNat && c.toNat != 0xFFFE && c.toNat != 0xFFFF

/-- The attributes in a start tag: each after a blank, and no two with the same name. -/
inductive AttributeText : List Char → List Attribute → Prop where
  | nil : AttributeText [] []
  | cons {ws cs : List Char} {a : Attribute} {attributes : List Attribute}
      (blank : ws ≠ []) (spaces : ∀ c ∈ ws, isSpace c = true)
      (name : isTagName a.name = true) (fresh : ∀ b ∈ attributes, b.name ≠ a.name)
      (value : ∀ c ∈ a.value.toList, isValueChar c = true ∧ isLegal c = true)
      (rest : AttributeText cs attributes) :
      AttributeText (ws ++ a.name.toList ++ '=' :: '"' :: (a.value.toList ++ '"' :: cs))
        (a :: attributes)

/-- What stands between a start tag and its end tag, and the elements in it. -/
inductive ContentText : List Char → List Element → Prop where
  | nil : ContentText [] []
  | space {c : Char} {cs : List Char} {es : List Element} (space : isSpace c = true)
      (rest : ContentText cs es) : ContentText (c :: cs) es
  /-- Counting the first of the dashes that end a comment, no two in it follow one another. -/
  | comment {body cs : List Char} {es : List Element} (legal : ∀ c ∈ body, isLegal c = true)
      (apart : ¬ ['-', '-'] <:+: body ++ ['-']) (rest : ContentText cs es) :
      ContentText ('<' :: '!' :: '-' :: '-' :: (body ++ '-' :: '-' :: '>' :: cs)) es
  | closed {tag : String} {attributes : List Attribute} {inside cs : List Char}
      {es : List Element} (name : isTagName tag = true)
      (attributeText : AttributeText inside attributes) (rest : ContentText cs es) :
      ContentText ('<' :: (tag.toList ++ (inside ++ '/' :: '>' :: cs)))
        (.mk tag attributes [] :: es)
  /-- The end tag carries the name of the start tag. -/
  | element {tag : String} {attributes : List Attribute} {children es : List Element}
      {inside content cs : List Char} (name : isTagName tag = true)
      (attributeText : AttributeText inside attributes)
      (contentText : ContentText content children) (rest : ContentText cs es) :
      ContentText ('<' :: (tag.toList ++ (inside ++ '>' :: (content ++
        '<' :: '/' :: (tag.toList ++ '>' :: cs))))) (.mk tag attributes children :: es)

/-- A document: a declaration, and then one element with nothing but comments and blanks around
it. -/
inductive DocumentText : String → Element → Prop where
  | document {cs : List Char} {root : Element} (content : ContentText cs [root]) :
      DocumentText (String.ofList
        ("<?xml version=\"1.0\" encoding=\"UTF-8\"?>".toList ++ cs)) root

/-! ## Trees that can be written -/

mutual

/-- A node and all that is in it. -/
def Node.nodes : Node → List Node
  | .element tag attributes spread children =>
    .element tag attributes spread children :: Node.allNodes children
  | n => [n]

def Node.allNodes : List Node → List Node
  | [] => []
  | n :: rest => n.nodes ++ Node.allNodes rest

end

theorem allNodes_eq (nodes : List Node) : Node.allNodes nodes = nodes.flatMap Node.nodes := by
  induction nodes with
  | nil => rfl
  | cons n rest ih => rw [Node.allNodes, ih, List.flatMap_cons]

def ProperAttributes (attributes : List Attribute) : Prop :=
  (attributes.map (·.name)).Nodup ∧ ∀ a ∈ attributes, Only isLegal a.value

/-- By itself, a node has no attribute twice and holds only characters that a document may hold. -/
def Node.Proper : Node → Prop
  | .leaf _ attributes | .element _ attributes _ _ => ProperAttributes attributes
  | .comment text => Only isLegal text
  | .blank => True

/-- Whether a character is a blank or can be seen, in the first 128. -/
def isPrinted (c : Char) : Bool := 0x20 ≤ c.toNat && c.toNat < 0x7F

def PrintedAttributes (attributes : List Attribute) : Prop :=
  (attributes.map (·.name)).Nodup ∧ ∀ a ∈ attributes, Only isPrinted a.value

/-- By itself, a node has no attribute twice and holds only printed characters. -/
def Node.Printed : Node → Prop
  | .leaf _ attributes | .element _ attributes _ _ => PrintedAttributes attributes
  | .comment text => Only isPrinted text
  | .blank => True

theorem legal_of_printed {s : String} (h : Only isPrinted s) : Only isLegal s := by
  refine h.mono fun c hc => ?_
  simp only [isPrinted, Bool.and_eq_true, decide_eq_true_eq] at hc
  simp only [isLegal, Bool.or_eq_true, Bool.and_eq_true, decide_eq_true_eq, bne_iff_ne]
  omega

theorem Node.Printed.proper {n : Node} (h : n.Printed) : n.Proper := by
  cases n with
  | leaf | element => exact ⟨h.1, fun a ha => legal_of_printed (h.2 a ha)⟩
  | comment => exact legal_of_printed h
  | blank => trivial

section Written

variable {indent : String} {cs : List Char} {es : List Element}

theorem isLegal_of_isSpace {c : Char} (h : isSpace c = true) : isLegal c = true := by
  rw [isLegal, h, Bool.true_or]

theorem attributeText_of_clean (blank : Char) (ws : List Char) (hblank : isSpace blank = true)
    (hws : ∀ c ∈ ws, isSpace c = true) {attributes : List Attribute}
    (hclean : ∀ a ∈ attributes, a.Clean) (hproper : ProperAttributes attributes) :
    AttributeText (attributes.flatMap fun a => blank :: ws ++ a.text.toList) attributes := by
  induction attributes with
  | nil => exact .nil
  | cons a attributes ih =>
    obtain ⟨hnodup, hlegal⟩ := hproper
    rw [List.map_cons, List.nodup_cons] at hnodup
    rw [List.forall_mem_cons] at hclean hlegal
    have hfresh : ∀ b ∈ attributes, b.name ≠ a.name :=
      fun b hb he => hnodup.1 (he ▸ List.mem_map_of_mem hb)
    have hrest := ih hclean.2 ⟨hnodup.2, hlegal.2⟩
    have hspaces : ∀ c ∈ blank :: ws, isSpace c = true := List.forall_mem_cons.2 ⟨hblank, hws⟩
    have hcons := AttributeText.cons (List.cons_ne_nil blank ws) hspaces hclean.1.name hfresh
      (fun c hc => ⟨hclean.1.value c hc, hlegal.1 c hc⟩) hrest
    simpa [Attribute.text] using hcons

theorem contentText_spaces {ws : List Char} (h : ∀ c ∈ ws, isSpace c = true)
    (hrest : ContentText cs es) : ContentText (ws ++ cs) es := by
  induction ws with
  | nil => exact hrest
  | cons c ws ih =>
    rw [List.forall_mem_cons] at h
    exact .space h.1 (ih h.2)

theorem contentText_break (hrest : ContentText cs es) : ContentText ('\n' :: cs) es :=
  .space (by decide) hrest

/-- Two dashes one after the other would be a dash of the comment's own. -/
theorem apart_of_not_mem {body : List Char} (h : '-' ∉ body) :
    ¬ ['-', '-'] <:+: body ++ ['-'] := by
  rintro ⟨before, after, heq⟩
  have hcount := congrArg (List.count '-') heq
  simp only [List.count_append, List.count_eq_zero_of_not_mem h] at hcount
  simp only [List.count_cons_self, List.count_nil] at hcount
  omega

theorem contentText_note (hindent : Only isSpace indent) {text : String} (h : '-' ∉ text.toList)
    (hlegal : Only isLegal text) (hrest : ContentText cs es) :
    ContentText (chars ((Node.comment text).lines indent) ++ cs) es := by
  have hbody : ∀ c ∈ ' ' :: text.toList ++ [' '], isLegal c = true := by
    rw [List.forall_mem_append, List.forall_mem_cons, List.forall_mem_singleton]
    exact ⟨⟨isLegal_of_isSpace rfl, hlegal⟩, isLegal_of_isSpace rfl⟩
  have hdash : '-' ∉ ' ' :: text.toList ++ [' '] := by
    simp [h]
  have hcomment := contentText_spaces hindent
    (.comment hbody (apart_of_not_mem hdash) (contentText_break hrest))
  simpa [Node.lines] using hcomment

theorem contentText_leaf (hindent : Only isSpace indent) {tag : String}
    {attributes : List Attribute} (htag : isTagName tag = true)
    (hclean : ∀ a ∈ attributes, a.Clean) (hproper : ProperAttributes attributes)
    (hrest : ContentText cs es) :
    ContentText (chars ((Node.leaf tag attributes).lines indent) ++ cs)
      (.mk tag attributes [] :: es) := by
  have hattributes := attributeText_of_clean ' ' [] rfl (by simp) hclean hproper
  have hclosed := contentText_spaces hindent
    (.closed htag hattributes (contentText_break hrest))
  simpa [Node.lines, toList_inlineAttributes] using hclosed

/-- A start tag, lines that stand for some elements, and the end tag. -/
theorem contentText_tagged (hindent : Only isSpace indent) {tag : String}
    {attributes : List Attribute} (htag : isTagName tag = true)
    (hclean : ∀ a ∈ attributes, a.Clean) (hproper : ProperAttributes attributes) (spread : Bool)
    {lines : List String} {children : List Element}
    (hlines : ContentText (chars lines ++ indent.toList) children) (hrest : ContentText cs es) :
    ContentText
      (chars (startTag indent tag attributes spread ++ lines ++ [indent ++ "</" ++ tag ++ ">"]) ++
        cs)
      (.mk tag attributes children :: es) := by
  obtain ⟨blank, ws, hblank, hws, hchars⟩ := chars_startTag hindent tag attributes spread
  have hattributes := attributeText_of_clean blank ws hblank hws hclean hproper
  have helement := contentText_spaces hindent
    (.element htag hattributes (contentText_break hlines) (contentText_break hrest))
  simpa [hchars] using helement

end Written

mutual

/-- The lines of a node stand for its elements, whatever follows them. -/
theorem contentText_lines {indent : String} {cs : List Char} {es : List Element}
    (hindent : Only isSpace indent) (n : Node) (h : n.Clean)
    (hproper : ∀ x ∈ n.nodes, x.Proper) (hrest : ContentText cs es) :
    ContentText (chars (n.lines indent) ++ cs) (n.elements ++ es) := by
  cases n with
  | leaf tag attributes =>
    rw [Node.Clean] at h
    exact contentText_leaf hindent h.1 h.2 (hproper _ (List.mem_singleton.2 rfl)) hrest
  | element tag attributes spread children =>
    obtain ⟨htag, hattributes, hchildren⟩ := h
    rw [Node.nodes, List.forall_mem_cons] at hproper
    -- the indentation of the end tag is the last of what is between the tags
    have hend : ContentText indent.toList [] := by
      have hspaces := contentText_spaces hindent .nil
      rwa [List.append_nil] at hspaces
    have hlines := contentText_allLines (space_deeper hindent) children hchildren hproper.2 hend
    rw [List.append_nil] at hlines
    exact contentText_tagged hindent htag hattributes hproper.1 spread hlines hrest
  | comment text =>
    rw [Node.Clean] at h
    exact contentText_note hindent h (hproper _ (List.mem_singleton.2 rfl)) hrest
  | blank => exact contentText_break hrest

theorem contentText_allLines {indent : String} {cs : List Char} {es : List Element}
    (hindent : Only isSpace indent) (nodes : List Node) (h : Node.AllClean nodes)
    (hproper : ∀ x ∈ Node.allNodes nodes, x.Proper)
    (hrest : ContentText cs es) :
    ContentText (chars (Node.allLines indent nodes) ++ cs) (Node.allElements nodes ++ es) := by
  cases nodes with
  | nil => exact hrest
  | cons n nodes =>
    obtain ⟨hn, hnodes⟩ := h
    rw [Node.allNodes, List.forall_mem_append] at hproper
    have hothers := contentText_allLines hindent nodes hnodes hproper.2 hrest
    rw [Node.allLines, chars_append, List.append_assoc, Node.allElements, List.append_assoc]
    exact contentText_lines hindent n hn hproper.1 hothers

end

/-- What is written for a tree is a document with the element that the tree stands for. -/
theorem documentText_of_clean {root : Node} (h : root.Clean)
    (hproper : ∀ x ∈ root.nodes, x.Proper) {e : Element} (he : root.elements = [e]) :
    DocumentText (String.join ((documentLines root).map (· ++ "\n"))) e := by
  have hindent : Only isSpace "" := by decide
  have hcontent := contentText_break (contentText_lines hindent root h hproper .nil)
  rw [he, List.append_nil, List.append_nil] at hcontent
  have htext : String.join ((documentLines root).map (· ++ "\n")) =
      String.ofList ("<?xml version=\"1.0\" encoding=\"UTF-8\"?>".toList ++
        '\n' :: chars (root.lines "")) := by
    rw [← String.toList_inj, toList_join_lines, documentLines, chars_cons]
    exact String.toList_ofList.symm
  rw [htext]
  exact .document hcontent

end Xml
end LtiUnit
