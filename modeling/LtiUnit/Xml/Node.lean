/-!
# LtiUnit.Xml.Node

XML documents as trees, and their text line by line. Nodes stand on lines of their own, indented
by two blanks for each element around them. Attribute values are written as they are, so they have
to be free of quotes, `<` and `&`.
-/

namespace LtiUnit
namespace Xml

structure Attribute where
  name : String
  value : String
  deriving DecidableEq, Repr

inductive Node where
  /-- An element that closes itself. -/
  | leaf (tag : String) (attributes : List Attribute)
  /-- An element with start and end tags. If it is spread out, each attribute has its own line. -/
  | element (tag : String) (attributes : List Attribute) (spread : Bool) (children : List Node)
  | comment (text : String)
  | blank
  deriving Repr

def Attribute.text (a : Attribute) : String := a.name ++ "=\"" ++ a.value ++ "\""

def inlineAttributes (attributes : List Attribute) : String :=
  String.join (attributes.map fun a => " " ++ a.text)

/-- The lines of a start tag at an indentation. -/
def startTag (indent tag : String) (attributes : List Attribute) (spread : Bool) : List String :=
  match spread, attributes.reverse with
  | true, last :: before =>
    (indent ++ "<" ++ tag) ::
      (before.reverse.map (fun a => indent ++ "  " ++ a.text) ++
        [indent ++ "  " ++ last.text ++ ">"])
  | _, _ => [indent ++ "<" ++ tag ++ inlineAttributes attributes ++ ">"]

mutual

/-- The lines of a node at an indentation. -/
def Node.lines (indent : String) : Node → List String
  | .leaf tag attributes => [indent ++ "<" ++ tag ++ inlineAttributes attributes ++ "/>"]
  | .element tag attributes spread children =>
    startTag indent tag attributes spread ++ Node.allLines (indent ++ "  ") children ++
      [indent ++ "</" ++ tag ++ ">"]
  | .comment text => [indent ++ "<!-- " ++ text ++ " -->"]
  | .blank => [""]

def Node.allLines (indent : String) : List Node → List String
  | [] => []
  | n :: rest => n.lines indent ++ Node.allLines indent rest

end

def documentLines (root : Node) : List String :=
  "<?xml version=\"1.0\" encoding=\"UTF-8\"?>" :: root.lines ""

end Xml
end LtiUnit
