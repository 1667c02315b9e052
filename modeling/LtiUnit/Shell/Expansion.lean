import LtiUnit.Shell.Pattern
import LtiUnit.Shell.Syntax

/-!
# LtiUnit.Shell.Expansion

What words stand for once their variables and outputs are known. A text that is not quoted is a
pattern, and one that comes from elsewhere is cut at its blanks before.
-/

namespace LtiUnit
namespace Shell

/-- A part of a word whose text is known. -/
inductive Part where
  /-- It is written in the script. -/
  | written (s : String) (quoted : Bool)
  /-- It comes from a variable or an output. -/
  | found (s : String) (quoted : Bool)
  /-- Texts that stay apart. -/
  | each (texts : List String)
  deriving DecidableEq, Repr

namespace Part

/-- The text of some parts that are not cut. -/
def textOf (parts : List Part) : String :=
  String.join (parts.map fun
    | .written s _ | .found s _ => s
    | .each texts => " ".intercalate texts)

def pattern (s : String) (quoted : Bool) : Pattern :=
  if quoted then Pattern.literally s else Pattern.ofText s

/-- The pattern of some parts that are not cut. -/
def patternOf (parts : List Part) : Pattern :=
  parts.flatMap fun
    | .written s quoted | .found s quoted => pattern s quoted
    | .each texts => Pattern.literally (" ".intercalate texts)

end Part

def isBreak (c : Char) : Bool := c == ' ' || c == '\n' || c == '\t'

/-- The words of a text between its blanks. -/
def fields (t : String) : List String :=
  (Text.pieces ' ' (t.map fun c => if isBreak c then ' ' else c)).filter fun w => !w.isEmpty

/-- The words that have been finished, the last ones first, and the word that has been begun. -/
structure Expansion where
  done : List Pattern
  current : Option Pattern

namespace Expansion

def append (e : Expansion) (p : Pattern) : Expansion :=
  { e with current := some (e.current.getD [] ++ p) }

def finish (e : Expansion) : Expansion :=
  match e.current with
  | some w => ⟨w :: e.done, none⟩
  | none => e

/-- Words the first of which goes on with the word that has been begun. -/
def extend (e : Expansion) : List Pattern → Expansion
  | [] => e
  | w :: rest => rest.foldl (fun e w => e.finish.append w) (e.append w)

/-- A text that is cut at its blanks. -/
def split (e : Expansion) (t : String) : Expansion :=
  let e := if (t.toList.head?.map isBreak).getD false then e.finish else e
  let e := e.extend ((fields t).map Pattern.ofText)
  if (t.toList.getLast?.map isBreak).getD false then e.finish else e

def add (e : Expansion) : Part → Expansion
  | .written s quoted => e.append (Part.pattern s quoted)
  | .found s true => e.append (Pattern.literally s)
  | .found s false => e.split s
  | .each texts => e.extend (texts.map Pattern.literally)

end Expansion

/-- The words that the parts of a word stand for, as patterns. -/
def wordsOfParts (parts : List Part) : List Pattern :=
  (parts.foldl Expansion.add ⟨[], none⟩).finish.done.reverse

def Change.apply (value : Option String) : Change → String
  | .asIs => value.getD ""
  | .length => toString (value.getD "").length
  | .orElse emptyToo t =>
    match value with
    | some s => if emptyToo && s.isEmpty then t else s
    | none => t
  | .ifThere emptyToo t =>
    match value with
    | some s => if emptyToo && s.isEmpty then "" else t
    | none => ""
  | .without atEnd longest p =>
    String.ofList ((Pattern.ofText p).takeAway atEnd longest (value.getD "").toList)

end Shell
end LtiUnit
