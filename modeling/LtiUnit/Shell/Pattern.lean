import LtiUnit.Files.Walk
import LtiUnit.Text

/-!
# LtiUnit.Shell.Pattern

Patterns of texts: `*` stands for any stretch of characters, `?` for any character, and brackets for
one out of some characters. A pattern may stand for the paths that it covers.
-/

namespace LtiUnit
namespace Shell

/-- A part of a pattern. -/
inductive Glyph where
  | exactly (c : Char)
  | stretch
  | anyone
  /-- A character in one of the ranges, or in none of them, and how that is written. -/
  | among (outside : Bool) (ranges : List (Char × Char)) (written : List Char)
  deriving DecidableEq, Repr

abbrev Pattern := List Glyph

namespace Glyph

def chars : Glyph → List Char
  | .exactly c => [c]
  | .stretch => ['*']
  | .anyone => ['?']
  | .among _ _ written => written

/-- Whether a part stands for a character. -/
def admits : Glyph → Char → Bool
  | .exactly d, c => d == c
  | .stretch, _ => false
  | .anyone, _ => true
  | .among outside ranges _, c =>
    (ranges.any fun (low, high) => decide (low ≤ c ∧ c ≤ high)) != outside

def isWild : Glyph → Bool
  | .exactly _ => false
  | _ => true

/-- The ranges between brackets. -/
def rangesOf : List Char → List (Char × Char)
  | low :: '-' :: high :: cs => (low, high) :: rangesOf cs
  | c :: cs => (c, c) :: rangesOf cs
  | [] => []

/-- What stands behind an opening bracket, and what follows it. A closing bracket that comes first
is a character like others. -/
def bracket? (cs : List Char) : Option (Glyph × List Char) :=
  let (outside, inner) :=
    match cs with
    | '!' :: inner | '^' :: inner => (true, inner)
    | _ => (false, cs)
  match inner with
  | [] => none
  | first :: more =>
    match more.dropWhile (· != ']') with
    | [] => none
    | _ :: rest =>
      some (.among outside (rangesOf (first :: more.takeWhile (· != ']')))
        ('[' :: cs.take (cs.length - rest.length)), rest)

/-- The parts of at most `n` characters. -/
def ofChars : Nat → List Char → Pattern
  | 0, _ | _, [] => []
  | n + 1, '*' :: cs => .stretch :: ofChars n cs
  | n + 1, '?' :: cs => .anyone :: ofChars n cs
  | n + 1, '[' :: cs =>
    match bracket? cs with
    | some (g, rest) => g :: ofChars n rest
    | none => .exactly '[' :: ofChars n cs
  | n + 1, c :: cs => .exactly c :: ofChars n cs

end Glyph

namespace Pattern

def ofText (s : String) : Pattern := Glyph.ofChars s.length s.toList

/-- The pattern that stands for one text only. -/
def literally (s : String) : Pattern := s.toList.map .exactly

def text (p : Pattern) : String := String.ofList (p.flatMap Glyph.chars)

def isWild (p : Pattern) : Bool := p.any Glyph.isWild

/-- What is left of characters as they are taken away one by one. -/
def suffixes : List Char → List (List Char)
  | [] => [[]]
  | c :: cs => (c :: cs) :: suffixes cs

/-- Whether a pattern stands for some characters. -/
def covers : Pattern → List Char → Bool
  | [], cs => cs.isEmpty
  | .stretch :: p, cs => (suffixes cs).any (covers p)
  | g :: p, c :: cs => g.admits c && covers p cs
  | _ :: _, [] => false

/-- Take a stretch that a pattern stands for away from the front or the end, the shortest one or the
longest one. -/
def takeAway (p : Pattern) (atEnd longest : Bool) (cs : List Char) : List Char :=
  let lengths := List.range (cs.length + 1)
  let lengths := if longest then lengths.reverse else lengths
  let stretch (n : Nat) := if atEnd then cs.drop (cs.length - n) else cs.take n
  match lengths.find? fun n => p.covers (stretch n) with
  | some n => if atEnd then cs.take (cs.length - n) else cs.drop n
  | none => cs

/-- The parts of a pattern between slashes. -/
def segments : Pattern → List Pattern
  | [] => [[]]
  | .exactly '/' :: p => [] :: segments p
  | g :: p =>
    match segments p with
    | [] => [[g]]
    | s :: more => (g :: s) :: more

/-- Whether a pattern stands for a name; a leading dot has to be written. -/
def coversName (p : Pattern) (name : String) : Bool :=
  (!name.startsWith "." || p.head? = some (.exactly '.')) && p.covers name.toList

/-- The names in a directory for which a pattern stands, in order. -/
def names (f : Files) (directory : String) (p : Pattern) : List String :=
  match f.list? (.ofText (if directory.isEmpty then "." else directory)) with
  | .ok names => (names.filter (coversName p)).mergeSort fun a b => decide (a ≤ b)
  | .error _ => []

/-- The paths that begin with one of some texts and go on with some parts of a pattern. -/
def grow (f : Files) : List String → List Pattern → List String
  | begun, [] => begun
  | begun, p :: more =>
    let next := begun.flatMap fun b =>
      (if p.isWild then names f b p else [p.text]).map (b ++ ·)
    if more.isEmpty then next else grow f (next.map (· ++ "/")) more

/-- The paths for which a pattern stands, or the pattern itself if there are none. -/
def paths (f : Files) (p : Pattern) : List String :=
  if p.isWild then
    match (grow f [""] p.segments).filter fun t => (f.find? (.ofText t)).toBool with
    | [] => [p.text]
    | found => found
  else [p.text]

end Pattern
end Shell
end LtiUnit
