import LtiUnit.Text

/-!
# LtiUnit.Files.Path

Paths as they are written. A path is the list of what stands around its slashes, so nothing is lost
(`ofText_text`, `text_ofText`): an empty first segment is the root, an empty last one a trailing
slash. Its parts are read off as if the empty segments and the dots were not there, except for a dot
in front.
-/

namespace LtiUnit

structure Path where
  segments : List String
  ne_nil : segments ≠ []
  slashless : ∀ s ∈ segments, '/' ∉ s.toList
  deriving DecidableEq, Repr

namespace Path

def ofText (s : String) : Path :=
  ⟨Text.pieces '/' s, Text.pieces_ne_nil '/' s, fun _ h => Text.not_mem_of_mem_pieces h⟩

def text (p : Path) : String := Text.separated "/" p.segments

def empty : Path := ⟨[""], by simp, by simp⟩

def root : Path := ⟨["", ""], by simp, by simp⟩

def isEmpty (p : Path) : Bool := p.segments == [""]

def isAbsolute (p : Path) : Bool :=
  match p.segments with
  | "" :: _ :: _ => true
  | _ => false

/-- Whether the path ends in a slash. -/
def endsInSlash (p : Path) : Bool := p.segments.length ≥ 2 && p.segments.getLast? == some ""

/-- The segments of a path without the one that a trailing slash leaves. -/
def unslashed (p : Path) : List String :=
  if p.endsInSlash then p.segments.dropLast else p.segments

theorem mem_of_mem_unslashed {p : Path} {s : String} (h : s ∈ p.unslashed) : s ∈ p.segments := by
  unfold unslashed at h
  split at h
  · exact List.dropLast_subset _ h
  · exact h

/-- One path after another. An absolute path stands for itself. -/
def join (p q : Path) : Path :=
  if q.isAbsolute || p.isEmpty then q
  else
    { segments := p.unslashed ++ q.segments
      ne_nil := by simp [q.ne_nil]
      slashless := by
        intro s hs
        rcases List.mem_append.1 hs with hs | hs
        · exact p.slashless s (mem_of_mem_unslashed hs)
        · exact q.slashless s hs }

def child (p : Path) (name : String) : Path := p.join (ofText name)

/-- Whether a segment adds nothing to a path. -/
def isIdle (segment : String) : Bool := segment == "" || segment == "."

/-- Segments without the idle ones at their end. -/
def dropIdle (segments : List String) : List String := (segments.reverse.dropWhile isIdle).reverse

/-- The first segment, as long as it counts: a root, or a dot. -/
def lead : List String → List String × List String
  | "" :: rest => ([""], rest)
  | "." :: rest => (["."], rest)
  | rest => ([], rest)

theorem lead_append (segments : List String) :
    (lead segments).1 ++ (lead segments).2 = segments := by
  unfold lead
  split <;> rfl

theorem mem_of_mem_dropIdle {segments : List String} {s : String} (h : s ∈ dropIdle segments) :
    s ∈ segments :=
  List.mem_reverse.1 ((List.dropWhile_sublist _).mem (List.mem_reverse.1 h))

/-- The path with the given lead and the segments after it. -/
def ofLead (front rest : List String) (h : ∀ s ∈ front ++ rest, '/' ∉ s.toList) : Path :=
  if front = [""] ∧ rest = [] then root
  else if hne : front ++ rest = [] then empty
  else ⟨front ++ rest, hne, h⟩

/-- The path without its last part; an empty path and the root have none. -/
def parent? (p : Path) : Option Path :=
  let front := (lead p.segments).1
  let rest := dropIdle (lead p.segments).2
  if rest.isEmpty then
    if front == ["."] then some empty else none
  else
    some (ofLead front (dropIdle rest.dropLast) (by
      intro s hs
      refine p.slashless s ?_
      rw [← lead_append p.segments]
      rcases List.mem_append.1 hs with hs | hs
      · exact List.mem_append_left _ hs
      · exact List.mem_append_right _
          (mem_of_mem_dropIdle (List.dropLast_subset _ (mem_of_mem_dropIdle hs)))))

/-- A path and at most `n` of the paths above it. -/
def ancestorsWithin : Nat → Path → List Path
  | 0, p => [p]
  | n + 1, p =>
    match p.parent? with
    | some q => p :: ancestorsWithin n q
    | none => [p]

/-- A path and all paths above it. Each has one segment less, except for one that ends in an empty
path. -/
def ancestors (p : Path) : List Path := ancestorsWithin p.segments.length p

/-- The last part of a path, unless it leads upward. -/
def fileName? (p : Path) : Option String :=
  match (dropIdle (lead p.segments).2).getLast? with
  | some ".." | none => none
  | some name => some name

/-- A file name cut at its last dot; one that only starts with a dot is not cut. -/
def cutName (name : String) : String × Option String :=
  match (Text.pieces '.' name).reverse with
  | ending :: before =>
    let stem := Text.separated "." before.reverse
    if stem == "" then (name, none) else (stem, some ending)
  | [] => (name, none)

def stem? (p : Path) : Option String := p.fileName?.map fun name => (cutName name).1

def extension? (p : Path) : Option String := p.fileName?.bind fun name => (cutName name).2

/-- Whether a text can name something in a directory. -/
def isFileName (name : String) : Bool :=
  name != "" && name != "." && name != ".." && !name.contains '/'

theorem ofText_text (p : Path) : ofText p.text = p := by
  cases p with
  | mk segments ne_nil slashless =>
    simp only [ofText, text, Path.mk.injEq]
    exact Text.pieces_separated rfl ne_nil slashless

theorem text_ofText (s : String) : (ofText s).text = s := Text.separated_pieces rfl s

end Path
end LtiUnit
