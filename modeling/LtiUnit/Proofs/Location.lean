import LtiUnit.Files.Walk

/-!
# LtiUnit.Proofs.Location

Which location a path names, read off the path alone: `Path.locationFrom` goes down for a name and
up for two dots. Files have no links, so whatever is found at a path is found there
(`Files.location_of_find?`).

A relative path first climbs `Path.climb` directories and then only goes down. Two starting points
lead it to one location exactly when they agree above the climb (`Path.locationFrom_eq_iff`).
-/

namespace LtiUnit
namespace Path

/-- One segment of a path, without looking at what is there. -/
def advance (d : Location) (segment : String) : Location :=
  if isIdle segment then d else if segment == ".." then d.tail else segment :: d

/-- The location that a path names, seen from a directory. -/
def locationFrom (w : Location) (p : Path) : Location :=
  p.segments.foldl advance (if p.isAbsolute then [] else w)

theorem isFileName_iff {name : String} :
    isFileName name = true ↔ name ≠ "" ∧ name ≠ "." ∧ name ≠ ".." ∧ '/' ∉ name.toList := by
  simp [isFileName, and_assoc]

theorem isIdle_of_isFileName {name : String} (h : isFileName name = true) :
    isIdle name = false := by
  obtain ⟨h1, h2, -, -⟩ := isFileName_iff.1 h
  simp [isIdle, h1, h2]

theorem advance_of_isFileName {name : String} (h : isFileName name = true) (d : Location) :
    advance d name = name :: d := by
  obtain ⟨-, -, h3, -⟩ := isFileName_iff.1 h
  simp [advance, isIdle_of_isFileName h, h3]

theorem advance_of_isIdle {segment : String} (h : isIdle segment = true) (d : Location) :
    advance d segment = d := by
  simp [advance, h]

/-! ## Paths behind others -/

theorem segments_ofText {name : String} (h : '/' ∉ name.toList) :
    (ofText name).segments = [name] := Text.pieces_of_not_mem h

theorem isAbsolute_ofText {name : String} (h : '/' ∉ name.toList) :
    (ofText name).isAbsolute = false := by
  simp [isAbsolute, segments_ofText h]

theorem segments_join {p q : Path} (hq : q.isAbsolute = false) :
    (p.join q).segments = if p.isEmpty then q.segments else p.unslashed ++ q.segments := by
  unfold join
  rw [hq, Bool.false_or]
  split <;> rfl

theorem segments_child {p : Path} {name : String} (h : '/' ∉ name.toList) :
    (p.child name).segments = if p.isEmpty then [name] else p.unslashed ++ [name] := by
  rw [child, segments_join (isAbsolute_ofText h), segments_ofText h]

theorem segments_eq_unslashed (p : Path) :
    p.segments = p.unslashed ∨ p.segments = p.unslashed ++ [""] ∧ p.unslashed ≠ [] := by
  unfold unslashed
  split
  · rename_i h
    simp only [endsInSlash, ge_iff_le, Bool.and_eq_true, decide_eq_true_eq, beq_iff_eq] at h
    refine .inr ⟨?_, ?_⟩
    · rw [List.getLast?_eq_some_getLast p.ne_nil, Option.some.injEq] at h
      rw [← h.2]
      exact (List.dropLast_concat_getLast p.ne_nil).symm
    · intro hnil
      have := congrArg List.length hnil
      simp only [List.length_dropLast, List.length_nil] at this
      omega
  · exact .inl rfl

theorem foldl_advance_unslashed (p : Path) (d : Location) :
    p.unslashed.foldl advance d = p.segments.foldl advance d := by
  rcases segments_eq_unslashed p with h | ⟨h, -⟩
  · rw [h]
  · rw [h, List.foldl_append]; rfl

theorem isEmpty_iff {p : Path} : p.isEmpty = true ↔ p.segments = [""] := by
  simp [isEmpty]

theorem isAbsolute_iff {p : Path} :
    p.isAbsolute = true ↔ p.segments.head? = some "" ∧ 2 ≤ p.segments.length := by
  unfold isAbsolute
  split
  · rename_i h
    simp [h]
  · rename_i h
    match hp : p.segments, p.ne_nil with
    | [s], _ => simp
    | s :: t :: more, _ =>
      have : s ≠ "" := fun h0 => h t more (by rw [hp, h0])
      simp [this]

theorem unslashed_ne_nil (p : Path) : p.unslashed ≠ [] := by
  rcases segments_eq_unslashed p with h | ⟨-, h⟩
  · rw [← h]; exact p.ne_nil
  · exact h

theorem head?_unslashed_append (p : Path) (more : List String) :
    (p.unslashed ++ more).head? = p.segments.head? := by
  obtain ⟨s, rest, hu⟩ := List.exists_cons_of_ne_nil (unslashed_ne_nil p)
  rcases segments_eq_unslashed p with h | ⟨h, -⟩ <;> rw [h, hu] <;> rfl

theorem isAbsolute_join {p q : Path} (hq : q.isAbsolute = false) :
    (p.join q).isAbsolute = p.isAbsolute := by
  by_cases he : p.isEmpty = true
  · have hp : p.isAbsolute = false := by simp [isAbsolute, isEmpty_iff.1 he]
    have hjoin : (p.join q).segments = q.segments := by rw [segments_join hq, if_pos he]
    rw [hp, ← hq, isAbsolute, isAbsolute, hjoin]
  · have hlen : 1 ≤ p.unslashed.length := List.length_pos_iff.2 (unslashed_ne_nil p)
    have hmore : 1 ≤ q.segments.length := List.length_pos_iff.2 q.ne_nil
    rw [Bool.eq_iff_iff, isAbsolute_iff, isAbsolute_iff, segments_join hq, if_neg he,
      head?_unslashed_append, List.length_append]
    refine and_congr_right fun hhead => ⟨fun _ => ?_, fun _ => by omega⟩
    match hp : p.segments, p.ne_nil with
    | [s], _ =>
      rw [hp, List.head?_cons, Option.some.injEq] at hhead
      exact absurd (isEmpty_iff.2 (by rw [hp, hhead])) he
    | s :: t :: more, _ => simp

theorem isAbsolute_child {p : Path} {name : String} (h : '/' ∉ name.toList) :
    (p.child name).isAbsolute = p.isAbsolute :=
  isAbsolute_join (isAbsolute_ofText h)

/-- A path behind another one counts from where that one leads, unless it is absolute. -/
theorem locationFrom_join (p q : Path) (w : Location) :
    (p.join q).locationFrom w = q.locationFrom (p.locationFrom w) := by
  cases hq : q.isAbsolute with
  | true =>
    have hjoin : p.join q = q := by rw [join, hq, Bool.true_or, if_pos rfl]
    rw [hjoin, locationFrom, locationFrom, hq, if_pos rfl, if_pos rfl]
  | false =>
    unfold locationFrom
    rw [isAbsolute_join hq, segments_join hq, hq]
    by_cases he : p.isEmpty = true
    · have hp : p.isAbsolute = false := by simp [isAbsolute, isEmpty_iff.1 he]
      rw [if_pos he, isEmpty_iff.1 he, hp]
      rfl
    · rw [if_neg he, List.foldl_append, foldl_advance_unslashed]
      rfl

theorem locationFrom_child {p : Path} {name : String} (h : isFileName name = true)
    (w : Location) : (p.child name).locationFrom w = name :: p.locationFrom w := by
  have hslash := (isFileName_iff.1 h).2.2.2
  rw [child, locationFrom_join, locationFrom, isAbsolute_ofText hslash, segments_ofText hslash]
  exact advance_of_isFileName h _

theorem locationFrom_parent (p : Path) (w : Location) :
    (p.child "..").locationFrom w = (p.locationFrom w).tail := by
  have hslash : '/' ∉ "..".toList := by decide
  rw [child, locationFrom_join, locationFrom, isAbsolute_ofText hslash, segments_ofText hslash]
  rfl

/-! ## Parents -/

/-- The segments of a path that count. -/
def steps (p : Path) : List String := p.segments.filter fun s => !isIdle s

theorem foldl_advance_filter (segments : List String) (d : Location) :
    (segments.filter fun s => !isIdle s).foldl advance d = segments.foldl advance d := by
  induction segments generalizing d with
  | nil => rfl
  | cons s segments ih =>
    by_cases hidle : isIdle s = true
    · rw [List.filter_cons_of_neg (by simp [hidle]), List.foldl_cons, advance_of_isIdle hidle, ih]
    · rw [List.filter_cons_of_pos (by simp [hidle]), List.foldl_cons, List.foldl_cons, ih]

theorem dropIdle_append_singleton {name : String} (h : isIdle name = false)
    (segments : List String) : dropIdle (segments ++ [name]) = segments ++ [name] := by
  simp [dropIdle, h]

theorem dropIdle_isPrefix (segments : List String) : dropIdle segments <+: segments := by
  rw [← List.reverse_suffix, dropIdle, List.reverse_reverse]
  exact List.dropWhile_suffix isIdle

theorem filter_dropIdle (segments : List String) :
    (dropIdle segments).filter (fun s => !isIdle s) = segments.filter fun s => !isIdle s := by
  have hsplit := List.takeWhile_append_dropWhile (p := isIdle) (l := segments.reverse)
  have hnone : (segments.reverse.takeWhile isIdle).filter (fun s => !isIdle s) = [] := by
    refine List.filter_eq_nil_iff.2 fun s hs => ?_
    simpa using List.all_eq_true.1 List.all_takeWhile s hs
  have hfilter := congrArg (List.filter fun s => !isIdle s) hsplit
  rw [List.filter_append, hnone, List.nil_append, List.filter_reverse] at hfilter
  rw [dropIdle, List.filter_reverse, hfilter, List.reverse_reverse]

/-- Whether the last segment of a path is a name. -/
def EndsInName (p : Path) : Prop := ∃ before s, p.segments = before ++ [s] ∧ isFileName s = true

theorem endsInName_child (p : Path) {name : String} (h : isFileName name = true) :
    (p.child name).EndsInName := by
  rw [EndsInName, segments_child (isFileName_iff.1 h).2.2.2]
  split
  · exact ⟨[], name, rfl, h⟩
  · exact ⟨p.unslashed, name, rfl, h⟩

theorem endsInSlash_of_endsInName {p : Path} (hp : p.EndsInName) : p.endsInSlash = false := by
  obtain ⟨before, s, hseg, hs⟩ := hp
  have hs0 : s ≠ "" := (isFileName_iff.1 hs).1
  simp [endsInSlash, hseg, hs0]

theorem isEmpty_of_endsInName {p : Path} (hp : p.EndsInName) : p.isEmpty = false := by
  obtain ⟨before, s, hseg, hs⟩ := hp
  have hs0 : s ≠ "" := (isFileName_iff.1 hs).1
  rw [Bool.eq_false_iff, Ne, isEmpty_iff, hseg]
  cases before <;> simp [hs0]

theorem segments_child_of_endsInName {p : Path} {name : String} (hp : p.EndsInName)
    (h : '/' ∉ name.toList) : (p.child name).segments = p.segments ++ [name] := by
  rw [segments_child h, isEmpty_of_endsInName hp, unslashed, endsInSlash_of_endsInName hp]
  rfl

/-- The lead of segments does not reach to a name behind them. -/
theorem lead_of_isFileName {s : String} (h : isFileName s = true) (before : List String) :
    ∃ front mid, front ++ (mid ++ [s]) = before ++ [s] ∧
      ∀ more, lead (before ++ [s] ++ more) = (front, mid ++ [s] ++ more) := by
  obtain ⟨hs0, hdot, -, -⟩ := isFileName_iff.1 h
  match before with
  | [] => exact ⟨[], [], rfl, fun more => by simp [lead, hs0, hdot]⟩
  | t :: before =>
    by_cases h0 : t = ""
    · exact ⟨[""], before, by simp [h0], fun more => by simp [lead, h0]⟩
    · by_cases hd : t = "."
      · exact ⟨["."], before, by simp [hd], fun more => by simp [lead, hd]⟩
      · exact ⟨[], t :: before, rfl, fun more => by simp [lead, h0, hd]⟩

theorem parent?_child {p : Path} {name : String} (hp : p.EndsInName)
    (h : isFileName name = true) : (p.child name).parent? = some p := by
  have hchild := segments_child_of_endsInName hp (isFileName_iff.1 h).2.2.2
  obtain ⟨before, s, hseg, hs⟩ := hp
  obtain ⟨front, mid, hfront, hlead⟩ := lead_of_isFileName hs before
  have hrest : dropIdle (mid ++ [s] ++ [name]) = mid ++ [s] ++ [name] :=
    dropIdle_append_singleton (isIdle_of_isFileName h) _
  cases p with
  | mk segments ne_nil slashless =>
    simp only at hseg
    subst hseg
    simp [parent?, hchild, hlead, hrest, dropIdle_append_singleton (isIdle_of_isFileName hs),
      ofLead, hfront, -List.append_assoc]

theorem ancestors_child {p : Path} {name : String} (hp : p.EndsInName)
    (h : isFileName name = true) : (p.child name).ancestors = p.child name :: p.ancestors := by
  rw [ancestors, segments_child_of_endsInName hp (isFileName_iff.1 h).2.2.2, List.length_append]
  simp only [List.length_singleton, ancestorsWithin, parent?_child hp h]
  rfl

theorem ancestors_eq_cons (p : Path) : ∃ parents, p.ancestors = p :: parents := by
  unfold ancestors
  cases p.segments.length with
  | zero => exact ⟨[], rfl⟩
  | succ n =>
    rw [ancestorsWithin]
    cases p.parent? with
    | none => exact ⟨[], rfl⟩
    | some q => exact ⟨ancestorsWithin n q, rfl⟩

/-! ## Climbing -/

/-- A way as the number of directories that it leads up and what it goes down to after that. -/
def turn (x : Nat × Location) (segment : String) : Nat × Location :=
  if isIdle segment then x
  else if segment == ".." then
    match x.2 with
    | [] => (x.1 + 1, [])
    | _ :: d => (x.1, d)
  else (x.1, segment :: x.2)

/-- How many directories a path leads up from where it starts. -/
def climb (p : Path) : Nat := (p.segments.foldl turn (0, [])).1

theorem foldl_advance_eq (segments : List String) (x : Nat × Location) (w : Location) :
    segments.foldl advance (x.2 ++ w.drop x.1) =
      (segments.foldl turn x).2 ++ w.drop (segments.foldl turn x).1 := by
  induction segments generalizing x with
  | nil => rfl
  | cons s segments ih =>
    have hstep : advance (x.2 ++ w.drop x.1) s = (turn x s).2 ++ w.drop (turn x s).1 := by
      unfold advance turn
      split
      · rfl
      · split
        · obtain ⟨up, down⟩ := x
          cases down <;> simp
        · rfl
    rw [List.foldl_cons, List.foldl_cons, hstep, ih]

/-- A relative path climbs, and then goes down from there. -/
theorem exists_locationFrom_eq {p : Path} (h : p.isAbsolute = false) :
    ∃ down, ∀ w, p.locationFrom w = down ++ w.drop p.climb := by
  refine ⟨(p.segments.foldl turn (0, [])).2, fun w => ?_⟩
  have hw := foldl_advance_eq p.segments (0, []) w
  rw [locationFrom, h]
  exact hw

/-- A path leads from two directories to one location if they agree above its climb, or if it does
not start from either. -/
def SameFrom (p : Path) (w w' : Location) : Prop :=
  p.isAbsolute = true ∨ w.drop p.climb = w'.drop p.climb

instance (p : Path) (w w' : Location) : Decidable (p.SameFrom w w') :=
  inferInstanceAs (Decidable (_ ∨ _))

theorem locationFrom_eq_iff (p : Path) (w w' : Location) :
    p.locationFrom w = p.locationFrom w' ↔ p.SameFrom w w' := by
  rw [SameFrom]
  cases h : p.isAbsolute with
  | true => simp [locationFrom, h]
  | false =>
    obtain ⟨down, hdown⟩ := exists_locationFrom_eq h
    simp [hdown]

theorem climb_child {p : Path} {name : String} (h : isFileName name = true) :
    (p.child name).climb = p.climb := by
  obtain ⟨-, -, hup, hslash⟩ := isFileName_iff.1 h
  have hname (x : Nat × Location) : (turn x name).1 = x.1 := by
    simp [turn, isIdle_of_isFileName h, hup]
  have hidle (x : Nat × Location) : turn x "" = x := by simp [turn, isIdle]
  unfold climb
  rw [segments_child hslash]
  by_cases he : p.isEmpty = true
  · rw [if_pos he, isEmpty_iff.1 he]
    simp [hname, hidle]
  · rw [if_neg he, List.foldl_append, List.foldl_cons, List.foldl_nil, hname]
    rcases segments_eq_unslashed p with hs | ⟨hs, -⟩
    · rw [hs]
    · rw [hs, List.foldl_append, List.foldl_cons, List.foldl_nil, hidle]

theorem sameFrom_child {p : Path} {name : String} (h : isFileName name = true)
    (w w' : Location) : (p.child name).SameFrom w w' ↔ p.SameFrom w w' := by
  rw [SameFrom, SameFrom, climb_child h, isAbsolute_child (isFileName_iff.1 h).2.2.2]

end Path
end LtiUnit
