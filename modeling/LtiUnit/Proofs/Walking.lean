import LtiUnit.Proofs.Location

/-!
# LtiUnit.Proofs.Walking

What following a path comes to. `follow_cases` and `follow_eq_within_iff` say it once; everything
else is read off them.

* `location_of_follow`, `location_of_find?` — what is found at a path is found where the path says.
* `Keeps.follow` — a path leads to the same name as long as the directories on the way stay.
-/

namespace LtiUnit

/-- Whether a path is one that can lead somewhere. -/
def Path.Followable (p : Path) : Prop := p.isEmpty = false ∧ '\x00' ∉ p.text.toList

/-- The location that a path counts from, seen from a directory. -/
def Path.origin (p : Path) (w : Location) : Location := if p.isAbsolute then [] else w

namespace Files

open LtiUnit.Path

/-! ## Steps and walks -/

theorem named_eq_ok {s : String} {d l : Location} (h : named s d = .ok l) : l = s :: d := by
  unfold named at h
  split at h
  · cases h
  · cases h; rfl

theorem step_of_isIdle (f : Files) (d : Location) {s : String} (h : isIdle s = true) :
    f.step d s = .ok d := by
  simp [step, h]

theorem step_up (f : Files) (d : Location) : f.step d ".." = .ok d.tail := by
  simp [step, isIdle]

/-- A step goes where the segment says. It fails only at a name, namely if that is not the name of
a directory that is there. -/
theorem step_eq_ok_iff {f : Files} {d d' : Location} {s : String} :
    f.step d s = .ok d' ↔
      d' = advance d s ∧
        ((isIdle s = true ∨ s = "..") ∨
          named s d = .ok (s :: d) ∧ f.get? (s :: d) = some .directory) := by
  by_cases hidle : isIdle s = true
  · rw [step_of_isIdle f d hidle, advance_of_isIdle hidle]
    simp [hidle, eq_comm]
  · by_cases hup : s = ".."
    · subst hup
      rw [step_up]
      simp [advance, isIdle, eq_comm]
    · simp only [step, advance, hidle, hup, beq_iff_eq, if_false, or_self, false_or,
        Bool.false_eq_true]
      unfold named
      split
      · simp [bind, Except.bind]
      · simp only [bind, Except.bind]
        split
        · rename_i hd
          simp [hd, pure, Except.pure, eq_comm]
        · rename_i hd
          simp [hd, throw, throwThe, MonadExceptOf.throw]
        · rename_i hd
          simp [hd, throw, throwThe, MonadExceptOf.throw]

theorem walk_cons_eq_ok {f : Files} {d d' : Location} {s : String} {segments : List String} :
    f.walk d (s :: segments) = .ok d' ↔ ∃ e, f.step d s = .ok e ∧ f.walk e segments = .ok d' := by
  simp only [walk, List.foldlM_cons, bind, Except.bind]
  cases f.step d s <;> simp

theorem walk_replicate (f : Files) (d : Location) (k : Nat) :
    f.walk d (List.replicate k "") = .ok d := by
  induction k with
  | zero => rfl
  | succ k ih =>
    rw [List.replicate_succ, walk_cons_eq_ok]
    exact ⟨d, step_of_isIdle f d rfl, ih⟩

theorem walk_before {f : Files} {d d' : Location} {before : List String} {last : String}
    (k : Nat) (h : f.walk d before = .ok d') :
    f.walk d (before ++ last :: List.replicate k "") = f.step d' last := by
  have hlast : f.walk d' (last :: List.replicate k "") = f.step d' last := by
    rw [walk, List.foldlM_cons]
    cases f.step d' last with
    | error e => rfl
    | ok e => exact walk_replicate f e k
  rw [walk] at h ⊢
  rw [List.foldlM_append, h]
  exact hlast

/-! ## Following a path -/

/-- The last segment of a path that is not empty, if there is one. -/
theorem last_cases (segments : List String) :
    (∃ k, segments = List.replicate k "" ∧ segments.reverse.dropWhile (· == "") = []) ∨
      ∃ before last k, segments = before ++ last :: List.replicate k "" ∧
        segments.reverse.dropWhile (· == "") = last :: before.reverse := by
  have hsplit := List.takeWhile_append_dropWhile (p := (· == "")) (l := segments.reverse)
  have hidle : segments.reverse.takeWhile (· == "") =
      List.replicate (segments.reverse.takeWhile (· == "")).length "" := by
    refine List.eq_replicate_iff.2 ⟨rfl, fun s hs => ?_⟩
    simpa using List.all_eq_true.1 List.all_takeWhile s hs
  generalize (segments.reverse.takeWhile (· == "")).length = k at hidle
  cases hdrop : segments.reverse.dropWhile (· == "") with
  | nil =>
    rw [hdrop, hidle, List.append_nil] at hsplit
    refine .inl ⟨k, ?_, rfl⟩
    rw [← List.reverse_reverse segments, ← hsplit, List.reverse_replicate]
  | cons last before =>
    refine .inr ⟨before.reverse, last, k, ?_, by rw [List.reverse_reverse]⟩
    rw [hdrop, hidle] at hsplit
    rw [← List.reverse_reverse segments, ← hsplit]
    simp

/-- A segment of a path that is no name leads up, or nowhere. -/
theorem isIdle_of_mem {p : Path} {s : String} (hs : s ∈ p.segments) (hn : ¬isFileName s = true)
    (hup : s ≠ "..") : isIdle s = true := by
  by_cases h0 : s = ""
  · simp [isIdle, h0]
  · by_cases hdot : s = "."
    · simp [isIdle, hdot]
    · exact absurd (isFileName_iff.2 ⟨h0, hdot, hup, p.slashless s hs⟩) hn

/-- How a path is followed with success: to a place that is walked through, or to a name in one. -/
theorem follow_cases {f : Files} {p : Path} {spot : Spot} (h : f.follow p = .ok spot) :
    p.Followable ∧ ∃ d0, f.start p = .ok d0 ∧
      ((∃ d, f.walk d0 p.segments = .ok d ∧ spot = .passed d) ∨
        ∃ before last k d, ∃ proper : isFileName last = true,
          p.segments = before ++ last :: List.replicate k "" ∧ f.walk d0 before = .ok d ∧
            named last d = .ok (last :: d) ∧ spot = .within last d p.endsInSlash proper) := by
  unfold follow at h
  split at h
  · cases h
  rename_i hne
  split at h
  · cases h
  rename_i hzero
  refine ⟨⟨by simpa using hne, by simpa using hzero⟩, ?_⟩
  cases hs : f.start p with
  | error e => rw [hs] at h; cases h
  | ok d0 =>
    refine ⟨d0, rfl, ?_⟩
    simp only [hs, bind, Except.bind] at h
    rcases last_cases p.segments with ⟨k, hseg, hd⟩ | ⟨before, last, k, hseg, hd⟩
    · rw [hd] at h
      cases h
      exact .inl ⟨d0, by rw [hseg, walk_replicate], rfl⟩
    · simp only [hd, List.reverse_reverse] at h
      cases hw : f.walk d0 before with
      | error e => rw [hw] at h; cases h
      | ok d =>
        simp only [hw] at h
        split at h
        · rename_i proper
          cases hn : named last d with
          | error e => simp only [hn] at h; cases h
          | ok l =>
            simp only [hn] at h
            cases h
            exact .inr ⟨before, last, k, d, proper, hseg, hw, named_eq_ok hn ▸ hn, rfl⟩
        · rename_i proper
          have hlast : f.walk d0 p.segments = f.step d last := by
            rw [hseg]
            exact walk_before k hw
          split at h
          · rename_i hup
            cases h
            exact .inl ⟨d.tail, by rw [hlast, beq_iff_eq.1 hup, step_up], rfl⟩
          · rename_i hup
            have hmem : last ∈ p.segments := by simp [hseg]
            have hidle := isIdle_of_mem hmem proper (mt beq_iff_eq.2 hup)
            cases h
            exact .inl ⟨d, by rw [hlast, step_of_isIdle f d hidle], rfl⟩

/-- What it takes to look up a name. -/
theorem follow_eq_within_iff {f : Files} {p : Path} {name : String} {d : Location} {slashed : Bool}
    {proper : isFileName name = true} :
    f.follow p = .ok (.within name d slashed proper) ↔
      p.Followable ∧ slashed = p.endsInSlash ∧ ∃ before k d0,
        p.segments = before ++ name :: List.replicate k "" ∧ f.start p = .ok d0 ∧
          f.walk d0 before = .ok d ∧ named name d = .ok (name :: d) := by
  constructor
  · intro h
    obtain ⟨hp, d0, hs, ⟨_, _, hspot⟩ | ⟨before, last, k, d', _, hseg, hw, hn, hspot⟩⟩ :=
      follow_cases h
    · cases hspot
    · cases hspot
      exact ⟨hp, rfl, before, k, d0, hseg, hs, hw, hn⟩
  · rintro ⟨⟨hne, hzero⟩, rfl, before, k, d0, hseg, hs, hw, hn⟩
    have hlast : p.segments.reverse.dropWhile (· == "") = name :: before.reverse := by
      have hname := (isFileName_iff.1 proper).1
      simp [hseg, hname]
    unfold follow
    rw [if_neg (by simp [hne]), if_neg (by simpa using hzero)]
    simp only [hs, bind, Except.bind, hlast, List.reverse_reverse, hw, proper, dif_pos, hn]
    rfl

theorem find?_of_passed {f : Files} {p : Path} {d : Location} (h : f.follow p = .ok (.passed d)) :
    f.find? p = .ok (d, .directory) := by
  simp only [find?, h, bind, Except.bind]
  rfl

/-- What is found under a name is what the directory has there. -/
theorem find?_of_within {f : Files} {p : Path} {name : String} {d : Location} {slashed : Bool}
    {proper : isFileName name = true} {e : Entry}
    (h : f.follow p = .ok (.within name d slashed proper)) {l : Location}
    (hf : f.find? p = .ok (l, e)) : l = name :: d ∧ f.get? (name :: d) = some e := by
  simp only [find?, h, bind, Except.bind] at hf
  split at hf
  · cases hf
  · rename_i hd
    cases hf
    exact ⟨rfl, hd⟩
  · rename_i content executable hd
    split at hf
    · cases hf
    · cases hf
      exact ⟨rfl, hd⟩

/-! ## Where a path leads -/

theorem location_of_walk {f : Files} {d d' : Location} {segments : List String}
    (h : f.walk d segments = .ok d') : d' = segments.foldl advance d := by
  induction segments generalizing d with
  | nil => cases h; rfl
  | cons s segments ih =>
    obtain ⟨e, he, h⟩ := walk_cons_eq_ok.1 h
    rw [List.foldl_cons, ← (step_eq_ok_iff.1 he).1]
    exact ih h

theorem start_eq_ok {f : Files} {p : Path} {d : Location} (h : f.start p = .ok d) :
    d = if p.isAbsolute then [] else f.here := by
  unfold start at h
  split at h
  · rename_i habs
    rw [if_pos habs]
    cases h
    rfl
  · rename_i habs
    rw [if_neg habs]
    split at h
    · cases h; rfl
    · cases h

theorem directory_of_step {f : Files} {d d' : Location} {s : String}
    (hd : f.get? d = some .directory) (h : f.step d s = .ok d') :
    f.get? d' = some .directory := by
  obtain ⟨rfl, hcase⟩ := step_eq_ok_iff.1 h
  unfold advance
  split
  · exact hd
  · rename_i hidle
    split
    · cases d with
      | nil => rfl
      | cons name d => exact f.get?_parent hd
    · rename_i hup
      rcases hcase with (hidle' | hup') | ⟨-, hdir⟩
      · exact absurd hidle' hidle
      · exact absurd (beq_iff_eq.2 hup') hup
      · exact hdir

theorem directory_of_walk {f : Files} {d d' : Location} {segments : List String}
    (hd : f.get? d = some .directory) (h : f.walk d segments = .ok d') :
    f.get? d' = some .directory := by
  induction segments generalizing d with
  | nil => cases h; exact hd
  | cons s segments ih =>
    obtain ⟨e, he, h⟩ := walk_cons_eq_ok.1 h
    exact ih (directory_of_step hd he) h

theorem directory_of_start {f : Files} {p : Path} {d : Location} (h : f.start p = .ok d) :
    f.get? d = some .directory := by
  unfold start at h
  split at h
  · cases h; rfl
  · split at h
    · cases h; assumption
    · cases h

/-- The location that a spot is. -/
def Spot.location : Spot → Location
  | .passed d => d
  | .within name d _ _ => name :: d

theorem location_of_follow {f : Files} {p : Path} {spot : Spot} (h : f.follow p = .ok spot) :
    spot.location = p.locationFrom f.here := by
  obtain ⟨-, d0, hs, hcase⟩ := follow_cases h
  have hstart := start_eq_ok hs
  rcases hcase with ⟨d, hw, rfl⟩ | ⟨before, last, k, d, proper, hseg, hw, -, rfl⟩
  · rw [Spot.location, location_of_walk hw, hstart]
    rfl
  · have hidle := (location_of_walk (walk_replicate f (last :: d) k)).symm
    rw [Spot.location, locationFrom, hseg, List.foldl_append, List.foldl_cons, ← hstart,
      ← location_of_walk hw, advance_of_isFileName proper, hidle]

theorem location_of_find? {f : Files} {p : Path} {l : Location} {e : Entry}
    (h : f.find? p = .ok (l, e)) : l = p.locationFrom f.here ∧ f.get? l = some e := by
  cases hf : f.follow p with
  | error e => simp [find?, hf, bind, Except.bind] at h
  | ok spot =>
    have hl := location_of_follow hf
    cases spot with
    | passed d =>
      rw [find?_of_passed hf] at h
      cases h
      obtain ⟨-, d0, hs, ⟨d', hw, hd⟩ | ⟨_, _, _, _, _, _, _, _, hd⟩⟩ := follow_cases hf
      · cases hd
        exact ⟨hl, directory_of_walk (directory_of_start hs) hw⟩
      · cases hd
    | within name d slashed proper =>
      obtain ⟨rfl, he⟩ := find?_of_within hf h
      exact ⟨hl, he⟩

theorem location_of_directory? {f : Files} {p : Path} {d : Location}
    (h : f.directory? p = .ok d) :
    d = p.locationFrom f.here := by
  unfold directory? at h
  cases hf : f.find? p with
  | error e => simp [hf, bind, Except.bind] at h
  | ok found =>
    obtain ⟨l, e⟩ := found
    cases e with
    | file content x => simp [hf, bind, Except.bind, throw, throwThe, MonadExceptOf.throw] at h
    | directory =>
      simp only [hf, bind, Except.bind, pure, Except.pure, Except.ok.injEq] at h
      rw [← h]
      exact (location_of_find? hf).1

/-- A directory is found at the end of a walk through all segments. -/
theorem walk_of_find? {f : Files} {p : Path} {d : Location} (h : f.find? p = .ok (d, .directory)) :
    ∃ d0, f.start p = .ok d0 ∧ f.walk d0 p.segments = .ok d := by
  cases hf : f.follow p with
  | error e => simp [find?, hf, bind, Except.bind] at h
  | ok spot =>
    obtain ⟨-, d0, hs, hcase⟩ := follow_cases hf
    refine ⟨d0, hs, ?_⟩
    rcases hcase with ⟨d', hw, rfl⟩ | ⟨before, last, k, d', proper, hseg, hw, hn, rfl⟩
    · rw [find?_of_passed hf] at h
      cases h
      exact hw
    · obtain ⟨rfl, hd⟩ := find?_of_within hf h
      rw [hseg, walk_before k hw, step_eq_ok_iff]
      exact ⟨(advance_of_isFileName proper d').symm, .inr ⟨hn, hd⟩⟩

/-- The directory that a name is looked up in is there. -/
theorem directory_of_within {f : Files} {p : Path} {name : String} {d : Location} {slashed : Bool}
    {proper : isFileName name = true} (h : f.follow p = .ok (.within name d slashed proper)) :
    f.get? d = some .directory := by
  obtain ⟨-, -, before, k, d0, hseg, hs, hw, hn⟩ := follow_eq_within_iff.1 h
  exact directory_of_walk (directory_of_start hs) hw

/-- Segments that are idle do not count. -/
theorem walk_filter (f : Files) (d : Location) (segments : List String) :
    f.walk d (segments.filter fun s => !isIdle s) = f.walk d segments := by
  induction segments generalizing d with
  | nil => rfl
  | cons s segments ih =>
    by_cases hidle : isIdle s = true
    · have hstep : f.walk d (s :: segments) = f.walk d segments := by
        rw [walk, List.foldlM_cons, step_of_isIdle f d hidle]
        rfl
      rw [List.filter_cons_of_neg (by simp [hidle]), ih, hstep]
    · rw [List.filter_cons_of_pos (by simp [hidle])]
      simp only [walk, List.foldlM_cons]
      exact bind_congr fun d' => ih d'

/-! ## Directories that stay -/

variable {f g : Files} {p : Path}

/-- A walk leads to the same place as long as the directories on it stay. -/
theorem walk_of_directories {d d' : Location} {segments : List String}
    (hk : ∀ front, front <+: segments → f.get? (front.foldl advance d) = some .directory →
      g.get? (front.foldl advance d) = some .directory)
    (h : f.walk d segments = .ok d') : g.walk d segments = .ok d' := by
  induction segments generalizing d with
  | nil => exact h
  | cons s segments ih =>
    obtain ⟨e, he, h⟩ := walk_cons_eq_ok.1 h
    obtain ⟨rfl, hcase⟩ := step_eq_ok_iff.1 he
    have hstep : g.step d s = .ok (advance d s) := by
      refine step_eq_ok_iff.2 ⟨rfl, ?_⟩
      by_cases hidle : isIdle s = true ∨ s = ".."
      · exact .inl hidle
      · obtain ⟨hn, hd⟩ := hcase.resolve_left hidle
        have hadvance : advance d s = s :: d := by
          simp only [not_or] at hidle
          simp [advance, hidle]
        refine .inr ⟨hn, ?_⟩
        have hkeep := hk [s] (by simp)
        rw [List.foldl_cons, List.foldl_nil, hadvance] at hkeep
        exact hkeep hd
    exact walk_cons_eq_ok.2
      ⟨_, hstep, ih (fun front hf => hk (s :: front) (List.cons_prefix_cons.2 ⟨rfl, hf⟩)) h⟩

/-- The directories that a path passes stay where they are. -/
structure KeepsWay (p : Path) (f g : Files) : Prop where
  here : g.here = f.here
  directory : ∀ front, front <+: p.steps →
    f.get? (front.foldl advance (p.origin f.here)) = some .directory →
    g.get? (front.foldl advance (p.origin f.here)) = some .directory

theorem KeepsWay.start (hk : KeepsWay p f g) {d : Location} (h : f.start p = .ok d) :
    g.start p = .ok d := by
  have horigin := hk.directory [] List.nil_prefix
  rw [List.foldl_nil, origin] at horigin
  unfold Files.start at h ⊢
  split at h
  · rename_i habs
    rwa [if_pos habs]
  · rename_i habs
    rw [if_neg habs] at horigin ⊢
    split at h
    · rename_i hd
      rw [hk.here, if_pos (horigin hd)]
      exact h
    · cases h

theorem KeepsWay.follow (hk : KeepsWay p f g) {spot : Spot} (h : f.follow p = .ok spot) :
    g.follow p = .ok spot := by
  unfold Files.follow at h ⊢
  split at h
  · cases h
  rename_i hne
  rw [if_neg hne]
  split at h
  · cases h
  rename_i hzero
  rw [if_neg hzero]
  cases hs : f.start p with
  | error e => simp [hs, bind, Except.bind] at h
  | ok d0 =>
    have horigin : d0 = p.origin f.here := start_eq_ok hs
    simp only [hs, hk.start hs, bind, Except.bind] at h ⊢
    rcases last_cases p.segments with ⟨k, hseg, hd⟩ | ⟨before, last, k, hseg, hd⟩
    · simp only [hd] at h ⊢
      exact h
    · simp only [hd, List.reverse_reverse] at h ⊢
      cases hw : f.walk d0 before with
      | error e => simp [hw] at h
      | ok d =>
        have hw' : g.walk d0 before = .ok d := by
          rw [← walk_filter] at hw ⊢
          refine walk_of_directories (fun front hf => horigin ▸ hk.directory front ?_) hw
          refine hf.trans ?_
          rw [steps, hseg, List.filter_append]
          exact List.prefix_append _ _
        simp only [hw, hw'] at h ⊢
        exact h

/-- The directories stay where they are, and so does the one that paths count from. -/
structure Keeps (f g : Files) : Prop where
  here : g.here = f.here
  directory : ∀ d, f.get? d = some .directory → g.get? d = some .directory

theorem Keeps.way (hk : Keeps f g) : KeepsWay p f g := ⟨hk.here, fun _ _ => hk.directory _⟩

theorem Keeps.start (hk : Keeps f g) {d : Location} (h : f.start p = .ok d) : g.start p = .ok d :=
  hk.way.start h

theorem Keeps.walk (hk : Keeps f g) {d d' : Location} {segments : List String}
    (h : f.walk d segments = .ok d') : g.walk d segments = .ok d' :=
  walk_of_directories (fun _ _ => hk.directory _) h

theorem Keeps.follow (hk : Keeps f g) {spot : Spot} (h : f.follow p = .ok spot) :
    g.follow p = .ok spot :=
  hk.way.follow h

end Files
end LtiUnit
