import LtiUnit.Package.Skeleton
import LtiUnit.Proofs.ArchiveNames
import LtiUnit.Proofs.Destination
import LtiUnit.Proofs.Scratch
import Mathlib.Data.List.Nodup

/-!
# LtiUnit.Proofs.Ways

The locations that a path passes on its way (`Path.Avoids`). What is found at the end of a path
depends on these locations only: two states of the files that differ elsewhere give the same
(`find?_congr`), and what is reached through directories that stay is reached afterwards
(`find?_of_directories`).
-/

namespace LtiUnit
namespace Path

/-- Whether no location is forbidden that a path passes, its end included. -/
def Avoids (p : Path) (w : Location) (forbidden : Location → Prop) : Prop :=
  ∀ front, front <+: p.steps → ¬forbidden (front.foldl advance (p.origin w))

variable {p q : Path} {w : Location} {forbidden forbidden' : Location → Prop} {name : String}

theorem Avoids.mono (h : p.Avoids w forbidden) (hf : ∀ l, forbidden' l → forbidden l) :
    p.Avoids w forbidden' :=
  fun front hfront hl => h front hfront (hf _ hl)

theorem foldl_steps (p : Path) (w : Location) :
    p.steps.foldl advance (p.origin w) = p.locationFrom w :=
  foldl_advance_filter p.segments _

theorem Avoids.location (h : p.Avoids w forbidden) : ¬forbidden (p.locationFrom w) :=
  foldl_steps p w ▸ h p.steps List.prefix_rfl

/-- A path with one more step passes one more location. -/
theorem avoids_of_steps (hsteps : q.steps = p.steps ++ [name])
    (habs : q.isAbsolute = p.isAbsolute) (hname : isFileName name = true) :
    q.Avoids w forbidden ↔ p.Avoids w forbidden ∧ ¬forbidden (name :: p.locationFrom w) := by
  have horigin : q.origin w = p.origin w := by rw [origin, origin, habs]
  have hlast : (p.steps ++ [name]).foldl advance (p.origin w) = name :: p.locationFrom w := by
    rw [List.foldl_append, foldl_steps]
    exact advance_of_isFileName hname _
  unfold Avoids
  rw [horigin, hsteps]
  constructor
  · intro h
    exact ⟨fun front hf => h front (hf.trans (List.prefix_append _ _)),
      hlast ▸ h _ List.prefix_rfl⟩
  · rintro ⟨hp, hl⟩ front hf
    rcases List.prefix_concat_iff.1 hf with rfl | hf
    · rwa [hlast]
    · exact hp front hf

theorem filter_unslashed (p : Path) :
    (p.unslashed.filter fun s => !isIdle s) = p.steps := by
  rcases segments_eq_unslashed p with h | ⟨h, -⟩
  · rw [steps, h]
  · have hidle : isIdle "" = true := rfl
    rw [steps, h, List.filter_append, List.filter_cons_of_neg (by simp [hidle])]
    simp

theorem steps_child (hname : isFileName name = true) :
    (p.child name).steps = p.steps ++ [name] := by
  have hlast : ([name].filter fun s => !isIdle s) = [name] := by
    simp [isIdle_of_isFileName hname]
  rw [steps, segments_child (isFileName_iff.1 hname).2.2.2]
  split
  · rename_i hempty
    have hsteps : p.steps = [] := by
      rw [steps, isEmpty_iff.1 hempty]
      rfl
    rw [hlast, hsteps, List.nil_append]
  · rw [List.filter_append, filter_unslashed, hlast]

theorem avoids_child (hname : isFileName name = true) :
    (p.child name).Avoids w forbidden ↔
      p.Avoids w forbidden ∧ ¬forbidden (name :: p.locationFrom w) :=
  avoids_of_steps (steps_child hname) (isAbsolute_child (isFileName_iff.1 hname).2.2.2) hname

theorem avoids_output (h : p.fileName? = some name) :
    p.Avoids w forbidden ↔ (Package.Destination.directoryOf p).Avoids w forbidden ∧
      ¬forbidden (name :: (Package.Destination.directoryOf p).locationFrom w) := by
  obtain ⟨hname, hsteps, habs⟩ := Package.Destination.directoryOf_spec h
  exact avoids_of_steps hsteps habs.symm hname

/-! ## Characters of a path -/

theorem mem_joinWith_iff {sep c : Char} (hc : c ≠ sep) (parts : List (List Char)) :
    c ∈ Text.joinWith sep parts ↔ ∃ part ∈ parts, c ∈ part := by
  induction parts with
  | nil => simp [Text.joinWith]
  | cons part parts ih =>
    cases parts with
    | nil => simp [Text.joinWith]
    | cons part' parts => simp [Text.joinWith, ih, hc] at ih ⊢

theorem mem_text_iff {c : Char} (hc : c ≠ '/') (p : Path) :
    c ∈ p.text.toList ↔ ∃ s ∈ p.segments, c ∈ s.toList := by
  have hslash : "/".toList = ['/'] := rfl
  rw [text, Text.toList_separated hslash, mem_joinWith_iff hc]
  simp

theorem followable_child (hp : p.Followable) (hname : isFileName name = true)
    (hzero : '\x00' ∉ name.toList) : (p.child name).Followable := by
  have hseg : (p.child name).segments = p.unslashed ++ [name] := by
    rw [segments_child (isFileName_iff.1 hname).2.2.2, hp.1]
    rfl
  constructor
  · rw [Bool.eq_false_iff, Ne, isEmpty_iff, hseg]
    intro h
    have hne := unslashed_ne_nil p
    cases hu : p.unslashed with
    | nil => exact hne hu
    | cons s rest =>
      rw [hu] at h
      simp at h
  · rw [mem_text_iff (by decide), hseg]
    rintro ⟨s, hs, hc⟩
    rcases List.mem_append.1 hs with hs | hs
    · exact hp.2 ((mem_text_iff (by decide) p).2 ⟨s, mem_of_mem_unslashed hs, hc⟩)
    · exact hzero (List.mem_singleton.1 hs ▸ hc)

end Path

namespace Files

open LtiUnit.Path

variable {f g : Files} {p : Path} {hidden : Location → Prop}

/-! ## What is read on a way -/

theorem step_congr (h : AgreeOutside hidden f g) {d : Location} {s : String}
    (hl : ¬hidden (advance d s)) : g.step d s = f.step d s := by
  unfold step
  unfold advance at hl
  split
  · rfl
  · rename_i hidle
    rw [if_neg hidle] at hl
    split
    · rfl
    · rename_i hup
      rw [if_neg hup] at hl
      cases hn : named s d with
      | error e => rfl
      | ok l =>
        rw [named_eq_ok hn]
        simp only [bind, Except.bind, h.get? _ hl]

theorem walk_congr (h : AgreeOutside hidden f g) {d : Location} {segments : List String}
    (hw : ∀ front, front <+: segments → ¬hidden (front.foldl advance d)) :
    g.walk d segments = f.walk d segments := by
  induction segments generalizing d with
  | nil => rfl
  | cons s segments ih =>
    have hstep : g.step d s = f.step d s :=
      step_congr h (hw [s] (by simp))
    simp only [walk, List.foldlM_cons, hstep]
    cases hs : f.step d s with
    | error e => rfl
    | ok e =>
      obtain ⟨rfl, -⟩ := step_eq_ok_iff.1 hs
      exact ih fun front hf => hw (s :: front) (List.cons_prefix_cons.2 ⟨rfl, hf⟩)

theorem start_congr (h : AgreeOutside hidden f g) (hp : p.Avoids f.here hidden) :
    g.start p = f.start p := by
  have horigin := hp [] List.nil_prefix
  rw [List.foldl_nil, origin] at horigin
  unfold start
  split
  · rfl
  · rename_i habs
    rw [if_neg habs] at horigin
    rw [h.here, h.get? _ horigin]

theorem follow_congr (h : AgreeOutside hidden f g) (hp : p.Avoids f.here hidden) :
    g.follow p = f.follow p := by
  unfold follow
  rw [start_congr h hp]
  split
  · rfl
  split
  · rfl
  cases hs : f.start p with
  | error e => rfl
  | ok d0 =>
    have horigin : d0 = p.origin f.here := start_eq_ok hs
    rcases last_cases p.segments with ⟨k, hseg, hd⟩ | ⟨before, last, k, hseg, hd⟩
    · simp only [bind, Except.bind, hd]
    · have hw : g.walk d0 before = f.walk d0 before := by
        rw [← walk_filter g, ← walk_filter f]
        refine walk_congr h fun front hf => horigin ▸ hp front (hf.trans ?_)
        rw [steps, hseg, List.filter_append]
        exact List.prefix_append _ _
      simp only [bind, Except.bind, hd, List.reverse_reverse, hw]

theorem find?_congr (h : AgreeOutside hidden f g) (hp : p.Avoids f.here hidden) :
    g.find? p = f.find? p := by
  unfold find?
  rw [follow_congr h hp]
  cases hf : f.follow p with
  | error e => rfl
  | ok spot =>
    cases spot with
    | passed d => rfl
    | within name d slashed proper =>
      have hl : ¬hidden (name :: d) := by
        have hlocation := location_of_follow hf
        rw [Spot.location] at hlocation
        exact hlocation ▸ hp.location
      simp only [bind, Except.bind, h.get? _ hl]

theorem isFile_congr (h : AgreeOutside hidden f g) (hp : p.Avoids f.here hidden) :
    g.isFile p = f.isFile p := by
  rw [isFile, isFile, find?_congr h hp]

theorem isDirectory_congr (h : AgreeOutside hidden f g) (hp : p.Avoids f.here hidden) :
    g.isDirectory p = f.isDirectory p := by
  rw [isDirectory, isDirectory, find?_congr h hp]

theorem directory?_congr (h : AgreeOutside hidden f g) (hp : p.Avoids f.here hidden) :
    g.directory? p = f.directory? p := by
  rw [directory?, directory?, find?_congr h hp]

/-! ## Directories that stay on a way -/

theorem KeepsWay.of_avoids (hhere : g.here = f.here) (hp : p.Avoids f.here hidden)
    (hk : ∀ d, ¬hidden d → f.get? d = some .directory → g.get? d = some .directory) :
    KeepsWay p f g :=
  ⟨hhere, fun front hf => hk _ (hp front hf)⟩

theorem KeepsWay.find? (hk : KeepsWay p f g) {d : Location}
    (h : f.find? p = .ok (d, .directory)) : g.find? p = .ok (d, .directory) := by
  cases hf : f.follow p with
  | error e => simp [Files.find?, hf, bind, Except.bind] at h
  | ok spot =>
    have hf' := hk.follow hf
    cases spot with
    | passed d' =>
      rw [find?_of_passed hf] at h
      rw [find?_of_passed hf']
      exact h
    | within name d' slashed proper =>
      obtain ⟨rfl, hd⟩ := find?_of_within hf h
      have hl : name :: d' = p.steps.foldl advance (p.origin f.here) := by
        rw [foldl_steps]
        exact location_of_follow hf
      refine find?_of_directory hf' ?_
      rw [hl] at hd ⊢
      exact hk.directory _ List.prefix_rfl hd

theorem isDirectory_iff : f.isDirectory p = true ↔
    f.find? p = .ok (p.locationFrom f.here, .directory) := by
  unfold isDirectory
  split
  · rename_i d hfind
    rw [hfind, (location_of_find? hfind).1]
    simp
  · rename_i hfind
    simp only [Bool.false_eq_true, false_iff]
    exact hfind _

theorem get?_of_isDirectory (h : f.isDirectory p = true) :
    f.get? (p.locationFrom f.here) = some .directory :=
  (location_of_find? (isDirectory_iff.1 h)).2

theorem KeepsWay.isDirectory (hk : KeepsWay p f g) (h : f.isDirectory p = true) :
    g.isDirectory p = true := by
  rw [isDirectory_iff] at h ⊢
  rw [hk.here]
  exact hk.find? h

/-- What passes through directories that are there does not come near a place where there is
nothing. -/
theorem avoids_of_isDirectory {l : Location} (hd : f.isDirectory p = true)
    (hnew : f.get? l = none) : p.Avoids f.here fun k => isBelow k l = true := by
  obtain ⟨d0, hstart, hwalk⟩ := walk_of_find? (isDirectory_iff.1 hd)
  intro front hfront hbelow
  obtain ⟨more, hmore⟩ := hfront
  have horigin : d0 = p.origin f.here := start_eq_ok hstart
  rw [← walk_filter, ← steps, ← hmore, walk, List.foldlM_append] at hwalk
  cases hpassed : front.foldlM f.step d0 with
  | error e =>
    rw [hpassed] at hwalk
    cases hwalk
  | ok d =>
    have hthere := directory_of_walk (directory_of_start hstart) hpassed
    rw [location_of_walk hpassed, horigin, f.get?_eq_none_of_new hnew hbelow] at hthere
    cases hthere

theorem followable_of_find? {l : Location} {e : Entry} (h : f.find? p = .ok (l, e)) :
    p.Followable := by
  cases hf : f.follow p with
  | error e => simp [find?, hf, bind, Except.bind] at h
  | ok spot => exact (follow_cases hf).1

/-- A name is looked up in a directory that is there. -/
theorem follow_child {name : String} (hd : f.isDirectory p = true)
    (hname : isFileName name = true) (hzero : '\x00' ∉ name.toList)
    (hlong : name.utf8ByteSize ≤ longestName) :
    f.follow (p.child name) = .ok (.within name (p.locationFrom f.here) false hname) := by
  have hfind := isDirectory_iff.1 hd
  obtain ⟨d0, hstart, hwalk⟩ := walk_of_find? hfind
  have hslash := (isFileName_iff.1 hname).2.2.2
  refine follow_eq_within_iff.2 ⟨followable_child (followable_of_find? hfind) hname hzero,
    (endsInSlash_of_endsInName (endsInName_child p hname)).symm, p.unslashed, 0, d0, ?_, ?_, ?_, ?_⟩
  · rw [segments_child hslash, (followable_of_find? hfind).1]
    rfl
  · rw [Files.start, isAbsolute_child hslash]
    exact hstart
  · rw [← walk_filter, filter_unslashed, steps, walk_filter]
    exact hwalk
  · rw [named, if_neg (by omega)]

/-- Whether a path names something in a directory that is there: it leads to the directory up to its
last part, behind which there may be slashes. -/
structure NamesIn (f : Files) (p : Path) (d : Location) (last : String) : Prop where
  nonempty : last ≠ ""
  way : ∃ before k d0, p.segments = before ++ last :: List.replicate k "" ∧
    f.start p = .ok d0 ∧ f.walk d0 before = .ok d

/-- What a path leads to that names something in a directory. -/
theorem NamesIn.follow_eq {p : Path} {last : String} (h : NamesIn f p d last) :
    f.follow p =
      if '\x00' ∈ p.text.toList then .error .zeroInPath
      else if proper : isFileName last = true then
        if longestName < last.utf8ByteSize then .error .nameTooLong
        else .ok (.within last d p.endsInSlash proper)
      else .ok (.passed (if last = ".." then d.tail else d)) := by
  obtain ⟨hlast, before, k, d0, hseg, hstart, hwalk⟩ := h
  have hempty : p.isEmpty = false := by
    rw [Bool.eq_false_iff, Ne, Path.isEmpty_iff, hseg]
    cases before <;> simp [hlast]
  have hdrop : p.segments.reverse.dropWhile (· == "") = last :: before.reverse := by
    simp [hseg, hlast]
  rw [follow, hempty, if_neg Bool.false_ne_true]
  by_cases hzero : '\x00' ∈ p.text.toList
  · rw [if_pos hzero, if_pos (by simpa using hzero)]
  · rw [if_neg hzero, if_neg (by simpa using hzero)]
    simp only [hstart, bind, Except.bind, hdrop, List.reverse_reverse, hwalk, named]
    by_cases hproper : isFileName last = true
    · rw [dif_pos hproper, dif_pos hproper]
      by_cases hlong : longestName < last.utf8ByteSize
      · rw [if_pos hlong, if_pos hlong]
      · rw [if_neg hlong, if_neg hlong]
        rfl
    · rw [dif_neg hproper, dif_neg hproper]
      by_cases hup : last = ".."
      · rw [if_pos hup, if_pos (beq_iff_eq.2 hup)]
        rfl
      · rw [if_neg hup, if_neg (mt beq_iff_eq.1 hup)]
        rfl

theorem namesIn_child {name : String} (hd : f.isDirectory p = true) (hname : name ≠ "")
    (hslash : '/' ∉ name.toList) : NamesIn f (p.child name) (p.locationFrom f.here) name := by
  have hfind := isDirectory_iff.1 hd
  obtain ⟨d0, hstart, hwalk⟩ := walk_of_find? hfind
  refine ⟨hname, p.unslashed, 0, d0, ?_, ?_, ?_⟩
  · rw [segments_child hslash, (followable_of_find? hfind).1]
    rfl
  · rw [Files.start, isAbsolute_child hslash]
    exact hstart
  · rw [← walk_filter, filter_unslashed, steps, walk_filter]
    exact hwalk

/-! ## What a directory holds -/

theorem nodup_names (f : Files) (d : Location) : (f.names d).Nodup := by
  have hunique : f.entries.Pairwise fun x y => x.1 ≠ y.1 := List.pairwise_map.1 f.unique
  refine List.pairwise_filterMap.2 (hunique.imp ?_)
  intro x y hne name hname name' hname' hsame
  obtain ⟨l, e⟩ := x
  obtain ⟨l', e'⟩ := y
  cases l with
  | nil => cases hname
  | cons head rest =>
    cases l' with
    | nil => cases hname'
    | cons head' rest' =>
      simp only [Option.ite_none_right_eq_some, Option.some.injEq] at hname hname'
      refine hne ?_
      rw [hname.1, hname.2, hname'.1, hname'.2, hsame]

theorem names_perm {d : Location} (h : ∀ name, g.get? (name :: d) = f.get? (name :: d)) :
    (g.names d).Perm (f.names d) := by
  refine (List.perm_ext_iff_of_nodup (g.nodup_names d) (f.nodup_names d)).2 fun name => ?_
  rw [mem_names_iff, mem_names_iff, h name]

end Files

open Files

theorem Package.Skeleton.pairwise_sorted (names : List String) :
    (sorted names).Pairwise (· ≤ ·) := by
  let before (a b : String) : Bool := decide (a ≤ b)
  refine (@List.pairwise_mergeSort _ before (fun a b c hab hbc => ?_) (fun a b => ?_) names).imp
    of_decide_eq_true
  · exact decide_eq_true (le_trans (of_decide_eq_true hab) (of_decide_eq_true hbc))
  · simpa [before] using le_total a b

theorem Package.Skeleton.sorted_eq_of_perm {names names' : List String}
    (h : names.Perm names') : sorted names = sorted names' := by
  have hperm : (sorted names).Perm (sorted names') :=
    (List.mergeSort_perm _ _).trans (h.trans (List.mergeSort_perm _ _).symm)
  exact hperm.eq_of_pairwise (fun a b _ _ => le_antisymm) (pairwise_sorted names)
    (pairwise_sorted names')

/-- What is packed of a directory depends on what lies in it only. -/
theorem Archive.ofDirectory_congr {f g : Files} {d : Location}
    (h : ∀ l, isBelow l d = true → g.get? l = f.get? l) : ofDirectory g d = ofDirectory f d := by
  have hnodup (f : Files) : (filesBelow f d).Nodup := (nodup_filesBelow f d).of_map
  refine sorted_eq_of_perm ?_ (nodup_filesBelow g d)
  refine (List.perm_ext_iff_of_nodup (hnodup g) (hnodup f)).2 fun ⟨name, content⟩ => ?_
  have hheld (way : Location) : g.held (way ++ d) = f.held (way ++ d) :=
    held_congr (h _ (isBelow_iff.2 (List.suffix_append way d)))
  simp only [mem_filesBelow_iff, hheld]

end LtiUnit
