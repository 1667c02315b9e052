import LtiUnit.Command.Lookup
import LtiUnit.Proofs.OpenedSkeleton
import LtiUnit.Proofs.SettingLayers
import Mathlib.Logic.Relation

/-!
# LtiUnit.Proofs.NearestConfig

Which configuration is in force in a directory. The search is a loop: it looks into a directory, and
goes on with the parent if there is no configuration file (`Search`). Each parent of an absolute
path has one step less, so the loop ends at the root, and what it comes to is what `findConfig`
gives (`search_findConfig`).

The directories that are passed are those at and above the path (`Path.AtOrAbove`), of which there
is one for every start of its steps. The nearest one that has the file decides
(`governed_of_search`), for better or worse: if the file cannot be used, there is an error and no
other configuration.
-/

namespace LtiUnit
namespace Path

variable {p q d : Path}

/-! ## Directories at and above a path -/

/-- Whether a path is reached from another one by going on to the parent any number of times. -/
def AtOrAbove (d p : Path) : Prop := Relation.ReflTransGen (fun q q' => q.parent? = some q') p d

theorem atOrAbove_refl (p : Path) : p.AtOrAbove p := .refl

theorem lead_of_isAbsolute (habs : p.isAbsolute = true) : (lead p.segments).1 = [""] := by
  obtain ⟨segments, hsegments⟩ := List.head?_eq_some_iff.1 (isAbsolute_iff.1 habs).1
  rw [hsegments]
  rfl

/-- The root has no parent, and every other absolute path has one step more than its parent. -/
theorem parent?_cases (habs : p.isAbsolute = true) :
    (p.parent? = none ∧ p.steps = []) ∨
      ∃ q s, p.parent? = some q ∧ q.isAbsolute = true ∧ p.steps = q.steps ++ [s] := by
  have hlead := lead_of_isAbsolute habs
  rcases List.eq_nil_or_concat (dropIdle (lead p.segments).2) with hnil | ⟨before, s, hlast⟩
  · refine .inl ⟨by simp [parent?, hlead, hnil], ?_⟩
    have hrest : ((lead p.segments).2.filter fun s => !isIdle s) = [] := by
      rw [← filter_dropIdle, hnil]
      rfl
    rw [steps, ← lead_append p.segments, List.filter_append, hlead, hrest]
    rfl
  · rw [List.concat_eq_append] at hlast
    obtain ⟨q, hq, hsteps, hqabs⟩ := parent?_of_dropIdle hlast
    exact .inr ⟨q, s, hq, hqabs.trans habs, hsteps⟩

/-- At or above a path are the path itself and what is at or above its parent. -/
theorem atOrAbove_iff (hparent : p.parent? = some q) : d.AtOrAbove p ↔ d = p ∨ d.AtOrAbove q := by
  rw [AtOrAbove, Relation.ReflTransGen.cases_head_iff, hparent, eq_comm]
  simp only [Option.some.injEq, exists_eq_left']
  rfl

theorem eq_of_atOrAbove (hparent : p.parent? = none) (hd : d.AtOrAbove p) : d = p := by
  rw [AtOrAbove, Relation.ReflTransGen.cases_head_iff, hparent] at hd
  rcases hd with rfl | ⟨q, hq, -⟩
  · rfl
  · cases hq

/-- The paths above an absolute path end at the root. -/
theorem inductionOnParents {motive : ∀ p : Path, p.isAbsolute = true → Prop}
    (root : ∀ p habs, p.parent? = none → p.steps = [] → motive p habs)
    (child : ∀ p habs q hqabs s, p.parent? = some q → p.steps = q.steps ++ [s] → motive q hqabs →
      motive p habs) (p : Path) (habs : p.isAbsolute = true) : motive p habs := by
  induction hn : p.steps.length generalizing p with
  | zero =>
    rcases parent?_cases habs with ⟨hparent, hsteps⟩ | ⟨q, s, -, -, hsteps⟩
    · exact root p habs hparent hsteps
    · simp [hsteps] at hn
  | succ n ih =>
    rcases parent?_cases habs with ⟨-, hsteps⟩ | ⟨q, s, hparent, hqabs, hsteps⟩
    · simp [hsteps] at hn
    · exact child p habs q hqabs s hparent hsteps (ih q hqabs (by simpa [hsteps] using hn))

/-- The way to a directory above a path is a start of the way to that path. -/
theorem steps_of_atOrAbove (habs : p.isAbsolute = true) (hd : d.AtOrAbove p) :
    d.isAbsolute = true ∧ d.steps <+: p.steps := by
  induction p, habs using inductionOnParents with
  | root p habs hparent _ =>
    obtain rfl := eq_of_atOrAbove hparent hd
    exact ⟨habs, List.prefix_rfl⟩
  | child p habs q _ s hparent hsteps ih =>
    rcases (atOrAbove_iff hparent).1 hd with rfl | hd
    · exact ⟨habs, List.prefix_rfl⟩
    · obtain ⟨hdabs, hfront⟩ := ih hd
      exact ⟨hdabs, hsteps ▸ hfront.trans (List.prefix_append _ _)⟩

/-- Every start of the way to a path is the way to a directory above it. -/
theorem exists_atOrAbove_iff (habs : p.isAbsolute = true) (front : List String) :
    (∃ d : Path, d.AtOrAbove p ∧ d.steps = front) ↔ front <+: p.steps := by
  constructor
  · rintro ⟨d, hd, rfl⟩
    exact (steps_of_atOrAbove habs hd).2
  · intro hfront
    induction p, habs using inductionOnParents with
    | root p _ _ hsteps =>
      rw [hsteps, List.prefix_nil] at hfront
      exact ⟨p, atOrAbove_refl p, by rw [hfront, hsteps]⟩
    | child p _ q _ s hparent hsteps ih =>
      rw [hsteps, List.prefix_concat_iff] at hfront
      rcases hfront with rfl | hfront
      · exact ⟨p, atOrAbove_refl p, hsteps⟩
      · obtain ⟨d, hd, hdsteps⟩ := ih hfront
        exact ⟨d, (atOrAbove_iff hparent).2 (.inr hd), hdsteps⟩

/-- Two paths that are at or above each other are one. -/
theorem AtOrAbove.antisymm (habs : p.isAbsolute = true) (hd : d.AtOrAbove p) (hp : p.AtOrAbove d) :
    d = p := by
  rcases parent?_cases habs with ⟨hparent, -⟩ | ⟨q, s, hparent, hqabs, hsteps⟩
  · exact eq_of_atOrAbove hparent hd
  · refine ((atOrAbove_iff hparent).1 hd).resolve_right fun hdq => ?_
    obtain ⟨hdabs, hfront⟩ := steps_of_atOrAbove hqabs hdq
    have hlength := ((steps_of_atOrAbove hdabs hp).2.trans hfront).length_le
    simp [hsteps] at hlength

/-! ## Their locations -/

theorem locationFrom_of_isAbsolute (habs : p.isAbsolute = true) (w : Location) :
    p.locationFrom w = p.steps.foldl advance [] := by
  rw [← foldl_steps, origin, if_pos habs]

/-- Names lead down, one after the other. -/
theorem foldl_advance_names {names : List String} (hidle : ∀ s ∈ names, isIdle s = false)
    (hup : ".." ∉ names) (l : Location) : names.foldl advance l = names.reverse ++ l := by
  induction names generalizing l with
  | nil => rfl
  | cons s names ih =>
    have hadvance : advance l s = s :: l := by
      have hne : s ≠ ".." := fun h => hup (by simp [h])
      simp [advance, hidle s, hne]
    rw [List.foldl_cons, hadvance, ih (fun t ht => hidle t (List.mem_cons_of_mem _ ht))
      fun ht => hup (List.mem_cons_of_mem _ ht)]
    simp

theorem isIdle_of_mem_steps {s : String} (h : s ∈ p.steps) : isIdle s = false := by
  simpa using (List.mem_filter.1 h).2

theorem locationFrom_of_names (habs : p.isAbsolute = true) (hup : ".." ∉ p.steps) (w : Location) :
    p.locationFrom w = p.steps.reverse := by
  rw [locationFrom_of_isAbsolute habs, foldl_advance_names (fun s => isIdle_of_mem_steps) hup,
    List.append_nil]

/-- A path of names has the directories around its location above it, and no others. -/
theorem exists_locationFrom_iff (habs : p.isAbsolute = true) (hup : ".." ∉ p.steps)
    (w l : Location) :
    (∃ d : Path, d.AtOrAbove p ∧ d.locationFrom w = l) ↔ l <:+ p.locationFrom w := by
  rw [locationFrom_of_names habs hup]
  constructor
  · rintro ⟨d, hd, rfl⟩
    obtain ⟨hdabs, hfront⟩ := steps_of_atOrAbove habs hd
    rw [locationFrom_of_names hdabs fun h => hup (hfront.subset h)]
    exact List.reverse_suffix.2 hfront
  · intro hl
    have hfront : l.reverse <+: p.steps := by
      rw [← List.reverse_suffix, List.reverse_reverse]
      exact hl
    obtain ⟨d, hd, hsteps⟩ := (exists_atOrAbove_iff habs _).2 hfront
    have hdup : ".." ∉ d.steps := fun h => hup (hfront.subset (hsteps ▸ h))
    refine ⟨d, hd, ?_⟩
    rw [locationFrom_of_names (steps_of_atOrAbove habs hd).1 hdup, hsteps, List.reverse_reverse]

theorem isEmpty_of_isAbsolute (habs : p.isAbsolute = true) : p.isEmpty = false := by
  rw [Bool.eq_false_iff, Ne, Path.isEmpty_iff]
  intro hseg
  have hlength := (isAbsolute_iff.1 habs).2
  rw [hseg] at hlength
  exact absurd hlength (by decide)

theorem segments_child_of_isAbsolute {name : String} (habs : p.isAbsolute = true)
    (hname : isFileName name = true) : (p.child name).segments = p.unslashed ++ [name] := by
  rw [segments_child (isFileName_iff.1 hname).2.2.2, isEmpty_of_isAbsolute habs]
  rfl

theorem zero_mem_text_iff (p : Path) :
    '\x00' ∈ p.text.toList ↔ ∃ s ∈ p.steps, '\x00' ∈ s.toList := by
  rw [mem_text_iff (by decide)]
  constructor
  · rintro ⟨s, hs, hzero⟩
    refine ⟨s, List.mem_filter.2 ⟨hs, ?_⟩, hzero⟩
    rw [Bool.not_eq_true', isIdle, Bool.or_eq_false_iff]
    constructor
    · refine beq_eq_false_iff_ne.2 ?_
      rintro rfl
      simp at hzero
    · refine beq_eq_false_iff_ne.2 ?_
      rintro rfl
      simp at hzero
  · rintro ⟨s, hs, hzero⟩
    exact ⟨s, (List.mem_filter.1 hs).1, hzero⟩

end Path

namespace Files

open LtiUnit.Path

variable {f : Files} {p q : Path}

theorem walk_of_prefix {d l : Location} {front segments : List String}
    (h : f.walk d segments = .ok l) (hfront : front <+: segments) :
    f.walk d front = .ok (front.foldl advance d) := by
  obtain ⟨rest, rfl⟩ := hfront
  rw [walk, List.foldlM_append] at h
  change (f.walk d front >>= _) = _ at h
  cases hwalk : f.walk d front with
  | error e =>
    rw [hwalk] at h
    cases h
  | ok m => rw [location_of_walk hwalk]

/-- If a directory is there, so are all above it, and what is looked up in one of them is what
stands at its location. -/
theorem follow_child_of_atOrAbove {d : Path} {name : String} (hdir : f.isDirectory p = true)
    (habs : p.isAbsolute = true) (hd : d.AtOrAbove p) (hname : Nameable name) :
    f.follow (d.child name) = .ok (.within name (d.locationFrom f.here) false hname.proper) := by
  obtain ⟨hdabs, hfront⟩ := steps_of_atOrAbove habs hd
  have hfind := isDirectory_iff.1 hdir
  obtain ⟨d0, hstart, hwalk⟩ := walk_of_find? hfind
  have hroot : d0 = [] := (start_eq_ok hstart).trans (if_pos habs)
  have hzero : '\x00' ∉ (d.child name).text.toList := by
    rw [zero_mem_text_iff, steps_child hname.proper]
    rintro ⟨s, hs, hs0⟩
    rcases List.mem_append.1 hs with hs | hs
    · exact (followable_of_find? hfind).2 ((zero_mem_text_iff p).2 ⟨s, hfront.subset hs, hs0⟩)
    · exact hname.nonzero (List.mem_singleton.1 hs ▸ hs0)
  rw [← walk_filter, hroot] at hwalk
  have hlevel : f.walk [] d.unslashed = .ok (d.locationFrom f.here) := by
    rw [← walk_filter, filter_unslashed, locationFrom_of_isAbsolute hdabs]
    exact walk_of_prefix hwalk hfront
  have hchild : (d.child name).isAbsolute = true :=
    (isAbsolute_child (isFileName_iff.1 hname.proper).2.2.2).trans hdabs
  refine follow_eq_within_iff.2 ⟨⟨isEmpty_of_isAbsolute hchild, hzero⟩,
    (endsInSlash_of_endsInName (endsInName_child d hname.proper)).symm, d.unslashed, 0, [],
    segments_child_of_isAbsolute hdabs hname.proper, if_pos hchild, hlevel, ?_⟩
  rw [named, if_neg (Nat.not_lt.2 hname.fits)]

end Files

namespace Command

open LtiUnit.Path LtiUnit.Files

variable {f : Files} {p d : Path} {r : Except CommandError (Option FoundConfig)}

/-! ## The search -/

/-- Where the configuration of a directory stands. -/
def configFile (d : Path) : Path := d.child Config.fileName

/-- The search from a directory on, and what it comes to. -/
inductive Search (f : Files) : Path → Except CommandError (Option FoundConfig) → Prop where
  | here {d : Path} : f.isFile (configFile d) = true → Search f d ((loadConfig f d).map some)
  | up {d parent : Path} {r : Except CommandError (Option FoundConfig)} :
    f.isFile (configFile d) = false → d.parent? = some parent → Search f parent r → Search f d r
  | root {d : Path} : f.isFile (configFile d) = false → d.parent? = none → Search f d (.ok none)

theorem firstConfig_of_file {more : List Path} (h : f.isFile (configFile d) = true) :
    firstConfig f (d :: more) = (loadConfig f d).map some := if_pos h

theorem firstConfig_of_no_file {more : List Path} (h : f.isFile (configFile d) = false) :
    firstConfig f (d :: more) = firstConfig f more := if_neg (ne_true_of_eq_false h)

theorem search_root (hparent : p.parent? = none) : Search f p (firstConfig f [p]) := by
  cases hfile : f.isFile (configFile p) with
  | true =>
    rw [firstConfig_of_file hfile]
    exact .here hfile
  | false =>
    rw [firstConfig_of_no_file hfile]
    exact .root hfile hparent

theorem search_ancestorsWithin (habs : p.isAbsolute = true) {n : Nat} (hn : p.steps.length ≤ n) :
    Search f p (firstConfig f (ancestorsWithin n p)) := by
  induction n generalizing p with
  | zero =>
    rcases parent?_cases habs with ⟨hparent, -⟩ | ⟨q, s, -, -, hsteps⟩
    · exact search_root hparent
    · simp [hsteps] at hn
  | succ n ih =>
    rcases parent?_cases habs with ⟨hparent, -⟩ | ⟨q, s, hparent, hqabs, hsteps⟩
    · rw [ancestorsWithin, hparent]
      exact search_root hparent
    · have hq : q.steps.length ≤ n := by simpa [hsteps] using hn
      rw [ancestorsWithin, hparent]
      cases hfile : f.isFile (configFile p) with
      | true =>
        rw [firstConfig_of_file hfile]
        exact .here hfile
      | false =>
        rw [firstConfig_of_no_file hfile]
        exact .up hfile hparent (ih hqabs hq)

/-- The search from an absolute path ends, with the configuration that is in force there. -/
theorem search_findConfig (f : Files) (habs : p.isAbsolute = true) :
    Search f p (findConfig f p) :=
  search_ancestorsWithin habs (List.length_filter_le _ _)

/-! ## The nearest configuration file -/

/-- Whether a regular file with the name of configurations stands in a directory. -/
def HasConfig (f : Files) (d : Path) : Prop :=
  ∃ l content executable, f.find? (configFile d) = .ok (l, .file content executable)

/-- All directories at and above a path that have a configuration file are at or above this one. -/
structure Nearest (f : Files) (p d : Path) : Prop where
  atOrAbove : d.AtOrAbove p
  has : HasConfig f d
  nearest : ∀ d' : Path, d'.AtOrAbove p → HasConfig f d' → d'.AtOrAbove d

/-- A text has the form of a configuration. -/
def Config.Parses (s : String) (c : Config) : Prop :=
  (Toml.members? s).bind Config.ofMembers? = some c

/-- The step size of a configuration, if there is one, can be used. -/
def Config.Valid (c : Config) : Prop := ∀ x, c.stepSize = some x → x.isFinite = true ∧ 0 < x

/-- A file holds a configuration. -/
def Holds (f : Files) (file : Path) (c : Config) : Prop :=
  ∃ s, f.text? file = .ok s ∧ Config.Parses s c ∧ c.Valid

/-- An error says that a file cannot be read, or is no configuration. -/
def Blames (e : CommandError) (file : Path) : Prop :=
  ∃ why, e.message = "reading " ++ file.text ++ ": " ++ why ∨
    e.message = "parsing " ++ file.text ++ ": " ++ why

/-- The file of a directory decides: its configuration is the one, or else there is an error. -/
structure DecidedBy (f : Files) (d : Path) (r : Except CommandError (Option FoundConfig)) :
    Prop where
  accepted : ∀ c, Holds f (configFile d) c → r = .ok (some ⟨c, d⟩)
  refused : (¬∃ c, Holds f (configFile d) c) → ∃ e, r = .error e ∧ Blames e (configFile d)

/-- What is in force at a path. -/
structure Governed (f : Files) (p : Path) (r : Except CommandError (Option FoundConfig)) :
    Prop where
  none_iff : r = .ok none ↔ ∀ d : Path, d.AtOrAbove p → ¬HasConfig f d
  exists_nearest : ∀ d : Path, d.AtOrAbove p → HasConfig f d → ∃ d', Nearest f p d'
  nearest : ∀ d, Nearest f p d → DecidedBy f d r

theorem hasConfig_iff : HasConfig f d ↔ f.isFile (configFile d) = true := by
  rw [HasConfig, isFile]
  constructor
  · rintro ⟨l, content, executable, hfind⟩
    rw [hfind]
  · intro hfile
    split at hfile
    · rename_i l content executable hfind
      exact ⟨l, content, executable, hfind⟩
    · cases hfile

theorem not_hasConfig (h : f.isFile (configFile d) = false) : ¬HasConfig f d := by
  rw [hasConfig_iff, h]
  exact Bool.false_ne_true

theorem nameable_fileName : Nameable Config.fileName :=
  Package.nameable_of_length (by decide) (by decide) (by decide)

/-- The configuration of a directory that is there stands in it under its name. -/
theorem hasConfig_iff_get? (hdir : f.isDirectory p = true) (habs : p.isAbsolute = true)
    (hd : d.AtOrAbove p) :
    HasConfig f d ↔ ∃ content executable,
      f.get? (Config.fileName :: d.locationFrom f.here) = some (.file content executable) := by
  have hfollow := follow_child_of_atOrAbove hdir habs hd nameable_fileName
  constructor
  · rintro ⟨l, content, executable, hfind⟩
    exact ⟨content, executable, (find?_of_within hfollow hfind).2⟩
  · rintro ⟨content, executable, hget⟩
    exact ⟨_, content, executable, find?_of_file hfollow hget⟩

/-! ## What the nearest file decides -/

theorem ofText?_of_parses {s : String} {c : Config} (h : Config.Parses s c) :
    Config.ofText? s = match c.stepSize with
      | some x => if Render.validStepSize x then .ok c else .error (.stepSize x)
      | none => .ok c := by
  rw [Config.Parses] at h
  cases hx : c.stepSize with
  | none => simp only [Config.ofText?, h, hx]
  | some x => simp only [Config.ofText?, h, hx]

theorem valid_iff {c : Config} :
    c.Valid ↔ ∀ x, c.stepSize = some x → Render.validStepSize x = true := by
  simp only [Config.Valid, Render.validStepSize_iff]

theorem ofText?_of_valid {s : String} {c : Config} (h : Config.Parses s c) (hvalid : c.Valid) :
    Config.ofText? s = .ok c := by
  rw [ofText?_of_parses h]
  cases hstep : c.stepSize with
  | none => rfl
  | some x => exact if_pos (valid_iff.1 hvalid x hstep)

theorem parses_of_ofText? {s : String} {c : Config} (h : Config.ofText? s = .ok c) :
    Config.Parses s c ∧ c.Valid := by
  cases hparse : (Toml.members? s).bind Config.ofMembers? with
  | none =>
    rw [Config.ofText?, hparse] at h
    cases h
  | some c' =>
    rw [ofText?_of_parses hparse] at h
    split at h
    · rename_i x hstep
      split at h
      · rename_i hx
        cases h
        exact ⟨hparse, valid_iff.2 fun y hy => Option.some.inj (hstep.symm.trans hy) ▸ hx⟩
      · cases h
    · rename_i hstep
      cases h
      exact ⟨hparse, fun x hx => by cases hstep.symm.trans hx⟩

theorem loadConfig_of_holds {c : Config} (h : Holds f (configFile d) c) :
    loadConfig f d = .ok ⟨c, d⟩ := by
  obtain ⟨s, htext, hparse, hvalid⟩ := h
  have htext' : f.text? (d.child Config.fileName) = .ok s := htext
  simp only [loadConfig, htext', ofText?_of_valid hparse hvalid]

/-- A configuration that cannot be loaded is reported with its file. -/
theorem loadConfig_of_not_holds (h : ¬∃ c, Holds f (configFile d) c) :
    ∃ e, loadConfig f d = .error e ∧ Blames e (configFile d) := by
  cases htext : f.text? (d.child Config.fileName) with
  | error e =>
    exact ⟨.reading (configFile d) e, by simp only [loadConfig, htext, configFile],
      e.message, .inl rfl⟩
  | ok s =>
    cases hread : Config.ofText? s with
    | ok c => exact absurd ⟨c, s, htext, parses_of_ofText? hread⟩ h
    | error e =>
      exact ⟨.config (configFile d) e, by simp only [loadConfig, htext, hread, configFile],
        e.message, .inr rfl⟩

theorem decidedBy_loadConfig (f : Files) (d : Path) :
    DecidedBy f d ((loadConfig f d).map some) where
  accepted c h := by
    rw [loadConfig_of_holds h]
    rfl
  refused h := by
    obtain ⟨e, hload, hblames⟩ := loadConfig_of_not_holds h
    exact ⟨e, by rw [hload]; rfl, hblames⟩

theorem governed_of_search (h : Search f p r) (habs : p.isAbsolute = true) : Governed f p r := by
  induction h with
  | @here d hfile =>
    have hhas : HasConfig f d := hasConfig_iff.2 hfile
    refine ⟨⟨fun hnone => ?_, fun hall => absurd hhas (hall d (atOrAbove_refl d))⟩,
      fun _ _ _ => ⟨d, atOrAbove_refl d, hhas, fun _ hd' _ => hd'⟩, fun d' hd' => ?_⟩
    · cases hload : loadConfig f d <;> rw [hload] at hnone <;> cases hnone
    · obtain rfl := hd'.atOrAbove.antisymm habs (hd'.nearest d (atOrAbove_refl d) hhas)
      exact decidedBy_loadConfig f d'
  | @up d parent r hfile hparent _ ih =>
    have hparentAbs := (steps_of_atOrAbove habs ((atOrAbove_iff hparent).2
      (.inr (atOrAbove_refl parent)))).1
    obtain ⟨hnone, hexists, hnearest⟩ := ih hparentAbs
    -- of the two, only the parent and what is above it can have the file
    have hup {d' : Path} (hd' : d'.AtOrAbove d) (hhas : HasConfig f d') : d'.AtOrAbove parent :=
      ((atOrAbove_iff hparent).1 hd').resolve_left fun h => not_hasConfig hfile (h ▸ hhas)
    have hdown {d' : Path} (hd' : d'.AtOrAbove parent) : d'.AtOrAbove d :=
      (atOrAbove_iff hparent).2 (.inr hd')
    refine ⟨hnone.trans ⟨fun h d' hd' hhas => h d' (hup hd' hhas) hhas,
      fun h d' hd' => h d' (hdown hd')⟩, fun d' hd' hhas => ?_, fun d' hd' => hnearest d' ?_⟩
    · obtain ⟨d'', hd''⟩ := hexists d' (hup hd' hhas) hhas
      exact ⟨d'', hdown hd''.atOrAbove, hd''.has,
        fun e he hehas => hd''.nearest e (hup he hehas) hehas⟩
    · exact ⟨hup hd'.atOrAbove hd'.has, hd'.has, fun e he => hd'.nearest e (hdown he)⟩
  | @root d hfile hparent =>
    have hnot {d' : Path} (hd' : d'.AtOrAbove d) : ¬HasConfig f d' :=
      eq_of_atOrAbove hparent hd' ▸ not_hasConfig hfile
    exact ⟨⟨fun _ d' hd' => hnot hd', fun _ => rfl⟩, fun d' hd' hhas => absurd hhas (hnot hd'),
      fun d' hd' => absurd hd'.has (hnot hd'.atOrAbove)⟩

/-- What is searched from a path: the directories that it passes, each of which is there if the path
leads to a directory, and stands around it if the path is one of names. -/
structure Searched (f : Files) (p : Path) : Prop where
  ways : ∀ front, (∃ d : Path, d.AtOrAbove p ∧ d.steps = front) ↔ front <+: p.steps
  around : ".." ∉ p.steps → ∀ l,
    (∃ d : Path, d.AtOrAbove p ∧ d.locationFrom f.here = l) ↔ l <:+ p.locationFrom f.here
  stands : f.isDirectory p = true → ∀ d : Path, d.AtOrAbove p →
    (HasConfig f d ↔ ∃ content executable,
      f.get? (Config.fileName :: d.locationFrom f.here) = some (.file content executable))

theorem searched_of_isAbsolute (f : Files) (habs : p.isAbsolute = true) : Searched f p where
  ways := exists_atOrAbove_iff habs
  around hup := exists_locationFrom_iff habs hup f.here
  stands hdir _ hd := hasConfig_iff_get? hdir habs hd

/-- The search from an absolute path ends. There is no configuration exactly if no directory at or
above the path has a file for it. If there is one, the nearest of them decides: what it holds is in
force, and if it holds no configuration, there is an error that names it, whatever is further up. -/
theorem findConfig_nearest (f : Files) {p : Path} (habs : p.isAbsolute = true) :
    Searched f p ∧ Search f p (findConfig f p) ∧ Governed f p (findConfig f p) :=
  ⟨searched_of_isAbsolute f habs, search_findConfig f habs,
    governed_of_search (search_findConfig f habs) habs⟩

/-- The directory `/project/part` with three things under the name of configurations: an empty file
in the root, a file in `/project` that is no configuration, and a directory in `/project/part`. -/
def nested : Files where
  entries :=
    [(["ltifmu.toml", "part", "project"], .directory), (["part", "project"], .directory),
      (["ltifmu.toml", "project"], .file (.ofText "[") false), (["project"], .directory),
      (["ltifmu.toml"], .file (.ofText "") false)]
  here := []
  unique := by decide
  grounded := by simp
  proper := by simp [isFileName]

/-- In `/project/part`, the file of `/project` decides, though it cannot be used. -/
theorem findConfig_nearest_nested :
    let p := Path.ofText "/project/part"
    p.isAbsolute = true ∧ nested.isDirectory p = true ∧
      Nearest nested p (ofText "/project") ∧
      ∃ e, findConfig nested p = .error e ∧ Blames e (ofText "/project/ltifmu.toml") := by
  intro p
  have habs : p.isAbsolute = true := by decide
  have hpart : isFileName "part" = true := isFileName_of_length (by decide) (by decide)
  have hfollow : nested.follow p = .ok (.within "part" ["project"] false hpart) :=
    follow_eq_within_iff.2 ⟨⟨by decide, by decide⟩, by decide, ["", "project"], 0, [],
      by decide, rfl, rfl, rfl⟩
  have hdir : nested.isDirectory p = true := by
    rw [isDirectory, find?_of_directory hfollow rfl]
  obtain ⟨⟨-, -, hstands⟩, -, -, -, hnearest⟩ := findConfig_nearest nested habs
  have hparent : p.parent? = some (ofText "/project") := by decide
  have hup : (ofText "/project").AtOrAbove p :=
    (atOrAbove_iff hparent).2 (.inr (atOrAbove_refl _))
  have hhas : HasConfig nested (ofText "/project") :=
    (hstands hdir _ hup).2 ⟨.ofText "[", false, rfl⟩
  have hnone : ¬HasConfig nested p := by
    rw [hstands hdir p (atOrAbove_refl p)]
    rintro ⟨content, executable, hget⟩
    cases hget
  have hproject : Nearest nested p (ofText "/project") := by
    refine ⟨hup, hhas, fun d hd hdhas => ?_⟩
    exact ((atOrAbove_iff hparent).1 hd).resolve_left fun h => hnone (h ▸ hdhas)
  have hfile := find?_of_file (follow_child_of_atOrAbove hdir habs hup nameable_fileName)
    (rfl : nested.get? _ = some (.file (.ofText "[") false))
  have htext : nested.text? (configFile (ofText "/project")) = .ok "[" := by
    simp only [text?, content?, configFile, hfile, bind, Except.bind, pure, Except.pure,
      Content.text?_ofText]
  have hform : (Toml.members? "[").bind Config.ofMembers? = none := by decide +kernel
  have hrefused : ¬∃ c, Holds nested (configFile (ofText "/project")) c := by
    rintro ⟨c, s, hs, hparse, -⟩
    cases htext.symm.trans hs
    cases hform.symm.trans hparse
  exact ⟨habs, hdir, hproject, (hnearest _ hproject).refused hrefused⟩

end Command
end LtiUnit
