import LtiUnit.Proofs.StageSteps
import Mathlib.Data.List.Pairwise

/-!
# LtiUnit.Proofs.ScratchGuards

Scratch directories that are created and dropped in any order. Whoever has created one holds it
until he drops it, and as long as it is held it is there (`Held.Sane`). A creation that fails takes
nothing away (`Held.step_of_failure`).
-/

namespace LtiUnit
namespace Package.Scratch

open LtiUnit.Files LtiUnit.Path

/-- A scratch directory is asked for, or given back. -/
inductive Event where
  | create (directory : Path) (name : String)
  | drop (s : Scratch)

/-- The files, and the scratch directories that are held. -/
structure Held where
  files : Files
  guards : List Scratch

-- Whether a creation succeeds is settled by `create_cases`, never by what its definition comes to.
attribute [local irreducible] create

namespace Held

/-- A scratch directory is held if its creation succeeds, until it is dropped. -/
def step (x : Held) : Event → Held
  | .create directory name =>
    match create directory name x.files with
    | (.ok s, f) => ⟨f, s :: x.guards⟩
    | (.error _, f) => ⟨f, x.guards⟩
  | .drop s => if s ∈ x.guards then ⟨(s.remove x.files).2, x.guards.erase s⟩ else x

def run (x : Held) (events : List Event) : Held := events.foldl step x

/-- A creation that fails leaves the files and all that is held. -/
theorem step_of_failure (x : Held) {directory : Path} {name : String} {e : PackageError}
    (h : (create directory name x.files).1 = .error e) : x.step (.create directory name) = x := by
  rcases create_cases directory name x.files with ⟨g, hcreate, -⟩ | ⟨e', hcreate, -⟩
  · rw [hcreate] at h
    cases h
  · rw [step, hcreate]

end Held

/-- Whether the directories in which scratch directories are asked for lie outside all of them. -/
structure Apart (events : List Event) (here : Location) : Prop where
  named : ∀ directory name, .create directory name ∈ events → isName name = true
  outside : ∀ directory name directory' name', .create directory name ∈ events →
    .create directory' name' ∈ events →
      directory.Avoids here (isBelow · ((pathFor directory' name').locationFrom here))

/-- What holds while scratch directories are created and dropped. -/
structure Held.Sane (events : List Event) (here : Location) (x : Held) : Prop where
  here_eq : x.files.here = here
  asked : ∀ s ∈ x.guards, ∃ directory name,
    .create directory name ∈ events ∧ s = ⟨pathFor directory name⟩
  there : ∀ s ∈ x.guards, x.files.isDirectory s.path = true
  alone : x.guards.Pairwise fun s s' => s.path.locationFrom here ≠ s'.path.locationFrom here

variable {events : List Event} {here : Location} {x : Held}

theorem isDirectory_of_createDirectory {f g : Files} {p : Path} (h : f.createDirectory p = .ok g) :
    g.isDirectory p = true ∧ f.get? (p.locationFrom f.here) = none ∧ Keeps f g := by
  obtain ⟨name, d, slashed, proper, hfollow, hnew, hagree, hthere⟩ := createDirectory_eq_ok h
  have hkeeps : Keeps f g := hagree.keeps fun d' hd hdir => by
    rw [hd, hnew] at hdir
    cases hdir
  refine ⟨?_, location_of_follow hfollow ▸ hnew, hkeeps⟩
  rw [isDirectory, find?_of_directory (hkeeps.follow hfollow) hthere]

theorem Held.Sane.create (h : x.Sane events here) {directory : Path} {name : String}
    (hevent : .create directory name ∈ events) :
    (x.step (.create directory name)).Sane events here := by
  rcases create_cases directory name x.files with ⟨g, hcreate, hg⟩ | ⟨e, hcreate, -⟩
  · obtain ⟨hthere, hnew, hkeeps⟩ := isDirectory_of_createDirectory hg
    rw [step, hcreate]
    constructor
    · exact hkeeps.here.trans h.here_eq
    · exact List.forall_mem_cons.2 ⟨⟨directory, name, hevent, rfl⟩, h.asked⟩
    · refine List.forall_mem_cons.2 ⟨hthere, fun s hs => ?_⟩
      exact hkeeps.way.isDirectory (h.there s hs)
    · refine List.pairwise_cons.2 ⟨fun s hs heq => ?_, h.alone⟩
      have hdirectory := get?_of_isDirectory (h.there s hs)
      rw [h.here_eq] at hdirectory hnew
      rw [heq, hdirectory] at hnew
      cases hnew
  · rw [x.step_of_failure (congrArg Prod.fst hcreate)]
    exact h

theorem agree_remove (s : Scratch) (f : Files) :
    AgreeOutside (isBelow · (s.path.locationFrom f.here)) f (s.remove f).2 := by
  unfold remove Action.change
  split
  · exact removeDirectory_eq_ok ‹_›
  · exact .refl f

/-- The way to a scratch directory leads through no other one. -/
theorem Apart.avoids (h : Apart events here) {directory directory' : Path} {name name' : String}
    (hevent : .create directory name ∈ events) (hevent' : .create directory' name' ∈ events)
    (hne : (pathFor directory' name').locationFrom here ≠
      (pathFor directory name).locationFrom here) :
    (pathFor directory name).Avoids here
      (isBelow · ((pathFor directory' name').locationFrom here)) := by
  have hname := h.named _ _ hevent
  have houtside := h.outside _ _ _ _ hevent hevent'
  refine (avoids_child (isFileName_around hname "." (by decide) (by decide))).2
    ⟨houtside, fun hb => ?_⟩
  rcases isBelow_cons_iff.1 hb with heq | hb
  · rw [locationFrom_pathFor hname] at hne
    exact hne heq
  · exact houtside.location hb

/-- What is dropped takes no other scratch directory with it. -/
theorem Held.Sane.drop (h : x.Sane events here) (hapart : Apart events here) (s : Scratch) :
    (x.step (.drop s)).Sane events here := by
  obtain rfl := h.here_eq
  have : Std.Symm fun s s' : Scratch =>
      s.path.locationFrom x.files.here ≠ s'.path.locationFrom x.files.here :=
    ⟨fun _ _ hne => hne.symm⟩
  rw [step]
  split
  · rename_i hs
    have hnodup : x.guards.Nodup := h.alone.imp fun hne heq => hne (by rw [heq])
    have hagree := agree_remove s x.files
    constructor
    · exact hagree.here
    · exact fun s' hs' => h.asked s' (List.mem_of_mem_erase hs')
    · intro s' hs'
      obtain ⟨hne, hheld⟩ := hnodup.mem_erase_iff.1 hs'
      obtain ⟨directory, name, hevent, rfl⟩ := h.asked s hs
      obtain ⟨directory', name', hevent', rfl⟩ := h.asked s' hheld
      have havoids := hapart.avoids hevent' hevent (h.alone.forall hs hheld hne.symm)
      refine (KeepsWay.of_avoids hagree.here havoids fun d hd hdir => ?_).isDirectory
        (h.there _ hheld)
      rw [hagree.get? d hd, hdir]
    · exact h.alone.sublist List.erase_sublist
  · exact h

theorem Held.Sane.run (h : x.Sane events here) (hapart : Apart events here) {taken : List Event}
    (htaken : taken ⊆ events) : (x.run taken).Sane events here := by
  induction taken generalizing x with
  | nil => exact h
  | cons event taken ih =>
    rw [List.cons_subset] at htaken
    refine ih ?_ htaken.2
    cases event with
    | create directory name => exact h.create htaken.1
    | drop s => exact h.drop hapart s

theorem Held.sane_start (events : List Event) (f : Files) :
    Held.Sane events f.here ⟨f, []⟩ where
  here_eq := rfl
  asked := nofun
  there := nofun
  alone := .nil

end Package.Scratch
end LtiUnit
