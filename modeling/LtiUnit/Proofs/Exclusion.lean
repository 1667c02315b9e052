import LtiUnit.Proofs.BuildTrace
import LtiUnit.Proofs.Interleaving

/-!
# LtiUnit.Proofs.Exclusion

What one step of a build can do to the files that it shares with others.

Destination directories and runtime directories lie outside all scratch trees (`Outside`), so no
scratch tree lies in another one (`Outside.eq_of_isBelow`).
-/

namespace LtiUnit

open LtiUnit.Files LtiUnit.Path LtiUnit.Package LtiUnit.Action

/-- Whether a location is the scratch tree that a build works in if its destination is in order. -/
def Build.IsTree (b : Build) (here t : Location) : Prop :=
  ∃ name, isName name = true ∧ b.job.output.fileName? = some (name ++ "." ++ Destination.ending) ∧
    t = (Scratch.pathFor (Destination.directoryOf b.job.output) name).locationFrom here

/-- The scratch trees of some builds. -/
def Trees {ι : Type} (builds : ι → Build) (here t : Location) : Prop :=
  ∃ k, (builds k).IsTree here t

/-- Whether the ways to the destination directories and the runtime directories of some builds lie
outside all their scratch trees, and their toolchains keep to the trees that they work in. -/
structure Outside {ι : Type} (builds : ι → Build) (here : Location) : Prop where
  destination : ∀ k t, Trees builds here t →
    (Destination.directoryOf (builds k).job.output).Avoids here (isBelow · t)
  runtime : ∀ k t, Trees builds here t →
    (builds k).job.runtimeDirectory.Avoids here (isBelow · t)
  toolchain : ∀ k, (builds k).toolchain.Discreet here (Trees builds here)

theorem isBelow_cons_iff {name : String} {d t : Location} :
    isBelow (name :: d) t = true ↔ t = name :: d ∨ isBelow d t = true := by
  rw [isBelow_iff, isBelow_iff, List.suffix_cons_iff]

namespace Outside

variable {ι : Type} {builds : ι → Build} {here : Location}

/-- No scratch tree lies in another one. -/
theorem eq_of_isBelow (h : Outside builds here) {s t : Location} (hs : Trees builds here s)
    (ht : Trees builds here t) (hb : isBelow s t = true) : s = t := by
  obtain ⟨k, name, hname, -, rfl⟩ := hs
  rw [locationFrom_pathFor hname] at hb ⊢
  rcases isBelow_cons_iff.1 hb with heq | hb
  · exact heq.symm
  · exact absurd hb (h.destination k t ht).location

theorem eq_of_common (h : Outside builds here) {l s t : Location} (hs : Trees builds here s)
    (ht : Trees builds here t) (hls : isBelow l s = true) (hlt : isBelow l t = true) : s = t := by
  rcases List.suffix_or_suffix_of_suffix (isBelow_iff.1 hls) (isBelow_iff.1 hlt) with hst | hts
  · exact (h.eq_of_isBelow ht hs (isBelow_iff.2 hst)).symm
  · exact h.eq_of_isBelow hs ht (isBelow_iff.2 hts)

theorem scratchName_ne {name name' : String} (h : isName name = true) :
    name ++ "." ++ Destination.ending ≠ "." ++ name' ++ ".fmu-build" := by
  intro heq
  have hlist := congrArg String.toList heq
  simp only [String.toList_append] at hlist
  unfold isName isIdentifier at h
  cases hc : name.toList with
  | nil => rw [hc] at h; cases h
  | cons c rest =>
    rw [hc] at h hlist
    have hdot : c = '.' := (List.cons.inj hlist).1
    rw [hdot, Bool.and_eq_true] at h
    exact absurd h.1 (by decide)

/-- Archives are put outside all scratch trees. -/
theorem not_isBelow_output (h : Outside builds here) {k : ι} {name : String}
    (hname : isName name = true)
    (hfile : (builds k).job.output.fileName? = some (name ++ "." ++ Destination.ending))
    {t : Location} (ht : Trees builds here t) :
    ¬isBelow ((builds k).job.output.locationFrom here) t = true := by
  have hdirectory := (h.destination k t ht).location
  obtain ⟨j, name', hname', -, rfl⟩ := ht
  rw [Destination.locationFrom_directoryOf hfile]
  intro hb
  rcases isBelow_cons_iff.1 hb with heq | hb
  · rw [locationFrom_pathFor hname'] at heq
    exact scratchName_ne hname (List.cons.inj heq).1.symm
  · exact hdirectory hb

theorem avoids_output (h : Outside builds here) {k : ι} {name : String}
    (hname : isName name = true)
    (hfile : (builds k).job.output.fileName? = some (name ++ "." ++ Destination.ending))
    {t : Location} (ht : Trees builds here t) :
    (builds k).job.output.Avoids here (Inside · t) := by
  refine (Path.avoids_output hfile).2 ⟨(h.destination k t ht).mono fun _ hl => hl.1, fun hin => ?_⟩
  rw [← Destination.locationFrom_directoryOf hfile] at hin
  exact h.not_isBelow_output hname hfile ht hin.1

end Outside

/-! ## What a build relies on -/

namespace Build

/-- A destination as it comes out of the check of a path. -/
structure Destined (b : Build) (destination : Destination) : Prop where
  directory : destination.directory = Destination.directoryOf b.job.output
  file : b.job.output.fileName? = some (destination.name ++ "." ++ Destination.ending)

/-- A plan as it comes out of the checks of a job. -/
structure Planned (b : Build) (plan : Plan) : Prop where
  destined : b.Destined plan.destination
  skeleton : plan.skeleton.directory = b.job.runtimeDirectory
  proper : ∀ name ∈ plan.skeleton.names, isFileName name = true

namespace Plan

variable {plan : Plan} {here : Location} {f g : Files}

def location (plan : Plan) (here : Location) : Location := plan.scratch.locationFrom here

/-- The files while the scratch directory is there. -/
structure Ready (plan : Plan) (f : Files) : Prop where
  directory : f.isDirectory plan.destination.directory = true
  fits : ("." ++ plan.destination.name ++ ".fmu-build").utf8ByteSize ≤ longestName
  there : f.get? (plan.location f.here) = some .directory

theorem not_isBelow_of_apart {l s t : Location} (hst : ¬isBelow s t = true)
    (hts : ¬isBelow t s = true) (hl : isBelow l s = true) : ¬isBelow l t = true := by
  intro hlt
  rcases List.suffix_or_suffix_of_suffix (isBelow_iff.1 hl) (isBelow_iff.1 hlt) with h | h
  · exact hts (isBelow_iff.2 h)
  · exact hst (isBelow_iff.2 h)

/-- What a build may do in its scratch directory. -/
def bounds (plan : Plan) (here : Location) (trees : Location → Prop) : Bounds where
  here := here
  ready := plan.Ready
  own l := Inside l (plan.location here)
  others t := trees t ∧ ¬isBelow (plan.location here) t = true ∧
    ¬isBelow t (plan.location here) = true
  apart _ _ hl ht hlt := not_isBelow_of_apart ht.2.1 ht.2.2 hl.1 hlt.1

theorem isFileName_scratch (plan : Plan) :
    isFileName ("." ++ plan.destination.name ++ ".fmu-build") = true :=
  isFileName_around plan.destination.isName "." (by decide) (by decide)

theorem isFileName_archive (plan : Plan) :
    isFileName (plan.destination.name ++ ".zip") = true := by
  have h : isFileName ("" ++ plan.destination.name ++ ".zip") = true :=
    isFileName_around plan.destination.isName "" (by decide) (by decide)
  rwa [String.empty_append] at h

theorem location_eq (plan : Plan) (here : Location) : plan.location here =
    ("." ++ plan.destination.name ++ ".fmu-build") ::
      plan.destination.directory.locationFrom here :=
  locationFrom_pathFor plan.destination.isName _ _

theorem location_ne_nil (plan : Plan) (here : Location) : plan.location here ≠ [] := by
  rw [location_eq]
  exact List.cons_ne_nil _ _

theorem zero_not_mem (plan : Plan) :
    '\x00' ∉ ("." ++ plan.destination.name ++ ".fmu-build").toList := by
  simp only [String.toList_append, List.mem_append, not_or]
  exact ⟨⟨by decide, fun hc =>
    absurd (isNameRest_of_mem plan.destination.isName hc) (by decide)⟩, by decide⟩

theorem follow_scratch (hd : f.isDirectory plan.destination.directory = true)
    (hfits : ("." ++ plan.destination.name ++ ".fmu-build").utf8ByteSize ≤ longestName) :
    f.follow plan.scratch =
      .ok (.within ("." ++ plan.destination.name ++ ".fmu-build")
        (plan.destination.directory.locationFrom f.here) false plan.isFileName_scratch) :=
  follow_child hd plan.isFileName_scratch plan.zero_not_mem hfits

theorem Ready.ensureDirectory (h : plan.Ready f) : f.ensureDirectory plan.scratch = .ok f := by
  have hfollow := follow_scratch h.directory h.fits
  refine ensureDirectory_of_directory hfollow ?_
  rw [← location_eq]
  exact h.there

end Plan

end Build

/-! ## Discretion of the work in a scratch directory -/

namespace Outside

open Build (Plan)
open Stepwise (discreet_bind discreet_once)

variable {ι : Type} {builds : ι → Build} {here : Location} {k : ι} {plan : Plan}

theorem isTree (hp : (builds k).Planned plan) : Trees builds here (plan.location here) := by
  refine ⟨k, plan.destination.name, plan.destination.isName, hp.destined.file, ?_⟩
  rw [← hp.destined.directory]
  rfl

theorem others (h : Outside builds here) (hp : (builds k).Planned plan) {t : Location}
    (ht : Trees builds here t) (hne : t ≠ plan.location here) :
    (plan.bounds here (Trees builds here)).others t :=
  ⟨ht, fun hb => hne (h.eq_of_isBelow (isTree hp) ht hb).symm,
    fun hb => hne (h.eq_of_isBelow ht (isTree hp) hb)⟩

/-- The way to a scratch directory leads into no scratch tree. -/
theorem avoids_scratch (h : Outside builds here) (hp : (builds k).Planned plan) {t : Location}
    (ht : Trees builds here t) : plan.scratch.Avoids here (Inside · t) := by
  refine (avoids_child plan.isFileName_scratch).2 ⟨?_, fun hinside => ?_⟩
  · rw [hp.destined.directory]
    exact (h.destination k t ht).mono fun _ hl => hl.1
  · rw [← Plan.location_eq] at hinside
    exact hinside.2 (h.eq_of_isBelow (isTree hp) ht hinside.1)

theorem atScratch (h : Outside builds here) (hp : (builds k).Planned plan) :
    (plan.bounds here (Trees builds here)).AtScratch plan.scratch where
  clear _ ht := h.avoids_scratch hp ht.1
  own _ hl := hl
  there _ hf := hf.2.ensureDirectory
  named := endsInName_child _ plan.isFileName_scratch

theorem not_inside_runtime (h : Outside builds here) (k : ι) {t : Location}
    (ht : Trees builds here t) (name : String) :
    ¬Inside (name :: (builds k).job.runtimeDirectory.locationFrom here) t := by
  intro hinside
  rcases isBelow_cons_iff.1 hinside.1 with heq | hb
  · exact hinside.2 heq.symm
  · exact (h.runtime k t ht).location hb

theorem avoids_header (h : Outside builds here) (k : ι) {t : Location}
    (ht : Trees builds here t) {name : String} (hname : isFileName name = true) :
    ((builds k).job.runtimeDirectory.child name).Avoids here (Inside · t) :=
  (avoids_child hname).2
    ⟨(h.runtime k t ht).mono fun _ hl => hl.1, h.not_inside_runtime k ht name⟩

theorem clear_header (h : Outside builds here) (hp : (builds k).Planned plan) {name : String}
    (hname : name ∈ plan.skeleton.names) :
    (plan.bounds here (Trees builds here)).Clear (plan.skeleton.directory.child name) := by
  intro t ht
  rw [hp.skeleton]
  exact h.avoids_header k ht.1 (hp.proper name hname)

theorem descends_tree (plan : Plan) : Descends plan.scratch plan.tree :=
  .child .self (isFileName_of_length (by decide) (by decide))

theorem discreet_work (h : Outside builds here) (hp : (builds k).Planned plan) :
    ((builds k).work plan).Discreet (plan.bounds here (Trees builds here)) fun _ => True := by
  have hbuild : isFileName "build" = true := isFileName_of_length (by decide) (by decide)
  have hinside (l : Location)
      (hl : isBelow l ((plan.scratch.child "build").locationFrom here) = true) :
      Inside l (plan.location here) := by
    rw [locationFrom_child hbuild] at hl
    exact (inside_cons (isBelow_refl _) _).below hl
  have hscratch := h.atScratch hp
  have hsources : Descends plan.scratch (sourcesIn plan.tree) :=
    (descends_tree plan).child (isFileName_of_length (by decide) (by decide))
  have hcompile := by
    refine (h.toolchain k).compile ⟨sourcesIn plan.tree, plan.scratch.child "build",
      plan.destination.name, (builds k).job.platform⟩ plan.destination.isName
      (plan.bounds here (Trees builds here)) rfl ?_ ?_ hinside fun t ht => ht.1
    · dsimp only
      exact hscratch.clear_of_descends hsources
    · exact hscratch.clear_of_descends (.child .self hbuild)
  unfold Build.work
  exact hscratch.discreet_work hp.proper (fun _ hname => h.clear_header hp hname)
    plan.destination.isName hcompile plan.rendered (builds k).job.keepSources

theorem leads_archive (h : Outside builds here) (hp : (builds k).Planned plan) :
    (plan.bounds here (Trees builds here)).Leads plan.archive :=
  (h.atScratch hp).leads_child .self plan.isFileName_archive

theorem discreet_createArchive (h : Outside builds here) (hp : (builds k).Planned plan) :
    plan.createArchive.Discreet (plan.bounds here (Trees builds here)) :=
  .wrap (discreet_create (h.leads_archive hp) none) _

theorem discreet_settle (h : Outside builds here) (hp : (builds k).Planned plan) :
    plan.settle.Discreet (plan.bounds here (Trees builds here)) := by
  refine .look fun f hf t ht g hg => ?_
  have hclear := (h.atScratch hp).clear_of_descends (descends_tree plan) t ht
  rw [directory?_congr hg (hf.1 ▸ hclear)]
  cases hd : f.directory? plan.tree with
  | error e => rfl
  | ok d =>
    have hbelow : isBelow d (plan.location here) = true := by
      rw [location_of_directory? hd, hf.1]
      exact Bounds.AtScratch.isBelow_location (descends_tree plan) here
    have hcongr : Archive.ofDirectory g d = Archive.ofDirectory f d :=
      Archive.ofDirectory_congr fun l hl => hg.get? l fun hinside =>
        Plan.not_isBelow_of_apart ht.2.1 ht.2.2 (isBelow_trans hl hbelow) hinside.1
    simp only [Except.mapError, bind, Except.bind, hcongr]

theorem discreet_removal (h : Outside builds here) (hp : (builds k).Planned plan) :
    (Action.look (·.removal plan.scratch)).Discreet (plan.bounds here (Trees builds here)) := by
  refine .look fun f hf t ht g hg => ?_
  refine removal_congr hg (hf.1 ▸ h.avoids_scratch hp ht.1) fun l hl hinside => ?_
  have hhere : f.here = here := hf.1
  rw [hhere] at hl
  exact Plan.not_isBelow_of_apart ht.2.1 ht.2.2 hl hinside.1

end Outside
end LtiUnit
