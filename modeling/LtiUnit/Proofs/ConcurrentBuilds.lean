import LtiUnit.Proofs.BuildOutcome
import LtiUnit.Proofs.ScratchGuards
import Mathlib.Data.List.Induction

/-!
# LtiUnit.Proofs.ConcurrentBuilds

Any number of builds that share the files, whatever the order of their steps. What every step keeps
is that each build finds what it relies on, and that no two builds have one scratch directory at the
same time (`Sane`). So a build does not notice what the others do in their scratch directories
(`Separate`), and an archive comes to its place as a whole (`Whole`).
-/

namespace LtiUnit

open LtiUnit.Files LtiUnit.Path LtiUnit.Package
open Build (Plan Stage)

namespace Builds

variable {ι : Type} {builds : ι → Build} {here l : Location} {x : Builds ι} {j k : ι}
  {scratch : Path}

/-- What holds of builds at every moment. -/
structure Sane (builds : ι → Build) (here : Location) (x : Builds ι) : Prop where
  here_eq : x.files.here = here
  sound : ∀ k, (x.stages k).Sound (builds k) here (Trees builds here) x.files
  alone : ∀ j k scratch scratch', (x.stages j).live? = some scratch →
    (x.stages k).live? = some scratch' →
      scratch.locationFrom here = scratch'.locationFrom here → j = k

theorem sane_start (builds : ι → Build) (f : Files) : (start f).Sane builds f.here where
  here_eq := rfl
  sound _ := .checking
  alone _ _ _ _ hlive := by cases hlive

namespace Sane

/-- The scratch directory of a build is there from its creation until its removal. -/
theorem live (hx : x.Sane builds here) (hlive : (x.stages k).live? = some scratch) :
    Trees builds here (scratch.locationFrom here) ∧
      x.files.get? (scratch.locationFrom here) = some .directory := by
  obtain ⟨plan, rfl, hp, hr⟩ := (hx.sound k).live hlive
  have hthere := hr.there
  rw [hx.here_eq] at hthere
  exact ⟨Outside.isTree hp, hthere⟩

theorem ne_of_live (hx : x.Sane builds here) (hjk : j ≠ k)
    (hlive : (x.stages j).live? = some scratch) :
    ∀ scratch', (x.stages k).live? = some scratch' →
      scratch.locationFrom here ≠ scratch'.locationFrom here :=
  fun _ hlive' heq => hjk (hx.alone _ _ _ _ hlive hlive' heq)

/-- A step of one build looks at nothing in the scratch directory of another one. -/
theorem overlooked (hx : x.Sane builds here) (h : Outside builds here) (hjk : j ≠ k)
    (hlive : (x.stages j).live? = some scratch) :
    (builds k).Overlooks (x.stages k) x.files (scratch.locationFrom here) :=
  h.overlooks hx.here_eq (hx.sound k) (hx.live hlive).1 (hx.ne_of_live hjk hlive)

/-- What is live after a step of a build and what is live of the others do not coincide. -/
theorem ne_of_step (hx : x.Sane builds here) (h : Outside builds here) (hjk : j ≠ k)
    (hlive : (x.stages j).live? = some scratch) {scratch' : Path}
    (hlive' : ((builds k).step (x.stages k) x.files).1.live? = some scratch') :
    scratch.locationFrom here ≠ scratch'.locationFrom here := by
  rcases (h.advances hx.here_eq (hx.sound k)).1.live hlive' with hbefore | hnew
  · exact hx.ne_of_live hjk hlive _ hbefore
  · intro heq
    rw [← heq, (hx.live hlive).2] at hnew
    cases hnew

variable [DecidableEq ι]

/-- A step of one build changes nothing in the scratch directory of another one. -/
theorem untouched (hx : x.Sane builds here) (h : Outside builds here) (hjk : j ≠ k)
    (hlive : (x.stages j).live? = some scratch)
    (hl : isBelow l (scratch.locationFrom here) = true) :
    (x.step builds k).files.get? l = x.files.get? l := by
  obtain ⟨htree, hthere⟩ := hx.live hlive
  exact h.get?_of_effect (h.advances hx.here_eq (hx.sound k)).1 htree hthere
    (hx.ne_of_live hjk hlive) hl

theorem step (hx : x.Sane builds here) (h : Outside builds here) (k : ι) :
    (x.step builds k).Sane builds here := by
  obtain ⟨heffect, hsound⟩ := h.advances hx.here_eq (hx.sound k)
  have hspares := heffect.spares
  constructor
  · exact hspares.here.trans hx.here_eq
  · intro j
    by_cases hjk : j = k
    · subst hjk
      rw [stages_step_self]
      exact hsound
    · rw [stages_step_of_ne builds x hjk]
      exact h.sound_of_spares hx.here_eq (hx.sound j) hspares fun _ hlive _ hl =>
        hx.untouched h hjk hlive hl
  · intro i j scratch scratch' hi hj heq
    by_cases hik : i = k <;> by_cases hjk : j = k
    · rw [hik, hjk]
    · subst hik
      rw [stages_step_self] at hi
      rw [stages_step_of_ne builds x hjk] at hj
      exact absurd heq.symm (hx.ne_of_step h hjk hj hi)
    · subst hjk
      rw [stages_step_of_ne builds x hik] at hi
      rw [stages_step_self] at hj
      exact absurd heq (hx.ne_of_step h hik hi hj)
    · rw [stages_step_of_ne builds x hik] at hi
      rw [stages_step_of_ne builds x hjk] at hj
      exact hx.alone _ _ _ _ hi hj heq

theorem run (hx : x.Sane builds here) (h : Outside builds here) (schedule : List ι) :
    (x.run builds schedule).Sane builds here := by
  induction schedule generalizing x with
  | nil => exact hx
  | cons k schedule ih => exact ih (hx.step h k)

end Sane

theorem Sane.found (hx : x.Sane builds here) {plan : Plan}
    (hlive : (x.stages j).live? = some scratch) (hstage : x.stages k = .entering plan)
    (heq : plan.scratch.locationFrom here = scratch.locationFrom here) :
    x.files.isDirectory plan.scratch = true := by
  obtain ⟨plan', rfl, hp', hr'⟩ := (hx.sound j).live hlive
  have hentering := hx.sound k
  rw [hstage] at hentering
  cases hentering with
  | entering planned directory =>
    have hthere := (hx.live hlive).2
    have hnames := heq
    rw [← heq] at hthere
    change plan.location here = plan'.location here at hnames
    rw [Plan.location_eq, Plan.location_eq] at hnames
    have hname := (List.cons.inj hnames).1
    have hfollow := Plan.follow_scratch directory (hname ▸ hr'.fits)
    change x.files.get? (plan.location here) = some .directory at hthere
    rw [Plan.location_eq, ← hx.here_eq] at hthere
    rw [isDirectory, find?_of_directory hfollow hthere]

variable [DecidableEq ι]

/-- What builds that share the files are to each other. -/
structure Separate (builds : ι → Build) (here : Location) (x : Builds ι) : Prop where
  /-- A scratch directory is there from its creation until its removal. -/
  there : ∀ k scratch, (x.stages k).live? = some scratch →
    x.files.get? (scratch.locationFrom here) = some .directory
  /-- No two builds have one scratch directory at the same time. -/
  alone : ∀ j k scratch scratch', (x.stages j).live? = some scratch →
    (x.stages k).live? = some scratch' →
      scratch.locationFrom here = scratch'.locationFrom here → j = k
  /-- The next step of one build changes nothing in the scratch directory of another one. -/
  untouched : ∀ j k scratch, j ≠ k → (x.stages j).live? = some scratch →
    ∀ l, isBelow l (scratch.locationFrom here) = true →
      (x.step builds k).files.get? l = x.files.get? l
  /-- It makes no difference to it either what lies in there. -/
  overlooked : ∀ j k scratch, j ≠ k → (x.stages j).live? = some scratch →
    (builds k).Overlooks (x.stages k) x.files (scratch.locationFrom here)
  /-- A build that finds its scratch directory there fails, and changes nothing. -/
  refused : ∀ k plan, x.stages k = .entering plan → x.files.isDirectory plan.scratch = true →
    (x.step builds k).stages k = .ended (.error (.scratchExists plan.scratch)) ∧
      (x.step builds k).files = x.files
  /-- It finds it there if it is that of another build. -/
  found : ∀ j k scratch plan, (x.stages j).live? = some scratch → x.stages k = .entering plan →
    plan.scratch.locationFrom here = scratch.locationFrom here →
      x.files.isDirectory plan.scratch = true

theorem createDirectory_of_isDirectory {f : Files} {p : Path} (h : f.isDirectory p = true) :
    f.createDirectory p = .error .exists := by
  have hget := get?_of_isDirectory h
  rw [isDirectory_iff] at h
  cases hf : f.follow p with
  | error e => simp [find?, hf, bind, Except.bind] at h
  | ok spot =>
    cases spot with
    | passed d => simp [Files.createDirectory, hf, bind, Except.bind, throw, throwThe,
        MonadExceptOf.throw]
    | within name d slashed proper =>
      have hl : name :: d = p.locationFrom f.here := location_of_follow hf
      rw [← hl] at hget
      simp [Files.createDirectory, hf, hget, bind, Except.bind, throw, throwThe, MonadExceptOf.throw]

theorem refused {plan : Plan} (hstage : x.stages k = .entering plan)
    (hthere : x.files.isDirectory plan.scratch = true) :
    (x.step builds k).stages k = .ended (.error (.scratchExists plan.scratch)) ∧
      (x.step builds k).files = x.files := by
  have hcreate : Scratch.create plan.destination.directory plan.destination.name x.files =
      (.error (.scratchExists plan.scratch), x.files) := by
    have herror := createDirectory_of_isDirectory hthere
    rw [Plan.scratch] at herror
    simp only [Scratch.create, Scratch.createUnder, Action.perform_never, Change.make,
      Action.bind_apply, Action.wrap, Action.change, herror]
    rfl
  have hnext : (builds k).step (x.stages k) x.files =
      (.ended (.error (.scratchExists plan.scratch)), x.files) := by
    rw [hstage, Build.step, Stage.after, hcreate]
    rfl
  simp only [Builds.step, hnext, if_true, and_self]

theorem Sane.separate (hx : x.Sane builds here) (h : Outside builds here) :
    x.Separate builds here where
  there _ _ hlive := (hx.live hlive).2
  alone := hx.alone
  untouched _ _ _ hjk hlive _ hl := hx.untouched h hjk hlive hl
  overlooked _ _ _ hjk hlive := hx.overlooked h hjk hlive
  refused _ _ := refused
  found _ _ _ _ := hx.found

/-! ## Archives in their places -/

/-- Whether a build moves its archive to a location with its next step. -/
structure Publishes (builds : ι → Build) (x : Builds ι) (k : ι) (plan : Plan) (l : Location) :
    Prop where
  moves : ∃ files, x.stages k = .publishing plan files ∧
    (x.step builds k).stages k = .leaving plan (.ok (files.map Prod.fst))
  target : (builds k).job.output.locationFrom x.files.here = l

/-- Whether no archive is moved to a location in the course of a schedule. -/
def Idle (builds : ι → Build) (l : Location) (x : Builds ι) : List ι → Prop
  | [] => True
  | k :: schedule =>
    (∀ plan, ¬x.Publishes builds k plan l) ∧ Idle builds l (x.step builds k) schedule

/-- Whether there is at a location what was there at the start, or else all that was in the tree of
one build when this build moved its archive there, as the last one to do so. -/
def Whole (builds : ι → Build) (f₀ : Files) (schedule : List ι) (l : Location) : Prop :=
  (Idle builds l (start f₀) schedule ∧
      ((start f₀).run builds schedule).files.get? l = f₀.get? l) ∨
    ∃ before k after plan executable, schedule = before ++ k :: after ∧
      ((start f₀).run builds before).Publishes builds k plan l ∧
        Idle builds l ((start f₀).run builds (before ++ [k])) after ∧
          ((start f₀).run builds schedule).files.get? l =
            some (.file (.archive (Archive.ofDirectory ((start f₀).run builds before).files
              (plan.tree.locationFrom f₀.here))) executable)

theorem idle_concat {schedule : List ι} (h : Idle builds l x schedule)
    (hk : ∀ plan, ¬(x.run builds schedule).Publishes builds k plan l) :
    Idle builds l x (schedule ++ [k]) := by
  induction schedule generalizing x with
  | nil => exact ⟨hk, trivial⟩
  | cons i schedule ih => exact ⟨h.1, ih h.2 hk⟩

theorem Sane.get?_of_publishes (hx : x.Sane builds here) {plan : Plan}
    (hp : x.Publishes builds k plan l) : ∃ executable, (x.step builds k).files.get? l =
      some (.file (.archive (Archive.ofDirectory x.files (plan.tree.locationFrom here)))
        executable) := by
  obtain ⟨⟨files, hstage, hnext⟩, htarget⟩ := hp
  have hpublishing := hx.sound k
  rw [hstage] at hpublishing
  cases hpublishing with
  | publishing planned ready packed filled =>
    rw [stages_step_self, hstage] at hnext
    rw [hx.here_eq] at htarget
    rcases @Outside.step_publishing _ builds _ k _ _ _ hx.here_eq filled with
      ⟨e, hstep⟩ | ⟨g, hstep, -, hput, -⟩
    · rw [hstep] at hnext
      cases hnext
    · have hfiles : (x.step builds k).files = g := by
        rw [Builds.step, hstage, hstep]
      rw [hfiles, ← htarget]
      exact packed ▸ hput

/-- Outside all scratch trees nothing changes but where an archive is moved to. -/
theorem Sane.get?_step (hx : x.Sane builds here) (h : Outside builds here)
    (hout : ∀ t, Trees builds here t → ¬isBelow l t = true)
    (hp : ∀ plan, ¬x.Publishes builds k plan l) :
    (x.step builds k).files.get? l = x.files.get? l := by
  rcases (h.advances hx.here_eq (hx.sound k)).1.get?_outside hout with
    hsame | ⟨plan, files, executable, hstage, hnext, htarget, -, -⟩
  · exact hsame
  · refine absurd ⟨⟨files, hstage, ?_⟩, hx.here_eq.symm ▸ htarget⟩ (hp plan)
    rw [stages_step_self, hnext]

/-- Outside all scratch trees there is what was there at the start, or a whole archive. -/
theorem whole_of_outside {f₀ : Files} (h : Outside builds f₀.here)
    (hout : ∀ t, Trees builds f₀.here t → ¬isBelow l t = true) (schedule : List ι) :
    Whole builds f₀ schedule l := by
  induction schedule using List.reverseRecOn with
  | nil => exact .inl ⟨trivial, rfl⟩
  | append_singleton schedule k ih =>
    have hx := (sane_start builds f₀).run h schedule
    by_cases hp : ∃ plan, ((start f₀).run builds schedule).Publishes builds k plan l
    · obtain ⟨plan, hp⟩ := hp
      obtain ⟨executable, hput⟩ := hx.get?_of_publishes hp
      exact .inr ⟨schedule, k, [], plan, executable, rfl, hp, trivial,
        by rw [run_concat, hput]⟩
    · rw [not_exists] at hp
      have hsame := hx.get?_step h hout hp
      rcases ih with ⟨hidle, hget⟩ | ⟨before, i, after, plan, executable, rfl, hi, hidle, hget⟩
      · exact .inl ⟨idle_concat hidle hp, by rw [run_concat, hsame, hget]⟩
      · refine .inr ⟨before, i, after ++ [k], plan, executable, by simp, hi,
          idle_concat hidle ?_, by rw [run_concat, hsame, hget]⟩
        rw [← run_append, List.append_assoc, List.singleton_append]
        exact hp

/-- How builds that share the files keep apart, and what holds of the scratch directories that are
created and dropped in whatever order. -/
structure KeepApart (builds : ι → Build) (f₀ : Files) (schedule : List ι) : Prop where
  separate : ((start f₀).run builds schedule).Separate builds f₀.here
  /-- At a destination there is what was there at the start, or a whole archive. -/
  whole : ∀ k destination, (builds k).Destined destination →
    Whole builds f₀ schedule ((builds k).job.output.locationFrom f₀.here)
  /-- Scratch directories that are held are there, and no two of them are the same. -/
  held : ∀ events, Scratch.Apart events f₀.here →
    (Scratch.Held.run ⟨f₀, []⟩ events).Sane events f₀.here
  /-- A creation that fails takes none of them away. -/
  kept : ∀ events directory name e,
    (Scratch.create directory name (Scratch.Held.run ⟨f₀, []⟩ events).files).1 = .error e →
      (Scratch.Held.run ⟨f₀, []⟩ events).step (.create directory name) =
        Scratch.Held.run ⟨f₀, []⟩ events

/-- Builds keep apart whatever the order of their steps, as long as nobody asks for a destination
or a runtime directory in a scratch directory. -/
theorem run_keepApart {f₀ : Files} (h : Outside builds f₀.here) (schedule : List ι) :
    KeepApart builds f₀ schedule where
  separate := ((sane_start builds f₀).run h schedule).separate h
  whole _ destination hd :=
    whole_of_outside h (fun _ ht => h.not_isBelow_output destination.isName hd.file ht) schedule
  held events hapart := (Scratch.Held.sane_start events f₀).run hapart (List.Subset.refl events)
  kept _ _ _ _ := Scratch.Held.step_of_failure _

end Builds

/-- A toolchain that leaves an empty file for a library. -/
def Stepwise.Toolchain.hollow : Stepwise.Toolchain where
  name := "hollow"
  compile r := do
    (write r.library (.data .empty)).wrap (.files .writing r.library)
    return r.library

theorem Stepwise.Toolchain.hollow_discreet (here : Location) (trees : Location → Prop) :
    hollow.Discreet here trees where
  compile r hname b hhere _ hbuild hown _ := by
    have hlibrary := isFileName_libraryName r.platform hname
    have hlocation : b.own (r.library.locationFrom b.here) := by
      rw [Toolchain.Request.library, locationFrom_child hlibrary, hhere]
      exact hown _ (isBelow_cons _ (isBelow_refl _))
    have hleads : b.Leads r.library := by
      refine ⟨fun t ht => (avoids_child hlibrary).2 ⟨hbuild t ht, ?_⟩, hlocation⟩
      rw [← locationFrom_child hlibrary]
      exact b.apart _ t hlocation ht
    exact discreet_bind (discreet_wrap (discreet_write hleads _) _) fun _ _ =>
      .ok (.child .self hlibrary)

theorem Stepwise.Toolchain.run_hollow :
    Stepwise.Toolchain.hollow.run = LtiUnit.Toolchain.hollow := by
  refine congrArg (LtiUnit.Toolchain.mk "hollow") (funext fun r => ?_)
  simp only [hollow, run_bind, run_wrap, run_write]
  rfl

/-- Two builds of one unit in one place. -/
def Build.twins (k : Bool) : Build where
  model := Model.StateSpace.void
  job := ⟨ofText "q.fmu", ofText "runtime", 0.01, k, ⟨.linux, 64⟩⟩
  toolchain := .hollow
  occasion := ⟨⟨0⟩, 0⟩

theorem Build.outside_twins : Outside twins [] := by
  have hdirectory : (Destination.directoryOf (ofText "q.fmu")).steps = [] ∧
      (Destination.directoryOf (ofText "q.fmu")).locationFrom [] = [] := by decide
  have hruntime : (ofText "runtime").steps = ["runtime"] := by decide
  -- The only scratch trees are those beside the archive, and their names start with a dot.
  have htree {t : Location} (ht : Trees twins [] t) : ∃ name, t = ["." ++ name] := by
    obtain ⟨k, name, hname, -, rfl⟩ := ht
    refine ⟨name ++ ".fmu-build", ?_⟩
    rw [locationFrom_pathFor hname, String.append_assoc]
    exact congrArg _ hdirectory.2
  have habove {t : Location} (ht : Trees twins [] t) : ¬isBelow [] t = true := by
    obtain ⟨name, rfl⟩ := htree ht
    exact nofun
  have horigin (p : Path) : p.origin [] = [] := ite_self _
  constructor
  · intro k t ht front hfront
    change front <+: (Destination.directoryOf (ofText "q.fmu")).steps at hfront
    rw [hdirectory.1, List.prefix_nil] at hfront
    rw [hfront, horigin]
    exact habove ht
  · intro k t ht front hfront
    change front <+: (ofText "runtime").steps at hfront
    rw [hruntime] at hfront
    rw [horigin]
    cases front with
    | nil => exact habove ht
    | cons s rest =>
      obtain ⟨rfl, hrest⟩ := List.cons_prefix_cons.1 hfront
      rw [List.prefix_nil.1 hrest]
      change ¬isBelow ["runtime"] t = true
      intro hb
      rcases isBelow_cons_iff.1 hb with heq | hb
      · obtain ⟨name, rfl⟩ := htree ht
        have hname := congrArg String.toList (List.cons.inj heq).1
        rw [String.toList_append] at hname
        exact absurd (List.cons.inj hname).1 (by decide)
      · exact habove ht hb
  · exact fun k => Stepwise.Toolchain.hollow_discreet [] _

namespace Builds

variable {f : Files}

/-- The twins look around, until it is for each of them to create the scratch directory. -/
theorem run_twins (hf : Equipped f) : ∃ plan,
    plan.destination = ⟨ofText ".", "q", by decide⟩ ∧
      (start f).run Build.twins [true, true, false, false] = ⟨f, fun _ => .entering plan⟩ ∧
      ∀ k r g, (Build.twins k).Arrives .checking f r g →
        (Build.twins k).Arrives (.entering plan) f r g := by
  have hname : isName "q" = true := by decide
  have hstep : Render.validStepSize 0.01 = true := by decide
  obtain ⟨skeleton, hopen⟩ := exists_open? hf.runtime hf.required
  obtain ⟨rendered, hrender⟩ :
      ∃ rendered, render Model.StateSpace.void "q" 0.01 ⟨⟨0⟩, 0⟩ = .ok rendered :=
    ⟨_, render_of _ hname hstep _⟩
  let plan : Plan := ⟨⟨ofText ".", "q", hname⟩, skeleton, rendered⟩
  have hchecked (k : Bool) :
      (Build.twins k).step .checking f = (.opening plan.destination, f) := by
    have hcheck : Destination.check f (Build.twins k).job.output = .ok plan.destination := hf.check
    simp only [Build.step, Stage.after, Action.look, hcheck]
  have hopened (k : Bool) :
      (Build.twins k).step (.opening plan.destination) f = (.entering plan, f) := by
    have hprepare : (Build.twins k).prepare plan.destination f = .ok plan := by
      have hskeleton : Skeleton.open? f (Build.twins k).job.runtimeDirectory = .ok skeleton := hopen
      have htexts : render (Build.twins k).model plan.destination.name
          (Build.twins k).job.stepSize (Build.twins k).occasion = .ok rendered := hrender
      rw [Build.prepare, hskeleton, htexts]
      rfl
    simp only [Build.step, Stage.after, Action.look, hprepare]
  refine ⟨plan, rfl, ?_, fun k r g h => ?_⟩
  · simp only [run, List.foldl_cons, List.foldl_nil, start, step, if_true, hchecked, hopened,
      Bool.false_eq_true, if_false]
    refine congrArg (Builds.mk f) (funext fun j => ?_)
    cases j <;> rfl
  · have hopening := h.next
    rw [hchecked] at hopening
    have hentering := hopening.next
    rwa [hopened] at hentering

/-- The twin that creates the scratch directory publishes as if it were alone, and the other one is
refused in the meantime. -/
theorem exists_schedule_twins (hf : Equipped f) : ∃ schedule report g,
    Package.build Model.StateSpace.void (Job.whole 0.01) .hollow ⟨⟨0⟩, 0⟩ f = (.ok report, g) ∧
      ((start f).run Build.twins schedule).files = g ∧
      ((start f).run Build.twins schedule).stages true = .ended (.ok report) ∧
      ((start f).run Build.twins schedule).stages false =
        .ended (.error (.scratchExists (Scratch.pathFor (ofText ".") "q"))) := by
  have hstep : Render.validStepSize 0.01 = true := by decide
  obtain ⟨plan, hplan, hrun, harrives⟩ := run_twins hf
  obtain ⟨report, g, hbuild⟩ := hf.exists_build_hollow Model.StateSpace.void hstep ⟨⟨0⟩, 0⟩
  obtain ⟨scratch, created, hcreate⟩ := hf.exists_created
  have hcreated : (Build.twins true).step (.entering plan) f =
      (.working plan ((Build.twins true).work plan), created) := by
    simp only [Build.step, Stage.after, hplan, hcreate]
  have halone := (Build.twins true).arrives_build f
  have htoolchain : (Build.twins true).toolchain.run = Toolchain.hollow :=
    Stepwise.Toolchain.run_hollow
  have hresult : Package.build (Build.twins true).model (Build.twins true).job
      (Build.twins true).toolchain.run (Build.twins true).occasion f = (.ok report, g) := by
    rw [htoolchain]
    exact hbuild
  rw [hresult] at halone
  have hworking := (harrives _ _ _ halone).next
  rw [hcreated] at hworking
  have hx : (start f).run Build.twins ([true, true, false, false] ++ [true]) =
      ⟨created, fun j => if j = true then .working plan ((Build.twins true).work plan)
        else .entering plan⟩ := by
    rw [run_concat, hrun]
    simp only [step, hcreated]
  have hsane := (sane_start Build.twins f).run (hf.here ▸ Build.outside_twins)
    ([true, true, false, false] ++ [true])
  generalize hfirst : (start f).run Build.twins ([true, true, false, false] ++ [true]) = x
    at hx hsane
  have hlive : (x.stages true).live? = some plan.scratch := by rw [hx]; rfl
  have hstage : x.stages false = .entering plan := by rw [hx]; rfl
  obtain ⟨hrefused, hfiles⟩ := refused hstage (hsane.found hlive hstage rfl)
  have hrest : (Build.twins true).Arrives ((x.step Build.twins false).stages true)
      (x.step Build.twins false).files (.ok report) g := by
    rw [stages_step_of_ne Build.twins x (by decide), hfiles, hx]
    exact hworking
  obtain ⟨n, hn, hok, hothers⟩ := exists_run_of_arrives hrest
  refine ⟨[true, true, false, false] ++ [true] ++ [false] ++ List.replicate n true, report, g,
    hbuild, ?_⟩
  rw [run_append, run_concat, hfirst]
  refine ⟨hn, hok, ?_⟩
  rw [hothers false (by decide), hrefused, Plan.scratch, hplan]

end Builds

theorem Builds.run_keepApart_twins : Outside Build.twins Files.furnished.here ∧
    ∃ schedule report files rendered library,
      KeepApart Build.twins Files.furnished schedule ∧
      ((start Files.furnished).run Build.twins schedule).stages false =
        .ended (.error (.scratchExists (Scratch.pathFor (ofText ".") "q"))) ∧
      ((start Files.furnished).run Build.twins schedule).stages true = .ended (.ok report) ∧
      PacksUnit Model.StateSpace.void (Job.whole 0.01) .hollow ⟨⟨0⟩, 0⟩ Files.furnished
        ((start Files.furnished).run Build.twins schedule).files report files rendered library := by
  obtain ⟨schedule, report, g, hbuild, rfl, hok, hrefused⟩ :=
    exists_schedule_twins equipped_furnished
  have hunder : buildUnder .never Model.StateSpace.void (Job.whole 0.01) .hollow ⟨⟨0⟩, 0⟩
      Files.furnished = (.ok report, ((start Files.furnished).run Build.twins schedule).files) :=
    hbuild
  obtain ⟨files, rendered, library, hunit⟩ := packsUnit_of_produces
    (fun _ _ hasks => produces_of_asks hasks Toolchain.hollow_confined) hunder
  exact ⟨Build.outside_twins, schedule, report, files, rendered, library,
    run_keepApart Build.outside_twins schedule, hrefused, hok, hunit⟩

end LtiUnit
