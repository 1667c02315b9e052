import LtiUnit.Proofs.Exclusion
import LtiUnit.Proofs.Packing

/-!
# LtiUnit.Proofs.StageSteps

The steps of a build among others, stage by stage: what a build relies on at a stage
(`Stage.Sound`), what its next step does to the files (`Effect`), and which trees the step looks at
(`Overlooks`). A step keeps what the build relies on (`Outside.advances`), and it makes no
difference to a step what lies in the scratch directories of others (`Outside.overlooks`).
-/

namespace LtiUnit

open LtiUnit.Files LtiUnit.Path LtiUnit.Package LtiUnit.Action

namespace Build

/-- Whether some files are all that is in a tree. -/
def Plan.Packed (plan : Plan) (here : Location) (f : Files) (files : List (String × Content)) :
    Prop :=
  files = Archive.ofDirectory f (plan.tree.locationFrom here)

/-- What a build relies on at a stage. -/
inductive Stage.Sound (b : Build) (here : Location) (trees : Location → Prop) (f : Files) :
    Stage → Prop where
  | checking : Sound b here trees f .checking
  | opening {destination : Destination} (destined : b.Destined destination)
    (directory : f.isDirectory destination.directory = true) :
    Sound b here trees f (.opening destination)
  | entering {plan : Plan} (planned : b.Planned plan)
    (directory : f.isDirectory plan.destination.directory = true) :
    Sound b here trees f (.entering plan)
  | working {plan : Plan} {course : Stepwise PackageError Unit} (planned : b.Planned plan)
    (ready : plan.Ready f) (discreet : course.Discreet (plan.bounds here trees) fun _ => True) :
    Sound b here trees f (.working plan course)
  | packing {plan : Plan} (planned : b.Planned plan) (ready : plan.Ready f) :
    Sound b here trees f (.packing plan)
  | creating {plan : Plan} {files : List (String × Content)} (planned : b.Planned plan)
    (ready : plan.Ready f) (packed : plan.Packed here f files) :
    Sound b here trees f (.creating plan files)
  | filling {plan : Plan} {files : List (String × Content)} {l : Location} {executable : Bool}
    (planned : b.Planned plan) (ready : plan.Ready f) (packed : plan.Packed here f files)
    (location : l = plan.archive.locationFrom here)
    (created : ∃ content executable, f.get? l = some (.file content executable)) :
    Sound b here trees f (.filling plan files l executable)
  | publishing {plan : Plan} {files : List (String × Content)} (planned : b.Planned plan)
    (ready : plan.Ready f) (packed : plan.Packed here f files)
    (filled : ∃ executable,
      f.get? (plan.archive.locationFrom here) = some (.file (.archive files) executable)) :
    Sound b here trees f (.publishing plan files)
  | leaving {plan : Plan} {r : Except PackageError (List String)} (planned : b.Planned plan)
    (ready : plan.Ready f) : Sound b here trees f (.leaving plan r)
  | removing {plan : Plan} {r : Except PackageError (List String)} {d : Location}
    {inner : List Location} (planned : b.Planned plan) (ready : plan.Ready f)
    (location : d = plan.location here) (inside : ∀ l ∈ inner, Inside l (plan.location here)) :
    Sound b here trees f (.removing plan r d inner)
  | ended {r : Except PackageError Report} : Sound b here trees f (.ended r)

/-- What a step does to the files that a build takes at a stage. -/
inductive Effect (b : Build) (here : Location) (trees : Location → Prop) (f : Files) :
    Stage → Stage × Files → Prop where
  | outside {stage stage' : Stage} (before : stage.live? = none) (after : stage'.live? = none) :
    Effect b here trees f stage (stage', f)
  | enters {stage stage' : Stage} {g : Files} {scratch : Path} (before : stage.live? = none)
    (after : stage'.live? = some scratch) (tree : trees (scratch.locationFrom here))
    (new : f.get? (scratch.locationFrom here) = none)
    (there : g.get? (scratch.locationFrom here) = some .directory)
    (agree : AgreeOutside (· = scratch.locationFrom here) f g) :
    Effect b here trees f stage (stage', g)
  | works {stage stage' : Stage} {g : Files} {scratch : Path} (before : stage.live? = some scratch)
    (after : stage'.live? = some scratch) (tree : trees (scratch.locationFrom here))
    (agree : AgreeOutside (Inside · (scratch.locationFrom here)) f g) :
    Effect b here trees f stage (stage', g)
  | publishes {plan : Plan} {files : List (String × Content)} {g : Files}
    (planned : b.Planned plan) (tree : trees (plan.location here))
    (packed : plan.Packed here f files)
    (free : f.get? (b.job.output.locationFrom here) ≠ some .directory)
    (put : ∃ executable,
      g.get? (b.job.output.locationFrom here) = some (.file (.archive files) executable))
    (agree : AgreeOutside
      (fun l => Inside l (plan.location here) ∨ l = b.job.output.locationFrom here) f g) :
    Effect b here trees f (.publishing plan files)
      (.leaving plan (.ok (files.map Prod.fst)), g)
  | leaves {stage stage' : Stage} {scratch : Path} (before : stage.live? = some scratch)
    (after : stage'.live? = none) (tree : trees (scratch.locationFrom here))
    (root : scratch.locationFrom here ≠ []) :
    Effect b here trees f stage (stage', f.removeBelow (scratch.locationFrom here))

/-- Whether it makes no difference to the next step of a build what lies inside a directory. -/
def Overlooks (b : Build) (stage : Stage) (f : Files) (t : Location) : Prop :=
  ∀ g, AgreeOutside (Inside · t) f g →
    (b.step stage g).1 = (b.step stage f).1 ∧
      AgreeOutside (Inside · t) (b.step stage f).2 (b.step stage g).2

/-- What a step does, and what the build relies on afterwards. -/
def Advances (b : Build) (here : Location) (trees : Location → Prop) (f : Files) (stage : Stage)
    (next : Stage × Files) : Prop :=
  Effect b here trees f stage next ∧ next.1.Sound b here trees next.2

namespace Stage

variable {ε α : Type} {act : Action ε α} {ok : α → Stage} {error : ε → Stage} {f : Files}

theorem after_cases {P : Stage × Files → Prop} (hok : ∀ x, (act f).1 = .ok x → P (ok x, (act f).2))
    (herror : ∀ e, (act f).1 = .error e → P (error e, (act f).2)) : P (after act ok error f) := by
  revert hok herror
  unfold after
  rcases act f with ⟨e | x, g⟩
  · exact fun _ herror => herror e rfl
  · exact fun hok _ => hok x rfl

/-- The files after an action that is looked at. -/
theorem after_congr {t : Location} (h : act.Overlooks f t) {g : Files}
    (hg : AgreeOutside (Inside · t) f g) :
    (after act ok error g).1 = (after act ok error f).1 ∧
      AgreeOutside (Inside · t) (after act ok error f).2 (after act ok error g).2 := by
  obtain ⟨hresult, hagree⟩ := h g hg
  revert hresult hagree
  unfold after
  rcases act f with ⟨e | x, f'⟩ <;> rcases act g with ⟨e' | x', g'⟩ <;>
    simp only [reduceCtorEq, false_implies, Except.ok.injEq, Except.error.injEq]
  · rintro rfl hagree
    exact ⟨rfl, hagree⟩
  · rintro rfl hagree
    exact ⟨rfl, hagree⟩

/-- A build between the creation and the removal of its scratch directory has it in place. -/
theorem Sound.live {b : Build} {here : Location} {trees : Location → Prop} {stage : Stage}
    (h : stage.Sound b here trees f) {scratch : Path} (hlive : stage.live? = some scratch) :
    ∃ plan, scratch = plan.scratch ∧ b.Planned plan ∧ plan.Ready f := by
  cases h <;> cases hlive <;> exact ⟨_, rfl, ‹_›, ‹_›⟩

end Stage

/-! ## What a step relies on -/

/-- Whether the directories outside all scratch trees stay. -/
structure Spares (trees : Location → Prop) (f g : Files) : Prop where
  here : g.here = f.here
  directory : ∀ d, (∀ t, trees t → ¬isBelow d t = true) → f.get? d = some .directory →
    g.get? d = some .directory

theorem Spares.of_inside {trees : Location → Prop} {f g : Files} {s : Location} (hs : trees s)
    (hagree : AgreeOutside (Inside · s) f g) : Spares trees f g :=
  ⟨hagree.here, fun d hout hd => (hagree.get? d fun hin => hout s hs hin.1).trans hd⟩

theorem Effect.spares {b : Build} {here : Location} {trees : Location → Prop} {f : Files}
    {stage : Stage} {next : Stage × Files} (h : Effect b here trees f stage next) :
    Spares trees f next.2 := by
  cases h with
  | outside => exact ⟨rfl, fun _ _ hd => hd⟩
  | enters _ _ _ new _ agree =>
    refine ⟨agree.here, fun d _ hd => (agree.get? d ?_).trans hd⟩
    rintro rfl
    rw [new] at hd
    cases hd
  | works _ _ tree agree => exact .of_inside tree agree
  | publishes _ tree _ free _ agree =>
    refine ⟨agree.here, fun d hout hd => (agree.get? d ?_).trans hd⟩
    rintro (hin | rfl)
    · exact hout _ tree hin.1
    · exact free hd
  | leaves _ _ tree root =>
    have hagree := f.agree_removeBelow root
    exact ⟨rfl, fun d hout hd => (hagree.get? d (hout _ tree)).trans hd⟩

end Build

open Build (Plan Stage Effect Spares Advances)

namespace Outside

variable {ι : Type} {builds : ι → Build} {here : Location} {k : ι} {plan : Plan} {f g : Files}

theorem isDirectory_of_spares (h : Outside builds here) (hhere : f.here = here)
    (hs : Spares (Trees builds here) f g)
    (hd : f.isDirectory (Destination.directoryOf (builds k).job.output) = true) :
    g.isDirectory (Destination.directoryOf (builds k).job.output) = true := by
  have havoids : (Destination.directoryOf (builds k).job.output).Avoids f.here
      fun l => ∃ t, Trees builds here t ∧ isBelow l t = true := by
    rintro front hfront ⟨t, ht, hb⟩
    exact h.destination k t ht front hfront (hhere ▸ hb)
  refine (KeepsWay.of_avoids hs.here havoids fun d hout => ?_).isDirectory hd
  exact hs.directory d fun t ht hb => hout ⟨t, ht, hb⟩

theorem ready_of_spares (h : Outside builds here) (hhere : f.here = here)
    (hp : (builds k).Planned plan) (hr : plan.Ready f) (hs : Spares (Trees builds here) f g)
    (hthere : g.get? (plan.location here) = some .directory) : plan.Ready g where
  directory := by
    have hd := hr.directory
    rw [hp.destined.directory] at hd ⊢
    exact h.isDirectory_of_spares hhere hs hd
  fits := hr.fits
  there := by rwa [hs.here, hhere]

/-- What is changed inside the scratch directory leaves it in place. -/
theorem ready_of_inside (h : Outside builds here) (hhere : f.here = here)
    (hp : (builds k).Planned plan) (hr : plan.Ready f)
    (hagree : AgreeOutside (Inside · (plan.location here)) f g) : plan.Ready g := by
  refine h.ready_of_spares hhere hp hr (.of_inside (isTree hp) hagree) ?_
  rw [hagree.get? _ fun hin => hin.2 rfl, ← hhere]
  exact hr.there

end Outside

/-- A scratch directory is created by one elementary change, or nothing is changed. -/
theorem Package.Scratch.create_cases (directory : Path) (name : String) (f : Files) :
    (∃ g, Scratch.create directory name f = (.ok ⟨pathFor directory name⟩, g) ∧
        f.createDirectory (pathFor directory name) = .ok g) ∨
      ∃ e, Scratch.create directory name f =
          (.error (if e = .exists then .scratchExists (pathFor directory name)
            else .files .creatingScratch (pathFor directory name) e), f) ∧
        f.createDirectory (pathFor directory name) = .error e := by
  simp only [Scratch.create, Scratch.createUnder, Action.perform_never, Change.make,
    Action.bind_apply, Action.wrap, Action.change]
  cases f.createDirectory (pathFor directory name) with
  | ok g => exact .inl ⟨g, rfl, rfl⟩
  | error e => exact .inr ⟨e, rfl, rfl⟩

theorem Build.Plan.not_isBelow_archive (plan : Plan) (here : Location) :
    ¬isBelow (plan.archive.locationFrom here) (plan.tree.locationFrom here) = true := by
  have htree : isFileName "fmu" = true := isFileName_of_length (by decide) (by decide)
  rw [archive, tree, locationFrom_child plan.isFileName_archive, locationFrom_child htree,
    isBelow_iff]
  intro hsuffix
  have heq := List.cons.inj (hsuffix.eq_of_length rfl)
  have hlength := congrArg String.length heq.1
  rw [String.length_append] at hlength
  change 3 = plan.destination.name.length + 4 at hlength
  omega

theorem Build.Plan.Packed.congr {plan : Plan} {here : Location} {f g : Files}
    {files : List (String × Content)} (h : plan.Packed here f files)
    (hagree : ∀ l, isBelow l (plan.tree.locationFrom here) = true → g.get? l = f.get? l) :
    plan.Packed here g files :=
  h.trans (Archive.ofDirectory_congr hagree).symm

namespace Outside

variable {ι : Type} {builds : ι → Build} {here : Location} {k : ι} {plan : Plan} {f g : Files}
  {files : List (String × Content)}

/-- What is done to the archive leaves the tree as it is. -/
theorem packed_of_archive {g : Files} (hpacked : plan.Packed here f files)
    (hagree : AgreeOutside (· = plan.archive.locationFrom here) f g) :
    plan.Packed here g files := by
  refine hpacked.congr fun l hl => hagree.get? l ?_
  rintro rfl
  exact plan.not_isBelow_archive here hl

/-! ## The steps -/

variable {stage : Stage}

theorem advances_checking :
    (builds k).Advances here (Trees builds here) f .checking ((builds k).step .checking f) := by
  refine Stage.after_cases (fun destination hcheck => ?_) fun e _ => ⟨.outside rfl rfl, .ended⟩
  obtain ⟨hfile, hdirectory, hd⟩ := Destination.check_eq_ok hcheck
  exact ⟨.outside rfl rfl, .opening ⟨hdirectory, hfile⟩ hd⟩

theorem planned_of_prepare {b : Build} {destination : Destination} (hd : b.Destined destination)
    (h : b.prepare destination f = .ok plan) : b.Planned plan ∧ plan.destination = destination := by
  unfold Build.prepare at h
  cases hopen : Skeleton.open? f b.job.runtimeDirectory with
  | error e => rw [hopen] at h; cases h
  | ok skeleton =>
    cases hrender : render b.model destination.name b.job.stepSize b.occasion with
    | error e => rw [hopen, hrender] at h; cases h
    | ok rendered =>
      rw [hopen, hrender] at h
      cases h
      exact ⟨⟨hd, (mem_names_of_open? hopen).1, isFileName_of_open? hopen⟩, rfl⟩

theorem advances_opening {destination : Destination} (hdestined : (builds k).Destined destination)
    (hd : f.isDirectory destination.directory = true) :
    (builds k).Advances here (Trees builds here) f (.opening destination)
      ((builds k).step (.opening destination) f) := by
  refine Stage.after_cases (fun plan hprepare => ?_) fun e _ => ⟨.outside rfl rfl, .ended⟩
  obtain ⟨hplanned, rfl⟩ := planned_of_prepare hdestined hprepare
  exact ⟨.outside rfl rfl, .entering hplanned hd⟩

theorem advances_entering (h : Outside builds here) (hhere : f.here = here)
    (hp : (builds k).Planned plan) (hd : f.isDirectory plan.destination.directory = true) :
    (builds k).Advances here (Trees builds here) f (.entering plan)
      ((builds k).step (.entering plan) f) := by
  rw [Build.step, Stage.after]
  rcases Scratch.create_cases plan.destination.directory plan.destination.name f with
    ⟨g, hcreate, hg⟩ | ⟨e, hcreate, -⟩
  · rw [hcreate]
    obtain ⟨name, d, slashed, proper, hfollow, hnew, hagree, hthere⟩ := createDirectory_eq_ok hg
    have hl : name :: d = plan.location here := by
      have hlocation := location_of_follow hfollow
      rwa [hhere] at hlocation
    rw [hl] at hnew hagree hthere
    have heffect : Effect (builds k) here (Trees builds here) f (.entering plan)
        (.working plan ((builds k).work plan), g) :=
      .enters rfl rfl (isTree hp) hnew hthere hagree
    have hd' := hd
    rw [hp.destined.directory] at hd'
    have hg' := h.isDirectory_of_spares hhere heffect.spares hd'
    rw [← hp.destined.directory] at hg'
    have hready : plan.Ready g := by
      refine ⟨hg', ?_, by rwa [hagree.here, hhere]⟩
      obtain ⟨-, -, before, z, d0, hseg, -, -, hnamed⟩ := follow_eq_within_iff.1 hfollow
      have hname : name = "." ++ plan.destination.name ++ ".fmu-build" := by
        rw [Plan.location_eq] at hl
        exact (List.cons.inj hl).1
      rw [hname, named] at hnamed
      split at hnamed
      · cases hnamed
      · omega
    exact ⟨heffect, .working hp hready (h.discreet_work hp)⟩
  · rw [hcreate]
    exact ⟨.outside rfl rfl, .ended⟩

theorem advances_working (h : Outside builds here) (hhere : f.here = here)
    (hp : (builds k).Planned plan) (hr : plan.Ready f) {course : Stepwise PackageError Unit}
    (hc : course.Discreet (plan.bounds here (Trees builds here)) fun _ => True) :
    (builds k).Advances here (Trees builds here) f (.working plan course)
      ((builds k).step (.working plan course) f) := by
  cases hc with
  | ok => exact ⟨.works rfl rfl (isTree hp) (.refl f), .packing hp hr⟩
  | error => exact ⟨.works rfl rfl (isTree hp) (.refl f), .leaving hp hr⟩
  | step first rest =>
    have hagree := first.keeps f ⟨hhere, hr⟩
    have hready := h.ready_of_inside hhere hp hr hagree
    refine Stage.after_cases (fun x hx => ?_) fun e _ => ?_
    · exact ⟨.works rfl rfl (isTree hp) hagree, .working hp hready (rest f x ⟨hhere, hr⟩ hx)⟩
    · exact ⟨.works rfl rfl (isTree hp) hagree, .leaving hp hready⟩

theorem advances_packing (hhere : f.here = here) (hp : (builds k).Planned plan)
    (hr : plan.Ready f) :
    (builds k).Advances here (Trees builds here) f (.packing plan)
      ((builds k).step (.packing plan) f) := by
  refine Stage.after_cases (fun files hfiles => ?_) fun e _ =>
    ⟨.works rfl rfl (isTree hp) (.refl f), .leaving hp hr⟩
  refine ⟨.works rfl rfl (isTree hp) (.refl f), .creating hp hr ?_⟩
  cases hd : f.directory? plan.tree with
  | error e => simp [Plan.settle, Action.look, hd, bind, Except.bind, Except.mapError] at hfiles
  | ok d =>
    simp only [Plan.settle, Action.look, hd, bind, Except.bind, Except.mapError, pure,
      Except.pure, Except.ok.injEq] at hfiles
    rw [Plan.Packed, ← hfiles, location_of_directory? hd, hhere]
    rfl

theorem advances_creating (h : Outside builds here) (hhere : f.here = here)
    (hp : (builds k).Planned plan) (hr : plan.Ready f) (hpacked : plan.Packed here f files) :
    (builds k).Advances here (Trees builds here) f (.creating plan files)
      ((builds k).step (.creating plan files) f) := by
  have hagree := (h.discreet_createArchive hp).keeps f ⟨hhere, hr⟩
  have hready := h.ready_of_inside hhere hp hr hagree
  refine Stage.after_cases (fun x hx => ?_) fun e _ =>
    ⟨.works rfl rfl (isTree hp) hagree, .leaving hp hready⟩
  rcases hcreate : Action.create plan.archive none f with ⟨e | y, g⟩
  · simp only [Plan.createArchive, Action.wrap, hcreate, reduceCtorEq] at hx
  · have hnext : plan.createArchive f = (.ok y, g) := by
      simp only [Plan.createArchive, Action.wrap, hcreate]
    obtain ⟨hl, harchive, hcreated⟩ := create_action_eq_ok hcreate
    rw [hnext] at hx hagree hready ⊢
    cases hx
    rw [hhere] at hl
    rw [hl] at harchive
    refine ⟨.works rfl rfl (isTree hp) hagree,
      .filling hp hready (packed_of_archive hpacked harchive) hl ?_⟩
    obtain ⟨content, hcontent⟩ := hcreated
    exact ⟨content, _, hcontent⟩

theorem advances_filling (h : Outside builds here) (hhere : f.here = here)
    (hp : (builds k).Planned plan) (hr : plan.Ready f) (hpacked : plan.Packed here f files)
    {executable : Bool} (hcreated : ∃ content x,
      f.get? (plan.archive.locationFrom here) = some (.file content x)) :
    (builds k).Advances here (Trees builds here) f
      (.filling plan files (plan.archive.locationFrom here) executable)
      ((builds k).step (.filling plan files (plan.archive.locationFrom here) executable) f) := by
  have hfill := agree_fill f (plan.archive.locationFrom here) (.archive files) executable
  have hagree : AgreeOutside (Inside · (plan.location here)) f _ := hfill.mono fun l hl =>
    hl ▸ (h.leads_archive hp).own
  obtain ⟨content, x, hget⟩ := hcreated
  exact ⟨.works rfl rfl (isTree hp) hagree,
    .publishing hp (h.ready_of_inside hhere hp hr hagree) (packed_of_archive hpacked hfill)
      ⟨executable, get?_fill_of_file hget _ _⟩⟩

/-- An archive is moved to its place as a whole, or nothing is changed. -/
theorem step_publishing (hhere : f.here = here) (hfilled : ∃ executable,
      f.get? (plan.archive.locationFrom here) = some (.file (.archive files) executable)) :
    (∃ e, (builds k).step (.publishing plan files) f = (.leaving plan (.error e), f)) ∨
      ∃ g, (builds k).step (.publishing plan files) f =
          (.leaving plan (.ok (files.map Prod.fst)), g) ∧
        f.get? ((builds k).job.output.locationFrom here) ≠ some .directory ∧
          (∃ executable, g.get? ((builds k).job.output.locationFrom here) =
            some (.file (.archive files) executable)) ∧
            AgreeOutside (fun l => l = plan.archive.locationFrom here ∨
              l = (builds k).job.output.locationFrom here) f g := by
  rw [Build.step, Stage.after]
  simp only [Action.wrap, Action.change]
  cases hmove : f.move plan.archive (builds k).job.output with
  | error e => exact .inl ⟨_, rfl⟩
  | ok g =>
    obtain ⟨content, x, name, d, proper, hsource, hfollow, hfree, hput, hagree⟩ := move_eq_ok hmove
    have hl : name :: d = (builds k).job.output.locationFrom here := by
      have hlocation := location_of_follow hfollow
      rwa [hhere] at hlocation
    obtain ⟨executable, hfilled⟩ := hfilled
    rw [hhere, hfilled] at hsource
    cases hsource
    rw [hl] at hfree hput hagree
    rw [hhere] at hagree
    exact .inr ⟨g, rfl, hfree, ⟨_, hput⟩, hagree⟩

theorem advances_publishing (h : Outside builds here) (hhere : f.here = here)
    (hp : (builds k).Planned plan) (hr : plan.Ready f) (hpacked : plan.Packed here f files)
    (hfilled : ∃ executable,
      f.get? (plan.archive.locationFrom here) = some (.file (.archive files) executable)) :
    (builds k).Advances here (Trees builds here) f (.publishing plan files)
      ((builds k).step (.publishing plan files) f) := by
  rcases @step_publishing _ builds _ k _ _ _ hhere hfilled with
    ⟨e, hstep⟩ | ⟨g, hstep, hfree, hput, hagree⟩
  · rw [hstep]
    exact ⟨.works rfl rfl (isTree hp) (.refl f), .leaving hp hr⟩
  · rw [hstep]
    have harchive := (h.leads_archive hp).own
    have heffect : Effect (builds k) here (Trees builds here) f (.publishing plan files)
        (.leaving plan (.ok (files.map Prod.fst)), g) := by
      refine .publishes hp (isTree hp) hpacked hfree hput (hagree.mono ?_)
      rintro l (rfl | rfl)
      · exact .inl harchive
      · exact .inr rfl
    refine ⟨heffect, .leaving hp (h.ready_of_spares hhere hp hr heffect.spares ?_)⟩
    rw [hagree.get? _, ← hhere]
    · exact hr.there
    · rintro (heq | heq)
      · exact harchive.2 heq.symm
      · refine h.not_isBelow_output plan.destination.isName hp.destined.file (isTree hp) ?_
        rw [← heq]
        exact isBelow_refl _

theorem advances_leaving (hhere : f.here = here) (hp : (builds k).Planned plan) (hr : plan.Ready f)
    {r : Except PackageError (List String)} :
    (builds k).Advances here (Trees builds here) f (.leaving plan r)
      ((builds k).step (.leaving plan r) f) := by
  have hremoval : f.removal plan.scratch =
      .ok (plan.location here, f.inner (plan.location here)) := by
    have hfollow := Plan.follow_scratch hr.directory hr.fits
    have hthere := hr.there
    rw [Plan.location_eq] at hthere
    rw [removal, hfollow]
    simp only [bind, Except.bind, hthere, ← hhere, Plan.location_eq]
    rfl
  rw [Build.step, Stage.after]
  simp only [Action.look, hremoval]
  exact ⟨.works rfl rfl (isTree hp) (.refl f),
    .removing hp hr rfl fun l hl => (mem_inner_iff.1 hl).2⟩

theorem advances_removing (h : Outside builds here) (hhere : f.here = here)
    (hp : (builds k).Planned plan) (hr : plan.Ready f) {r : Except PackageError (List String)}
    {inner : List Location} (hinner : ∀ l ∈ inner, Inside l (plan.location here)) :
    (builds k).Advances here (Trees builds here) f (.removing plan r (plan.location here) inner)
      ((builds k).step (.removing plan r (plan.location here) inner) f) := by
  cases inner with
  | nil => exact ⟨.leaves rfl rfl (isTree hp) (plan.location_ne_nil here), .ended⟩
  | cons l inner =>
    rw [List.forall_mem_cons] at hinner
    have hagree : AgreeOutside (Inside · (plan.location here)) f (f.removeBelow l) :=
      (f.agree_removeBelow hinner.1.ne_nil).mono fun _ hl => hinner.1.below hl
    exact ⟨.works rfl rfl (isTree hp) hagree,
      .removing hp (h.ready_of_inside hhere hp hr hagree) rfl hinner.2⟩

/-- A step does what its stage allows, and leaves in place what the build relies on. -/
theorem advances (h : Outside builds here) (hhere : f.here = here)
    (hs : stage.Sound (builds k) here (Trees builds here) f) :
    (builds k).Advances here (Trees builds here) f stage ((builds k).step stage f) := by
  cases hs with
  | checking => exact advances_checking
  | opening destined directory => exact advances_opening destined directory
  | entering planned directory => exact h.advances_entering hhere planned directory
  | working planned ready discreet => exact h.advances_working hhere planned ready discreet
  | packing planned ready => exact advances_packing hhere planned ready
  | creating planned ready packed => exact h.advances_creating hhere planned ready packed
  | filling planned ready packed location created =>
    subst location
    exact h.advances_filling hhere planned ready packed created
  | publishing planned ready packed filled =>
    exact h.advances_publishing hhere planned ready packed filled
  | leaving planned ready => exact advances_leaving hhere planned ready
  | removing planned ready location inside =>
    subst location
    exact h.advances_removing hhere planned ready inside
  | ended => exact ⟨.outside rfl rfl, .ended⟩

/-! ## What a step looks at -/

variable {t : Location}

/-- What is not in a tree is as it was. -/
theorem check_congr (h : Outside builds here) (hhere : f.here = here) (ht : Trees builds here t)
    (hg : AgreeOutside (Inside · t) f g) :
    Destination.check g (builds k).job.output = Destination.check f (builds k).job.output := by
  have hdirectory : (Destination.directoryOf (builds k).job.output).Avoids f.here (Inside · t) :=
    hhere ▸ (h.destination k t ht).mono fun _ hl => hl.1
  unfold Destination.check
  split
  · rfl
  · rename_i hext
    split
    · rfl
    · rename_i name hstem
      split
      · rename_i hname
        have hfile := Destination.fileName?_of_stem? hstem
          (by simpa only [bne_iff_ne, ne_eq, Decidable.not_not] using hext)
        have houtput := hhere ▸ h.avoids_output hname hfile ht
        simp only [isDirectory_congr hg hdirectory, isDirectory_congr hg houtput]
      · rfl

theorem open?_congr (h : Outside builds here) (hhere : f.here = here) (ht : Trees builds here t)
    (hg : AgreeOutside (Inside · t) f g) :
    Skeleton.open? g (builds k).job.runtimeDirectory =
      Skeleton.open? f (builds k).job.runtimeDirectory := by
  have hruntime : (builds k).job.runtimeDirectory.Avoids f.here (Inside · t) :=
    hhere ▸ (h.runtime k t ht).mono fun _ hl => hl.1
  simp only [Skeleton.open?, list?, directory?_congr hg hruntime]
  cases hd : f.directory? (builds k).job.runtimeDirectory with
  | error e => rfl
  | ok d =>
    have hhold (name : String) : g.get? (name :: d) = f.get? (name :: d) := by
      refine hg.get? _ ?_
      rw [location_of_directory? hd, hhere]
      exact h.not_inside_runtime k ht name
    have hfile (name : String) (hname : name ∈ g.names d) :
        g.isFile ((builds k).job.runtimeDirectory.child name) =
          f.isFile ((builds k).job.runtimeDirectory.child name) := by
      obtain ⟨e, he⟩ := Option.isSome_iff_exists.1 (g.mem_names_iff.1 hname)
      exact isFile_congr hg (hhere ▸ h.avoids_header k ht (g.isFileName_of_get? he))
    have hsorted := Skeleton.sorted_eq_of_perm ((names_perm hhold).filter fun name =>
      f.isFile ((builds k).job.runtimeDirectory.child name))
    simp only [bind, Except.bind, pure, Except.pure, List.filter_congr hfile, hsorted]

theorem overlooks_entering (h : Outside builds here) (hhere : f.here = here)
    (hp : (builds k).Planned plan) (ht : Trees builds here t) :
    (Scratch.create plan.destination.directory plan.destination.name).Overlooks f t := by
  have hcreate : (Action.change (·.createDirectory plan.scratch)).Overlooks f t :=
    overlooks_change fun g hg => createDirectory_congr hg (hhere ▸ h.avoids_scratch hp ht)
  exact (hcreate.wrap _).bind fun _ _ hg => ⟨rfl, hg⟩

/-- A step of a build looks at no scratch tree but its own. -/
theorem overlooks (h : Outside builds here) (hhere : f.here = here)
    (hs : stage.Sound (builds k) here (Trees builds here) f) (ht : Trees builds here t)
    (hne : ∀ scratch, stage.live? = some scratch → t ≠ scratch.locationFrom here) :
    (builds k).Overlooks stage f t := by
  intro g hg
  have hothers {plan : Plan} (hp : (builds k).Planned plan)
      (hlive : stage.live? = some plan.scratch) :
      (plan.bounds here (Trees builds here)).others t :=
    h.others hp ht (hne _ hlive)
  cases hs with
  | checking =>
    have hcheck : (Action.look (Destination.check · (builds k).job.output)).Overlooks f t :=
      Overlooks.look fun g hg => h.check_congr hhere ht hg
    exact Stage.after_congr hcheck hg
  | opening destined directory =>
    refine Stage.after_congr (Overlooks.look fun g hg => ?_) hg
    simp only [Build.prepare, h.open?_congr hhere ht hg]
  | entering planned directory => exact Stage.after_congr (h.overlooks_entering hhere planned ht) hg
  | working planned ready discreet =>
    cases discreet with
    | ok => exact ⟨rfl, hg⟩
    | error => exact ⟨rfl, hg⟩
    | step first rest =>
      exact Stage.after_congr (first.overlooks f ⟨hhere, ready⟩ t (hothers planned rfl)) hg
  | packing planned ready =>
    exact Stage.after_congr
      ((h.discreet_settle planned).overlooks f ⟨hhere, ready⟩ t (hothers planned rfl)) hg
  | creating planned ready packed =>
    exact Stage.after_congr
      ((h.discreet_createArchive planned).overlooks f ⟨hhere, ready⟩ t (hothers planned rfl)) hg
  | @filling plan files l executable planned ready packed location created =>
    subst location
    have hapart := (plan.bounds here (Trees builds here)).apart _ t (h.leads_archive planned).own
      (hothers planned rfl)
    exact ⟨rfl, fill_congr hg hapart _ _⟩
  | @publishing plan files planned ready packed filled =>
    have harchive := (h.leads_archive planned).clear t (hothers planned rfl)
    have houtput := h.avoids_output plan.destination.isName planned.destined.file ht
    have hmove : (Action.change (·.move plan.archive (builds k).job.output)).Overlooks f t :=
      overlooks_change fun g hg => move_congr hg (hhere ▸ harchive) (hhere ▸ houtput)
    exact Stage.after_congr (hmove.wrap _) hg
  | leaving planned ready =>
    exact Stage.after_congr
      ((h.discreet_removal planned).overlooks f ⟨hhere, ready⟩ t (hothers planned rfl)) hg
  | @removing plan r d inner planned ready location inside =>
    subst location
    cases inner with
    | nil => exact ⟨rfl, removeBelow_congr hg (plan.location_ne_nil here)⟩
    | cons l inner =>
      exact ⟨rfl, removeBelow_congr hg (inside l (List.mem_cons_self ..)).ne_nil⟩
  | ended => exact ⟨rfl, hg⟩

/-! ## The steps of others -/

/-- What a build relies on is not affected by changes that leave its scratch directory alone. -/
theorem sound_of_spares (h : Outside builds here) (hhere : f.here = here)
    (hs : stage.Sound (builds k) here (Trees builds here) f)
    (hspares : Spares (Trees builds here) f g)
    (hbelow : ∀ scratch, stage.live? = some scratch → ∀ l,
      isBelow l (scratch.locationFrom here) = true → g.get? l = f.get? l) :
    stage.Sound (builds k) here (Trees builds here) g := by
  have hdirectory {destination : Destination} (hd : (builds k).Destined destination)
      (hf : f.isDirectory destination.directory = true) :
      g.isDirectory destination.directory = true := by
    rw [hd.directory] at hf ⊢
    exact h.isDirectory_of_spares hhere hspares hf
  have hready {plan : Plan} (hp : (builds k).Planned plan) (hr : plan.Ready f)
      (hlive : stage.live? = some plan.scratch) : plan.Ready g := by
    refine h.ready_of_spares hhere hp hr hspares ?_
    rw [hbelow _ hlive (plan.location here) (isBelow_refl _), ← hhere]
    exact hr.there
  have hpacked {plan : Plan} {files : List (String × Content)} (hp : plan.Packed here f files)
      (hlive : stage.live? = some plan.scratch) : plan.Packed here g files := by
    refine hp.congr fun l hl => hbelow _ hlive l (isBelow_trans hl ?_)
    exact Bounds.AtScratch.isBelow_location (descends_tree plan) here
  have harchive {plan : Plan} (hp : (builds k).Planned plan)
      (hlive : stage.live? = some plan.scratch) :
      g.get? (plan.archive.locationFrom here) = f.get? (plan.archive.locationFrom here) :=
    hbelow _ hlive _ (h.leads_archive hp).own.1
  cases hs with
  | checking => exact .checking
  | opening destined directory => exact .opening destined (hdirectory destined directory)
  | entering planned directory => exact .entering planned (hdirectory planned.destined directory)
  | working planned ready discreet => exact .working planned (hready planned ready rfl) discreet
  | packing planned ready => exact .packing planned (hready planned ready rfl)
  | creating planned ready packed =>
    exact .creating planned (hready planned ready rfl) (hpacked packed rfl)
  | filling planned ready packed location created =>
    subst location
    refine .filling planned (hready planned ready rfl) (hpacked packed rfl) rfl ?_
    rwa [harchive planned rfl]
  | publishing planned ready packed filled =>
    refine .publishing planned (hready planned ready rfl) (hpacked packed rfl) ?_
    rwa [harchive planned rfl]
  | leaving planned ready => exact .leaving planned (hready planned ready rfl)
  | removing planned ready location inside =>
    exact .removing planned (hready planned ready rfl) location inside
  | ended => exact .ended

variable {next : Stage × Files}

/-- A step leaves a scratch tree alone that is there and is not its own. -/
theorem get?_of_effect (h : Outside builds here)
    (he : Effect (builds k) here (Trees builds here) f stage next) (ht : Trees builds here t)
    (hthere : f.get? t = some .directory)
    (hne : ∀ scratch, stage.live? = some scratch → t ≠ scratch.locationFrom here) {l : Location}
    (hl : isBelow l t = true) : next.2.get? l = f.get? l := by
  cases he with
  | outside => rfl
  | enters _ _ tree new _ agree =>
    refine agree.get? l ?_
    rintro rfl
    rw [h.eq_of_isBelow tree ht hl, hthere] at new
    cases new
  | works before _ tree agree =>
    exact agree.get? l fun hin => hne _ before (h.eq_of_common ht tree hl hin.1)
  | publishes planned tree _ _ _ agree =>
    refine agree.get? l ?_
    rintro (hin | rfl)
    · exact hne _ rfl (h.eq_of_common ht tree hl hin.1)
    · exact h.not_isBelow_output (Plan.destination _).isName planned.destined.file ht hl
  | leaves before _ tree root =>
    exact (f.agree_removeBelow root).get? l fun hin =>
      hne _ before (h.eq_of_common ht tree hl hin)

end Outside

namespace Build

variable {b : Build} {here l : Location} {trees : Location → Prop} {f : Files} {stage : Stage}
  {next : Stage × Files}

/-- A scratch directory was there before a step, or there was nothing in its place. -/
theorem Effect.live (h : Effect b here trees f stage next) {scratch : Path}
    (hlive : next.1.live? = some scratch) :
    stage.live? = some scratch ∨ f.get? (scratch.locationFrom here) = none := by
  cases h with
  | outside _ after => rw [after] at hlive; cases hlive
  | enters _ after _ new => rw [after] at hlive; cases hlive; exact .inr new
  | works before after => rw [after] at hlive; cases hlive; exact .inl before
  | publishes => cases hlive; exact .inl rfl
  | leaves _ after => rw [after] at hlive; cases hlive

/-- Outside all scratch trees a step changes at most what is at its output. -/
theorem Effect.get?_outside (h : Effect b here trees f stage next)
    (hout : ∀ t, trees t → ¬isBelow l t = true) :
    next.2.get? l = f.get? l ∨ ∃ plan files executable, stage = .publishing plan files ∧
      next.1 = .leaving plan (.ok (files.map Prod.fst)) ∧ b.job.output.locationFrom here = l ∧
        plan.Packed here f files ∧
          next.2.get? l = some (.file (.archive files) executable) := by
  cases h with
  | outside => exact .inl rfl
  | enters _ _ tree _ _ agree =>
    refine .inl (agree.get? l ?_)
    rintro rfl
    exact hout _ tree (isBelow_refl _)
  | works _ _ tree agree => exact .inl (agree.get? l fun hin => hout _ tree hin.1)
  | @publishes plan files g _ tree packed _ put agree =>
    by_cases hl : l = b.job.output.locationFrom here
    · subst hl
      obtain ⟨executable, hput⟩ := put
      exact .inr ⟨plan, files, executable, rfl, rfl, rfl, packed, hput⟩
    · refine .inl (agree.get? l ?_)
      rintro (hin | heq)
      · exact hout _ tree hin.1
      · exact hl heq
  | leaves _ _ tree root => exact .inl ((f.agree_removeBelow root).get? l (hout _ tree))

end Build
end LtiUnit
