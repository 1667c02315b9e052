import LtiUnit.Proofs.NearestConfig
import LtiUnit.Proofs.Preview

/-!
# LtiUnit.Proofs.FrontChecks

The texts of a unit cannot fail to be generated once the checks in front are passed: the name of the
unit comes from a checked destination, the layout is the model's own, and the step size of a command
is checked with its settings.

What a course of actions can fail with is followed through its steps (`Action.FailsWith`).

* `build_eq_render_iff` — a build fails to generate its texts for the step size only.
* `failsWith_produce`, `failsWith_run` — a command never fails to generate a text.
* `rendering_unreachable` — what this says of commands, builds and configurations.
-/

namespace LtiUnit

open LtiUnit.Action

/-! ## What courses of actions fail with -/

namespace Action

variable {ε δ α β : Type} {P : ε → Prop} {act : Action ε α} {f g : Files} {e : ε}

/-- Whether a course fails with errors of one kind only, whatever the files are. -/
def FailsWith (P : ε → Prop) (act : Action ε α) : Prop := ∀ f e, (act f).1 = .error e → P e

theorem failsWith_pure (x : α) : FailsWith P (pure x : Action ε α) := fun _ _ h => nomatch h

theorem failsWith_throw (h : P e) : FailsWith P (throw e : Action ε α) := by
  intro f e' he
  cases he
  exact h

theorem failsWith_look {q : Files → Except ε α} (h : ∀ f e, q f = .error e → P e) :
    FailsWith P (look q) := h

/-- What follows may count on what has succeeded. -/
theorem failsWith_bind_of_ok {next : α → Action ε β} (h : FailsWith P act)
    (hnext : ∀ x f g, act f = (.ok x, g) → FailsWith P (next x)) : FailsWith P (act >>= next) := by
  intro f e he
  rw [bind_apply] at he
  have hact := h f
  rcases hr : act f with ⟨e' | x, g⟩
  · rw [hr] at he hact
    exact hact e (by simpa using he)
  · rw [hr] at he
    exact hnext x f g hr g e he

theorem failsWith_bind {next : α → Action ε β} (h : FailsWith P act)
    (hnext : ∀ x, FailsWith P (next x)) : FailsWith P (act >>= next) :=
  failsWith_bind_of_ok h fun x _ _ _ => hnext x

/-- A course that reports in other words fails with what is said in them. -/
theorem failsWith_wrap {w : δ → ε} {act : Action δ α} (h : FailsWith (fun e => P (w e)) act) :
    FailsWith P (wrap w act) := by
  intro f e he
  have hact := h f
  unfold wrap at he
  rcases hr : act f with ⟨e' | x, g⟩
  · rw [hr] at he hact
    cases he
    exact hact e' rfl
  · rw [hr] at he
    cases he

theorem failsWith_forM {act : β → Action ε Unit} {xs : List β} (h : ∀ x, FailsWith P (act x)) :
    FailsWith P (xs.forM act) := by
  induction xs with
  | nil => exact failsWith_pure ()
  | cons x xs ih => exact failsWith_bind (h x) fun _ => ih

theorem failsWith_andFinally {last : Action δ Unit} (h : FailsWith P act) :
    FailsWith P (act.andFinally last) := by
  intro f e he
  refine h f e ?_
  rw [← he]
  unfold andFinally
  rcases act f with ⟨r, g⟩
  rfl

end Action

theorem mapError_eq_error_iff {ε δ α : Type} {x : Except δ α} {w : δ → ε} {e : ε} :
    x.mapError w = .error e ↔ ∃ cause, x = .error cause ∧ w cause = e := by
  cases x <;> simp [Except.mapError]

/-! ## Errors of generating texts -/

/-- The part of an error that tells why a text cannot be generated. -/
def PackageError.rendering? : PackageError → Option RenderError
  | .render cause => some cause
  | _ => none

def CommandError.rendering? : CommandError → Option RenderError
  | .package cause | .building _ cause => cause.rendering?
  | _ => none

/-- Whether an error is about anything but texts that cannot be generated. -/
def PackageError.IsOther (e : PackageError) : Prop := e.rendering? = none

def CommandError.IsOther (e : CommandError) : Prop := e.rendering? = none

namespace Package

open Model (StateSpace)

variable {f : Files} {p : Path} {e : PackageError}

theorem isOther_of_check (h : Destination.check f p = .error e) : e.IsOther := by
  unfold Destination.check at h
  simp only at h
  split at h
  · cases h; rfl
  · split at h
    · cases h; rfl
    · split at h
      · split at h
        · cases h; rfl
        · split at h
          · cases h; rfl
          · cases h
      · cases h; rfl

theorem isOther_of_open? (h : Skeleton.open? f p = .error e) : e.IsOther := by
  unfold Skeleton.open? at h
  split at h
  · cases h; rfl
  · simp only at h
    split at h
    · cases h
    · cases h; rfl

/-- What goes wrong with files is no fault of a text. -/
theorem failsWith_files {α : Type} (task : FileTask) (p : Path) (act : Action FileError α) :
    FailsWith PackageError.IsOther (wrap (.files task p) act) :=
  failsWith_wrap fun _ _ _ => rfl

/-- A look at a path does not fail for want of a text either. -/
theorem failsWith_read {α : Type} (faults : Faults) (task : FileTask) (p : Path)
    (q : Files → Except FileError α) : FailsWith PackageError.IsOther
      (Action.read faults p (.files task p) fun f => (q f).mapError (.files task p)) := by
  intro f e h
  unfold Action.read at h
  split at h
  · cases h
    rfl
  · obtain ⟨cause, -, rfl⟩ := mapError_eq_error_iff.1 h
    rfl

section Stages

variable (faults : Faults)

theorem failsWith_layOut (tree : Path) (skeleton : Skeleton) (rendered : Rendered) :
    FailsWith PackageError.IsOther (layOut faults tree skeleton rendered) := by
  have hinstall (target : Path) :
      FailsWith PackageError.IsOther (skeleton.installUnder faults target) :=
    failsWith_bind (failsWith_files _ _ _) fun _ => failsWith_forM fun _ => failsWith_files _ _ _
  exact failsWith_bind (failsWith_files _ _ _) fun _ =>
    failsWith_bind (failsWith_files _ _ _) fun _ =>
      failsWith_bind (hinstall _) fun _ => failsWith_files _ _ _

/-- A check on the files that a course makes before it goes on. -/
theorem failsWith_guard {α : Type} {q : Files → Bool} {e : PackageError}
    {rest : Action PackageError α} (he : e.IsOther) (hrest : FailsWith PackageError.IsOther rest) :
    FailsWith PackageError.IsOther (do
      if !(← look fun f => .ok (q f)) then throw e
      rest) := by
  refine failsWith_bind (failsWith_look fun _ _ h => nomatch h) fun found => ?_
  cases found
  · exact failsWith_bind (failsWith_throw he) fun _ => hrest
  · exact hrest

theorem failsWith_addLibrary {t : Toolchain}
    (ht : ∀ r, FailsWith PackageError.IsOther (t.compile r)) (tree build : Path) (name : String)
    (platform : Platform) :
    FailsWith PackageError.IsOther (addLibrary faults t tree build name platform) :=
  failsWith_bind (failsWith_files _ _ _) fun _ => failsWith_bind (ht _) fun _ =>
    failsWith_guard rfl (failsWith_bind (failsWith_files _ _ _) fun _ => failsWith_files _ _ _)

theorem failsWith_addFiles (root archive : Path) (held more : List (String × Content)) :
    FailsWith PackageError.IsOther (addFiles faults root archive held more) := by
  induction more generalizing held with
  | nil => exact failsWith_pure _
  | cons file more ih =>
    exact failsWith_bind (failsWith_read faults _ _ fun _ => .ok ()) fun _ =>
      failsWith_bind (failsWith_files _ _ _) fun _ => ih _

theorem failsWith_publish (tree archive output : Path) :
    FailsWith PackageError.IsOther (publish faults tree archive output) := by
  have hlook {α : Type} (q : Files → α) :
      FailsWith PackageError.IsOther (look fun f => .ok (q f)) :=
    failsWith_look fun _ _ h => nomatch h
  have hpack : FailsWith PackageError.IsOther (packUnder faults tree archive) :=
    failsWith_bind (failsWith_read faults _ _ _) fun _ => failsWith_bind (hlook _) fun _ =>
      failsWith_bind (failsWith_forM fun _ => failsWith_read faults _ _ fun _ => .ok ()) fun _ =>
        failsWith_bind (hlook _) fun _ => failsWith_bind (failsWith_files _ _ _) fun _ =>
          failsWith_bind (failsWith_addFiles faults _ _ _ _) fun _ => failsWith_pure _
  exact failsWith_bind hpack fun _ =>
    failsWith_bind (failsWith_files _ _ _) fun _ => failsWith_pure _

theorem failsWith_enter (output : Path) (destination : Destination) :
    FailsWith PackageError.IsOther (enter faults output destination) := by
  refine failsWith_wrap fun f e he => ?_
  have hcreate : FailsWith PackageError.IsOther
      (Scratch.createUnder faults destination.directory destination.name) := by
    refine failsWith_bind (failsWith_wrap fun _ e _ => ?_) fun _ => failsWith_pure _
    dsimp only
    split <;> rfl
  have hother := hcreate f e he
  change (atDestination output e).IsOther
  unfold atDestination
  split
  · split <;> rfl
  · exact hother

theorem failsWith_use {α : Type} {create : Action PackageError Scratch}
    {work : Scratch → Action PackageError α} (hcreate : FailsWith PackageError.IsOther create)
    (hwork : ∀ s, FailsWith PackageError.IsOther (work s)) :
    FailsWith PackageError.IsOther (Scratch.use create work) :=
  failsWith_bind hcreate fun s => failsWith_andFinally (hwork s)

end Stages

/-! ## The texts of a build -/

/-- The texts of a unit with a name are generated unless the step size is not finite and
positive. -/
theorem render_eq {name : String} (hname : isName name = true) (m : StateSpace Float) (step : Float)
    (occasion : Occasion) :
    (Render.validStepSize step = true ∧ ∃ rendered,
        render m name step occasion = .ok rendered) ∨
      (¬Render.validStepSize step = true ∧
        render m name step occasion = .error (.render (.stepSize step))) := by
  by_cases hstep : Render.validStepSize step = true
  · exact .inl ⟨hstep, _, render_of m hname hstep occasion⟩
  · refine .inr ⟨hstep, ?_⟩
    have hid : Render.identify name occasion = .ok ⟨name, hname, occasion⟩ := by
      rw [Render.identify, Identity.make?, dif_pos hname]
    have hlayout : Render.checkLayout m m.layout = .ok () := if_pos rfl
    rw [Bool.not_eq_true] at hstep
    simp only [render, hid, Render.source, hlayout, hstep, bind, Except.bind]
    rfl

/-- What a build does once it has its texts does not fail for want of them. -/
theorem failsWith_assemble (faults : Faults) {t : Toolchain}
    (ht : ∀ r, FailsWith PackageError.IsOther (t.compile r)) (job : Job) (name : String)
    (skeleton : Skeleton) (rendered : Rendered) (scratch : Scratch) :
    FailsWith PackageError.IsOther (do
      let tree := scratch.path.child "fmu"
      layOut faults tree skeleton rendered
      addLibrary faults t tree (scratch.path.child "build") name job.platform
      if !job.keepSources then dropSources faults tree
      publish faults tree (scratch.path.child (name ++ ".zip")) job.output) := by
  refine failsWith_bind (failsWith_layOut _ _ _ _) fun _ =>
    failsWith_bind (failsWith_addLibrary _ ht _ _ _ _) fun _ => ?_
  split
  · exact failsWith_bind (failsWith_files _ _ _) fun _ => failsWith_publish _ _ _ _
  · exact failsWith_publish _ _ _ _

/-- A build fails to generate its texts exactly if its step size is not finite and positive and both
checks in front of that are passed. -/
theorem build_eq_render_iff {t : Toolchain}
    (ht : ∀ r, FailsWith PackageError.IsOther (t.compile r)) (m : StateSpace Float) (job : Job)
    (occasion : Occasion) (f : Files) (cause : RenderError) :
    (build m job t occasion f).1 = .error (.render cause) ↔
      cause = .stepSize job.stepSize ∧ ¬Render.validStepSize job.stepSize = true ∧
        (∃ destination, Destination.check f job.output = .ok destination) ∧
          ∃ skeleton, Skeleton.open? f job.runtimeDirectory = .ok skeleton := by
  have hother {e : PackageError} (he : e.IsOther) : e ≠ .render cause := by
    rintro rfl
    cases he
  unfold build buildUnder
  cases hcheck : Destination.check f job.output with
  | error e =>
    rw [bind_of_error (e := e) (g := f) (by rw [look, hcheck])]
    simpa using hother (isOther_of_check hcheck)
  | ok destination =>
    rw [bind_of_ok (look_of_ok hcheck)]
    rw [openUnder_never]
    cases hopen : Skeleton.open? f job.runtimeDirectory with
    | error e =>
      rw [bind_of_error (e := e) (g := f) (by rw [look, hopen])]
      simpa using hother (isOther_of_open? hopen)
    | ok skeleton =>
      rw [bind_of_ok (look_of_ok hopen)]
      rcases render_eq destination.isName m job.stepSize occasion with
        ⟨hstep, rendered, hrender⟩ | ⟨hstep, hrender⟩
      · rw [bind_of_ok (look_of_ok hrender)]
        refine iff_of_false (fun h => ?_) fun h => h.2.1 hstep
        refine hother ?_ rfl
        exact failsWith_bind (failsWith_use (failsWith_enter _ _ _) (failsWith_assemble _ ht job
          destination.name skeleton rendered)) (fun _ => failsWith_pure _) f _ h
      · rw [bind_of_error (e := .render (.stepSize job.stepSize)) (g := f) (by rw [look, hrender])]
        simp [hstep, eq_comm]

end Package

/-! ## Commands -/

namespace Command

open Model (Description)

section

variable {host : Host} {d : Description Float} {options : BuildOptions} {found : Option FoundConfig}
  {directory : Path} {e : CommandError}

theorem isOther_bind {α β : Type} {x : Except CommandError α} {next : α → Except CommandError β}
    (hx : ∀ e, x = .error e → e.IsOther) (hnext : ∀ y e, next y = .error e → e.IsOther) :
    ∀ e, (x >>= next) = .error e → e.IsOther := by
  intro e h
  cases x with
  | error =>
    cases h
    exact hx e rfl
  | ok y => exact hnext y e h

theorem isOther_mapError {δ α : Type} {x : Except δ α} {w : δ → CommandError}
    (hw : ∀ cause, (w cause).IsOther) : ∀ e, x.mapError w = .error e → e.IsOther := by
  intro e h
  obtain ⟨cause, -, rfl⟩ := mapError_eq_error_iff.1 h
  exact hw cause

theorem failsWith_compile (start : Toolchain.Starter) (c : Toolchain.Compiler)
    (r : Toolchain.Request) : FailsWith PackageError.IsOther (c.compile start r) := by
  refine failsWith_bind (failsWith_wrap fun _ e _ => ?_) fun o => ?_
  · cases e <;> rfl
  · split
    · exact failsWith_bind (failsWith_throw rfl) fun _ =>
        Package.failsWith_guard rfl (failsWith_pure _)
    · exact Package.failsWith_guard rfl (failsWith_pure _)

theorem isOther_of_plan :
    ∀ e, plan host d options found directory = .error e → e.IsOther :=
  isOther_bind (isOther_mapError fun _ => rfl) fun _ =>
    isOther_bind (isOther_mapError fun _ => rfl) fun _ _ h => nomatch h

theorem validStepSize_of_plan {p : Plan} (h : plan host d options found directory = .ok p) :
    Render.validStepSize p.settings.stepSize = true := by
  have hsettings := settings_of_plan h
  rw [Settings.resolve] at hsettings
  split at hsettings
  · rename_i hvalid
    rw [← Except.ok.inj hsettings]
    exact hvalid
  · cases hsettings

theorem isOther_of_preview {p : Plan} (hstep : Render.validStepSize p.settings.stepSize = true)
    {output : Path} {f : Files} (h : preview host p output f = .error e) : e.IsOther := by
  obtain ⟨cause, hcause, rfl⟩ := mapError_eq_error_iff.1 h
  cases hcheck : Package.Destination.check f output with
  | error cause' =>
    rw [hcheck] at hcause
    cases hcause
    exact Package.isOther_of_check hcheck
  | ok destination =>
    rw [hcheck] at hcause
    have hrender := Package.render_of p.model destination.isName hstep host.occasion
    exact nomatch hrender.symm.trans hcause

theorem failsWith_artifact {p : Plan} (hstep : Render.validStepSize p.settings.stepSize = true)
    (output : Path) : FailsWith CommandError.IsOther (artifact host p output) := by
  refine failsWith_bind (failsWith_look fun _ => isOther_mapError fun _ => rfl) fun platform =>
    failsWith_wrap fun f e he => ?_
  cases hcause : e.rendering? with
  | none => exact hcause
  | some cause =>
    cases e <;> cases hcause
    have hrender := (Package.build_eq_render_iff (failsWith_compile _ _) _ _ _ f _).1 he
    exact absurd hstep hrender.2.1

/-- A command that has a plan never fails to generate a text. -/
theorem failsWith_produce : FailsWith CommandError.IsOther
    (produce host d options found directory) := by
  refine failsWith_bind_of_ok (failsWith_look fun _ => isOther_of_plan) fun p f g hplan => ?_
  have hstep := validStepSize_of_plan (look_eq_ok hplan).1
  split
  · exact failsWith_bind (failsWith_look fun _ _ => isOther_of_preview hstep) fun _ =>
      failsWith_pure _
  · exact failsWith_bind (failsWith_look fun _ _ => isOther_of_preview hstep) fun _ =>
      failsWith_pure _
  · exact failsWith_bind (failsWith_artifact hstep _) fun _ => failsWith_pure _

end

theorem isOther_of_loadModel {f : Files} {p : Path} (h : loadModel f p = .error e) :
    e.IsOther := by
  unfold loadModel at h
  split at h
  · cases h
    rfl
  · simp only at h
    split at h
    · cases h
    · cases h
      rfl

theorem isOther_of_loadConfig {f : Files} {p : Path} (h : loadConfig f p = .error e) :
    e.IsOther := by
  unfold loadConfig at h
  simp only at h
  split at h
  · cases h
    rfl
  · split at h
    · cases h
    · cases h
      rfl

theorem isOther_of_firstConfig {f : Files} {ds : List Path} (h : firstConfig f ds = .error e) :
    e.IsOther := by
  induction ds with
  | nil => cases h
  | cons d more ih =>
    unfold firstConfig at h
    split at h
    · cases hload : loadConfig f d with
      | error e' =>
        rw [hload] at h
        cases h
        exact isOther_of_loadConfig hload
      | ok c =>
        rw [hload] at h
        cases h
    · exact ih h

theorem isOther_of_describe {source : ModelSource} {f : Files} :
    ∀ e, source.describe f = .error e → e.IsOther := by
  have hvalue {α : Type} (x : Except ValueError α) :
      ∀ e, x.mapError CommandError.value = .error e → e.IsOther := isOther_mapError fun _ => rfl
  cases source with
  | stateSpace a b c d =>
    exact isOther_bind (hvalue _) fun _ => isOther_bind (hvalue _) fun _ =>
      isOther_bind (hvalue _) fun _ => isOther_bind (hvalue _) fun _ _ h => nomatch h
  | transferFunction num den =>
    exact isOther_bind (hvalue _) fun _ => isOther_bind (hvalue _) fun _ _ h => nomatch h
  | zeroPoleGain zeros poles gain =>
    exact isOther_bind (hvalue _) fun _ => isOther_bind (hvalue _) fun _ _ h => nomatch h
  | controller kp ki kd t => exact fun _ h => nomatch h
  | file p => exact fun _ => isOther_of_loadModel

theorem isOther_of_described {source : ModelSource} {f : Files} :
    ∀ e, described source options f = .error e → e.IsOther :=
  isOther_bind isOther_of_describe fun _ =>
    isOther_bind (fun _ => isOther_of_firstConfig) fun _ =>
      isOther_bind (isOther_mapError fun _ => rfl) fun _ _ h => nomatch h

/-- A report on what a build would find fails for a bad step size only, which is none of its
texts. -/
theorem failsWith_report : FailsWith CommandError.IsOther (Doctor.report host) := by
  have hlines (s : Settings) : FailsWith CommandError.IsOther (Doctor.toolchainLines host s) := by
    unfold Doctor.toolchainLines
    split
    · exact failsWith_pure _
    · refine failsWith_bind (fun f e h => ?_) fun _ => failsWith_pure _
      unfold Toolchain.Compiler.probe at h
      split at h <;> cases h
  refine failsWith_bind (failsWith_look fun _ _ h => nomatch h) fun _ =>
    failsWith_bind (failsWith_look fun _ _ h => nomatch h) fun _ =>
      failsWith_bind (failsWith_look fun _ => isOther_mapError fun _ => rfl) fun _ =>
        failsWith_bind (hlines _) fun _ =>
          failsWith_bind (failsWith_look fun _ _ h => nomatch h) fun _ => failsWith_pure _

/-- No command fails to generate a text, from its command line on. -/
theorem failsWith_run (task : Task) : FailsWith CommandError.IsOther (task.run host) := by
  cases task with
  | doctor => exact failsWith_bind failsWith_report fun _ => failsWith_pure _
  | model source options =>
    exact failsWith_bind (failsWith_look fun _ _ h => nomatch h) fun _ =>
      failsWith_bind (failsWith_look fun _ => isOther_of_described) fun _ => failsWith_produce

/-- The step sizes that a configuration gives. -/
theorem validStepSize_of_ofText? {s : String} {c : Config} {x : Float}
    (h : Config.ofText? s = .ok c) (hx : c.stepSize = some x) :
    Render.validStepSize x = true :=
  valid_iff.1 (parses_of_ofText? h).2 x hx

/-- No command fails to generate a text, whatever it is asked for. A build by itself does so for its
step size only, and only if that is not finite and positive and its destination and its skeleton are
good; the toolchain is taken to have no texts to generate. -/
theorem rendering_unreachable :
    (∀ host d options found directory f e,
      (produce host d options found directory f).1 = .error e → e.rendering? = none) ∧
    (∀ t : Toolchain, (∀ r, FailsWith PackageError.IsOther (t.compile r)) →
      ∀ m job occasion f cause,
        (Package.build m job t occasion f).1 = .error (.render cause) ↔
          cause = .stepSize job.stepSize ∧ ¬(job.stepSize.isFinite = true ∧ 0 < job.stepSize) ∧
            (∃ destination, Package.Destination.check f job.output = .ok destination) ∧
              ∃ skeleton, Package.Skeleton.open? f job.runtimeDirectory = .ok skeleton) ∧
    ∀ s c x, Config.ofText? s = .ok c → c.stepSize = some x → x.isFinite = true ∧ 0 < x := by
  refine ⟨fun _ _ _ _ _ => failsWith_produce, fun t ht m job occasion f cause => ?_, ?_⟩
  · rw [← Render.validStepSize_iff]
    exact Package.build_eq_render_iff ht m job occasion f cause
  · intro s c x hs hx
    exact (Render.validStepSize_iff x).1 (validStepSize_of_ofText? hs hx)

/-- A step size of zero stops a command before it plans anything, and a build at its texts. -/
theorem rendering_unreachable_zero :
    let d : Description Float := .stateSpace ⟨none, none, none, none, none, none⟩
    let options : BuildOptions := { BuildOptions.ofProgress .start with dt := some 0 }
    (∃ e, (produce Host.hollow d options none (.ofText "/work") Files.furnished).1 = .error e ∧
      e.rendering? = none) ∧
    (Package.build Model.StateSpace.void
        { Package.Job.plain (.ofText "q.fmu") with stepSize := 0 } Toolchain.hollow ⟨⟨0⟩, 0⟩
        Files.furnished).1 = .error (.render (.stepSize 0)) ∧
    ∃ c, Config.ofText? "[build]\nstep-size = 2.5\n" = .ok c ∧ c.stepSize = some 2.5 ∧
      (2.5 : Float).isFinite = true ∧ (0 : Float) < 2.5 := by
  intro d options
  obtain ⟨hproduce, hbuild, hconfig⟩ := rendering_unreachable
  refine ⟨?_, ?_, ?_⟩
  · have hresolve : Settings.resolve options none (.ofText "/work") Host.hollow.environment =
        .error 0 := if_neg (by decide +kernel)
    have hplan : plan Host.hollow d options none (.ofText "/work") = .error (.stepSize 0) := by
      rw [plan, hresolve]
      rfl
    have hlook : look (fun _ => plan Host.hollow d options none (.ofText "/work"))
        Files.furnished = (.error (.stepSize 0), Files.furnished) := Prod.ext hplan rfl
    have hfails : (produce Host.hollow d options none (.ofText "/work") Files.furnished).1 =
        .error (.stepSize 0) := by
      rw [produce, bind_of_error hlook]
    exact ⟨_, hfails, hproduce _ _ _ _ _ _ _ hfails⟩
  · refine (hbuild Toolchain.hollow (fun r => ?_) _ _ _ _ _).2 ⟨rfl, by decide +kernel, ?_, ?_⟩
    · exact failsWith_bind (Package.failsWith_files _ _ _) fun _ => failsWith_pure _
    · exact ⟨_, Package.check_here rfl (by decide) (by decide) (by decide) (by decide)⟩
    · exact Package.exists_open? Package.isDirectory_runtime Package.isFile_runtime
  · have hread : (Config.ofText? "[build]\nstep-size = 2.5\n").toOption.bind (·.stepSize) =
        some 2.5 := by decide +kernel
    cases hc : Config.ofText? "[build]\nstep-size = 2.5\n" with
    | error e =>
      rw [hc] at hread
      cases hread
    | ok c =>
      rw [hc] at hread
      exact ⟨c, rfl, hread, hconfig _ c _ hc hread⟩

end Command
end LtiUnit
