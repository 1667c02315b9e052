import LtiUnit.Proofs.BuildSteps
import LtiUnit.Proofs.Faults

/-!
# LtiUnit.Proofs.Interleaving

Builds that share the files, one step of one of them at a time. A build checks its destination and
its skeleton, creates its scratch directory, works in it, packs its tree, moves the archive to its
place and removes the scratch directory, what lies inside one by one and the directory last. A
schedule says whose turn it is; it is any list.

A build that is always its turn comes to what `Package.build` comes to (`Build.arrives_build`).
-/

namespace LtiUnit

open LtiUnit.Files LtiUnit.Path LtiUnit.Package
open Model (StateSpace)

/-- A build to be run along with others. -/
structure Build where
  model : StateSpace Float
  job : Job
  toolchain : Stepwise.Toolchain
  occasion : Occasion

namespace Build

/-- What is settled before the scratch directory is created. -/
structure Plan where
  destination : Destination
  skeleton : Skeleton
  rendered : Rendered

namespace Plan

def scratch (plan : Plan) : Path :=
  Scratch.pathFor plan.destination.directory plan.destination.name

def tree (plan : Plan) : Path := plan.scratch.child "fmu"

def archive (plan : Plan) : Path := plan.scratch.child (plan.destination.name ++ ".zip")

/-- Settle what is packed. -/
def settle (plan : Plan) : Action PackageError (List (String × Content)) :=
  Action.look fun f => do
    let d ← (f.directory? plan.tree).mapError (.files .reading plan.tree)
    return Archive.ofDirectory f d

/-- Create the archive. -/
def createArchive (plan : Plan) : Action PackageError (Location × Bool) :=
  Action.wrap (.files .creating plan.archive) (Action.create plan.archive none)

end Plan

/-- How far a build has come, and what it has in hand. -/
inductive Stage where
  | checking
  | opening (destination : Destination)
  | entering (plan : Plan)
  | working (plan : Plan) (course : Stepwise PackageError Unit)
  | packing (plan : Plan)
  | creating (plan : Plan) (files : List (String × Content))
  | filling (plan : Plan) (files : List (String × Content)) (l : Location) (executable : Bool)
  | publishing (plan : Plan) (files : List (String × Content))
  | leaving (plan : Plan) (r : Except PackageError (List String))
  | removing (plan : Plan) (r : Except PackageError (List String)) (d : Location)
    (inner : List Location)
  | ended (r : Except PackageError Report)

namespace Stage

/-- The scratch directory of a build that is between its creation and its removal. -/
def live? : Stage → Option Path
  | working plan _ | packing plan | creating plan _ | filling plan _ _ _ | publishing plan _
  | leaving plan _ | removing plan _ _ _ => some plan.scratch
  | checking | opening _ | entering _ | ended _ => none

/-- Take an action, and go on with what it comes to. -/
def after {ε α : Type} (act : Action ε α) (ok : α → Stage) (error : ε → Stage) (f : Files) :
    Stage × Files :=
  match act f with
  | (.ok x, g) => (ok x, g)
  | (.error e, g) => (error e, g)

end Stage

variable (b : Build)

/-- Open the skeleton, and render the texts. -/
def prepare (destination : Destination) (f : Files) : Except PackageError Plan := do
  let skeleton ← Skeleton.open? f b.job.runtimeDirectory
  let rendered ← render b.model destination.name b.job.stepSize b.occasion
  return ⟨destination, skeleton, rendered⟩

def work (plan : Plan) : Stepwise PackageError Unit :=
  Stepwise.work b.toolchain plan.scratch plan.destination.name plan.skeleton plan.rendered
    b.job.platform b.job.keepSources

def report (plan : Plan) (entries : List String) : Report where
  identifier := plan.destination.name
  guid := plan.rendered.identity.occasion.guid
  platform := b.job.platform
  nx := b.model.nx
  nu := b.model.nu
  ny := b.model.ny
  nr := b.model.layout.registerCount
  stepSize := b.job.stepSize
  toolchain := b.toolchain.name
  archive := b.job.output
  entries := entries
  milliseconds := 0

open Stage in
/-- One step of a build. Whatever fails inside the scratch directory leads to its removal. -/
def step : Stage → Files → Stage × Files
  | checking => after (Action.look (Destination.check · b.job.output)) opening (ended ∘ .error)
  | opening destination => after (Action.look (b.prepare destination)) entering (ended ∘ .error)
  | entering plan =>
    after (Scratch.create plan.destination.directory plan.destination.name)
      (fun _ => working plan (b.work plan)) (ended ∘ .error)
  | working plan (.step act next) =>
    after act (fun x => working plan (next x)) (leaving plan ∘ .error)
  | working plan (.done (.ok _)) => fun f => (packing plan, f)
  | working plan (.done (.error e)) => fun f => (leaving plan (.error e), f)
  | packing plan => after plan.settle (creating plan) (leaving plan ∘ .error)
  | creating plan files =>
    after plan.createArchive (fun x => filling plan files x.1 x.2) (leaving plan ∘ .error)
  | filling plan files l executable => fun f =>
    (publishing plan files, f.fill l (.archive files) executable)
  | publishing plan files =>
    after (Action.wrap (.files .movingArchive b.job.output)
      (Action.change (·.move plan.archive b.job.output)))
      (fun _ => leaving plan (.ok (files.map Prod.fst))) (leaving plan ∘ .error)
  | leaving plan r =>
    after (Action.look (·.removal plan.scratch)) (fun x => removing plan r x.1 x.2)
      (fun _ => ended (r.map (b.report plan)))
  | removing plan r d (l :: held) => fun f => (removing plan r d held, f.removeBelow l)
  | removing plan r d [] => fun f => (ended (r.map (b.report plan)), f.removeBelow d)
  | ended r => fun f => (ended r, f)

/-! ## A build on its own -/

/-- What a build comes to that is always its turn. -/
inductive Arrives : Stage → Files → Except PackageError Report → Files → Prop where
  | ended {r : Except PackageError Report} {f : Files} : Arrives (.ended r) f r f
  | step {stage : Stage} {f : Files} {r : Except PackageError Report} {g : Files} :
    Arrives (b.step stage f).1 (b.step stage f).2 r g → Arrives stage f r g

variable {b} {plan : Plan} {f g : Files} {r : Except PackageError (List String)}

theorem Arrives.next {stage : Stage} {r : Except PackageError Report}
    (h : b.Arrives stage f r g) : b.Arrives (b.step stage f).1 (b.step stage f).2 r g := by
  cases h with
  | ended => exact .ended
  | step h => exact h

theorem arrives_removing (d : Location) (inner : List Location) (f : Files) :
    b.Arrives (.removing plan r d inner) f (r.map (b.report plan))
      ((inner.foldl removeBelow f).removeBelow d) := by
  induction inner generalizing f with
  | nil => exact .step .ended
  | cons l inner ih => exact .step (ih (f.removeBelow l))

theorem arrives_leaving (f : Files) :
    b.Arrives (.leaving plan r) f (r.map (b.report plan)) ((Scratch.mk plan.scratch).remove f).2 := by
  refine .step ?_
  simp only [step, Stage.after, Action.look, Scratch.remove, Action.change, removeDirectory_eq]
  cases hr : f.removal plan.scratch with
  | error e => exact .ended
  | ok x =>
    obtain ⟨d, inner⟩ := x
    obtain ⟨-, rfl, -⟩ := removal_eq_ok hr
    have harrives : b.Arrives (.removing plan r d (f.inner d)) f (r.map (b.report plan))
        (((f.inner d).foldl removeBelow f).removeBelow d) := arrives_removing d (f.inner d) f
    rwa [foldl_removeBelow fun l hl => (mem_inner_iff.1 hl).2.1] at harrives

/-- Whether a stage takes some actions and then removes the scratch directory. -/
def Carries (b : Build) (plan : Plan) (stage : Stage) (act : Action PackageError (List String)) :
    Prop :=
  ∀ f, b.Arrives stage f ((act f).1.map (b.report plan))
    ((Scratch.mk plan.scratch).remove (act f).2).2

theorem step_filling (files : List (String × Content)) (l : Location) (executable : Bool) :
    b.step (.filling plan files l executable) =
      Stage.after (Action.fill l (.archive files) executable) (fun _ => .publishing plan files)
        (.leaving plan ∘ .error) := rfl

-- A step is matched by the action that it takes, not by what this action comes to.
attribute [local irreducible] Stage.after

theorem carries_leaving (entries : List String) :
    b.Carries plan (.leaving plan (.ok entries)) (pure entries) :=
  fun f => arrives_leaving f

theorem carries_after {α : Type} {stage : Stage} {act : Action PackageError α} {next : α → Stage}
    {k : α → Action PackageError (List String)}
    (hstep : b.step stage = Stage.after act next (.leaving plan ∘ .error))
    (h : ∀ x, b.Carries plan (next x) (k x)) : b.Carries plan stage (act >>= k) := by
  intro f
  refine .step ?_
  rw [hstep, Action.bind_apply, Stage.after]
  rcases act f with ⟨e | x, g⟩
  · exact arrives_leaving g
  · exact h x g

theorem createArchive_fill (plan : Plan) (files : List (String × Content)) :
    Action.wrap (.files .creating plan.archive)
      (Action.change (·.write plan.archive (.archive files))) =
        plan.createArchive >>= fun x => Action.fill x.1 (.archive files) x.2 := by
  funext f
  simp only [Plan.createArchive, Action.wrap, Action.change, Files.write, writeAs,
    Action.bind_apply, Action.create, Option.getD_none]
  cases f.create plan.archive ((f.executable? plan.archive).getD false) <;> rfl

theorem settle_eq (plan : Plan) :
    plan.settle =
      (Action.wrap (.files .reading plan.tree) (Action.look (·.directory? plan.tree)) >>=
        fun d => Action.look fun f => .ok (Archive.ofDirectory f d)) := by
  funext f
  simp only [Plan.settle, Action.bind_apply, Action.wrap, Action.look]
  cases f.directory? plan.tree <;> rfl

theorem publish_eq (plan : Plan) (output : Path) :
    publish .never plan.tree plan.archive output = do
      let files ← plan.settle
      let x ← plan.createArchive
      Action.fill x.1 (.archive files) x.2
      Action.wrap (.files .movingArchive output) (Action.change (·.move plan.archive output))
      return files.map Prod.fst := by
  have hpack := pack_eq plan.tree plan.archive
  rw [pack] at hpack
  simp only [publish, hpack, createArchive_fill, settle_eq, bind_assoc, pure_bind]
  rfl

theorem carries_packing (b : Build) (plan : Plan) :
    b.Carries plan (.packing plan) (publish .never plan.tree plan.archive b.job.output) := by
  rw [publish_eq]
  refine carries_after rfl fun files => carries_after rfl fun x => ?_
  refine carries_after (step_filling files x.1 x.2) fun _ => ?_
  exact carries_after rfl fun _ => carries_leaving _

theorem carries_working (course : Stepwise PackageError Unit) :
    b.Carries plan (.working plan course)
      (course.run >>= fun _ => publish .never plan.tree plan.archive b.job.output) := by
  induction course with
  | done r =>
    cases r with
    | error e =>
      intro f
      have hrun : ((Stepwise.done (.error e) : Stepwise PackageError Unit).run >>= fun _ =>
          publish .never plan.tree plan.archive b.job.output) f = (.error e, f) := rfl
      rw [hrun]
      exact .step (arrives_leaving f)
    | ok x =>
      change b.Carries plan _ (pure x >>= fun _ => publish .never plan.tree plan.archive b.job.output)
      rw [pure_bind]
      exact fun f => .step (carries_packing b plan f)
  | step act next ih =>
    rw [Stepwise.run, bind_assoc]
    exact carries_after rfl fun x => ih x

/-- What a build does in its scratch directory. -/
def inScratch (b : Build) (plan : Plan) (scratch : Scratch) :
    Action PackageError (List String) := do
  let tree := scratch.path.child "fmu"
  layOut .never tree plan.skeleton plan.rendered
  addLibrary .never b.toolchain.run tree (scratch.path.child "build") plan.destination.name
    b.job.platform
  if !b.job.keepSources then dropSources .never tree
  publish .never tree (scratch.path.child (plan.destination.name ++ ".zip")) b.job.output

theorem inScratch_eq (b : Build) (plan : Plan) :
    b.inScratch plan ⟨plan.scratch⟩ =
      ((b.work plan).run >>= fun _ => publish .never plan.tree plan.archive b.job.output) := by
  rw [work, Stepwise.run_work]
  simp only [inScratch, bind_assoc]
  refine bind_congr fun _ => bind_congr fun _ => ?_
  cases b.job.keepSources with
  | false =>
    simp only [Bool.not_false, if_true]
    rfl
  | true =>
    simp only [Bool.not_true, Bool.false_eq_true, if_false, pure_bind]
    rfl

def enter (b : Build) (plan : Plan) : Action PackageError (List String) :=
  Scratch.use (Scratch.create plan.destination.directory plan.destination.name)
    (b.inScratch plan)

theorem arrives_entering (b : Build) (plan : Plan) (f : Files) :
    b.Arrives (.entering plan) f ((b.enter plan f).1.map (b.report plan)) (b.enter plan f).2 := by
  refine .step ?_
  rw [enter, Scratch.use, Action.bind_apply, step, Stage.after]
  rcases hcreate : Scratch.create plan.destination.directory plan.destination.name f with ⟨e | s, g⟩
  · exact .ended
  · have hs : s = ⟨plan.scratch⟩ := by
      simp only [Scratch.create, Scratch.createUnder, Action.bind_apply] at hcreate
      split at hcreate
      · cases hcreate
        rfl
      · cases hcreate
    have hcarries : b.Carries plan (.working plan (b.work plan)) _ := carries_working _
    specialize hcarries g
    rw [← inScratch_eq, ← hs] at hcarries
    exact hcarries

theorem look_prepare (b : Build) (destination : Destination) :
    Action.look (b.prepare destination) = do
      let skeleton ← Action.look (Skeleton.open? · b.job.runtimeDirectory)
      let rendered ← Action.look fun _ =>
        render b.model destination.name b.job.stepSize b.occasion
      return ⟨destination, skeleton, rendered⟩ := by
  funext f
  simp only [Action.bind_apply, Action.look, prepare]
  cases Skeleton.open? f b.job.runtimeDirectory with
  | error e => rfl
  | ok skeleton =>
    simp only [bind, Except.bind]
    cases render b.model destination.name b.job.stepSize b.occasion <;> rfl

theorem build_eq (b : Build) :
    Package.build b.model b.job b.toolchain.run b.occasion = do
      let destination ← Action.look (Destination.check · b.job.output)
      let plan ← Action.look (b.prepare destination)
      let entries ← b.enter plan
      return b.report plan entries := by
  simp only [look_prepare, bind_assoc, pure_bind, enter, ← enter_never b.job.output]
  rfl

/-- A build that is always its turn comes to what it comes to without a break. -/
theorem arrives_build (b : Build) (f : Files) :
    b.Arrives .checking f (Package.build b.model b.job b.toolchain.run b.occasion f).1
      (Package.build b.model b.job b.toolchain.run b.occasion f).2 := by
  rw [build_eq, Action.bind_apply]
  refine .step ?_
  simp only [step, Stage.after, Action.look]
  cases Destination.check f b.job.output with
  | error e => exact .ended
  | ok destination =>
    refine .step ?_
    simp only [step, Stage.after, Action.bind_apply, Action.look]
    cases b.prepare destination f with
    | error e => exact .ended
    | ok plan =>
      have henter := arrives_entering b plan f
      revert henter
      simp only
      rcases b.enter plan f with ⟨e | entries, g⟩
      · exact id
      · exact id

end Build

/-! ## Builds that take turns -/

/-- Builds that share the files: the files at one moment, and how far each build has come. -/
structure Builds (ι : Type) where
  files : Files
  stages : ι → Build.Stage

namespace Builds

variable {ι : Type} [DecidableEq ι] (builds : ι → Build)

def start (f : Files) : Builds ι := ⟨f, fun _ => .checking⟩

/-- One build takes a step. -/
def step (x : Builds ι) (k : ι) : Builds ι where
  files := ((builds k).step (x.stages k) x.files).2
  stages j := if j = k then ((builds k).step (x.stages k) x.files).1 else x.stages j

theorem stages_step_self (x : Builds ι) (k : ι) :
    (step builds x k).stages k = ((builds k).step (x.stages k) x.files).1 := if_pos rfl

theorem stages_step_of_ne (x : Builds ι) {j k : ι} (h : j ≠ k) :
    (step builds x k).stages j = x.stages j := if_neg h

/-- The builds take steps in the order of a schedule. -/
def run (x : Builds ι) (schedule : List ι) : Builds ι := schedule.foldl (step builds) x

variable {builds}

theorem run_append (x : Builds ι) (before after : List ι) :
    x.run builds (before ++ after) = (x.run builds before).run builds after :=
  List.foldl_append ..

theorem run_concat (x : Builds ι) (schedule : List ι) (k : ι) :
    x.run builds (schedule ++ [k]) = (x.run builds schedule).step builds k :=
  List.foldl_concat ..

/-- A build that is always its turn from some moment on comes to its end, and the others stay where
they are. -/
theorem exists_run_of_arrives {x : Builds ι} {k : ι} {r : Except PackageError Report} {g : Files}
    (h : (builds k).Arrives (x.stages k) x.files r g) :
    ∃ n, (x.run builds (List.replicate n k)).files = g ∧
      (x.run builds (List.replicate n k)).stages k = .ended r ∧
      ∀ j, j ≠ k → (x.run builds (List.replicate n k)).stages j = x.stages j := by
  generalize hstage : x.stages k = stage at h
  generalize hfiles : x.files = f at h
  induction h generalizing x with
  | ended => exact ⟨0, hfiles, hstage, fun _ _ => rfl⟩
  | step _ ih =>
    subst hstage hfiles
    obtain ⟨n, hn, hended, hothers⟩ := ih (x := x.step builds k) (stages_step_self builds x k) rfl
    refine ⟨n + 1, hn, hended, fun j hjk => ?_⟩
    rw [← stages_step_of_ne builds x hjk]
    exact hothers j hjk

end Builds
end LtiUnit
