import LtiUnit.Model.Description
import LtiUnit.Proofs.Landing

/-!
# LtiUnit.Proofs.BuildOutcome

What a build comes to on a system on which anything may go wrong with the files. If it fails, all
files are as they were, and if it succeeds, the archive of its unit is at its place and nothing else
has changed (`build_leavesOnly`).

What is packed takes less of the toolchain: that it writes below the directory it is asked to work
in, and that the file it comes back with is none that is to be packed itself (`build_packsUnit`).
-/

namespace LtiUnit

open LtiUnit.Files LtiUnit.Path LtiUnit.Action
open Model (StateSpace)

/-- A lag of first order. -/
def Model.Description.lag : Description Float := .transferFunction ⟨[1], [2, 1], none, none⟩

theorem Model.Description.exists_realize_lag : ∃ m, lag.realize = .ok m := by
  have hok : lag.realize.isOk = true := by decide +kernel
  cases h : lag.realize with
  | error e =>
    rw [h] at hok
    cases hok
  | ok m => exact ⟨m, rfl⟩

/-- A toolchain that takes the source for the library. -/
def Toolchain.astray : Toolchain where
  name := "astray"
  compile r := return r.sources.child Source.fileName

theorem Toolchain.astray_agree (r : Toolchain.Request) (f : Files) :
    AgreeOutside (fun l => isBelow l (r.build.locationFrom f.here) = true) f
      (astray.compile r f).2 := .refl f

/-- A full device: directories can be created on it, and files stay empty. -/
def Faults.full : Faults where
  reading _ _ := none
  changing
    | .write p _, f =>
      match h : f.write p (.data .empty) with
      | .ok g => some ⟨(.noSpace, g), .written h⟩
      | .error _ => none
    | _, _ => none

theorem perform_full {f g : Files} {p : Path} (h : f.write p (.data .empty) = .ok g)
    (content : Content) : perform .full (.write p content) f = (.error .noSpace, g) := by
  have hfault : Faults.full.changing (.write p content) f =
      some ⟨(.noSpace, g), .written h⟩ := by
    simp only [Faults.full]
    split
    · rename_i g' h'
      cases h.symm.trans h'
      rfl
    · rename_i h'
      cases h.symm.trans h'
  simp only [perform, hfault]

namespace Package

variable {f g prepared compiled : Files} {s : Location} {m : StateSpace Float} {job : Job}
  {t : Toolchain} {occasion : Occasion} {r : Toolchain.Request} {library : Path}

/-! ## Requests -/

/-- What a build asks for, it asks in its scratch directory, when the rest of the unit is there. -/
theorem prepared_of_asks (h : Asks m job occasion f r prepared) :
    ∃ scratch name s, isName name = true ∧ r = requestFor scratch name job.platform ∧
      ScratchAt f scratch s ∧ Site.Prepared f s prepared ∧
      ∃ content, prepared.held ([Source.fileName, "sources"] ++ treeAt s) = some content := by
  obtain ⟨destination, skeleton, rendered, scratch, -, hopen, -, hprepare, rfl⟩ := h
  obtain ⟨_, created, hcreate, hrest⟩ := bind_eq_ok_iff.1 hprepare
  obtain ⟨_, _, -, hrest⟩ := bind_eq_ok_iff.1 hrest
  obtain ⟨_, _, -, hpure⟩ := bind_eq_ok_iff.1 hrest
  obtain ⟨rfl, -⟩ := pure_eq_ok hpure
  obtain ⟨hscratch, _, hprepare', hsite⟩ := exists_prepared hopen rendered rfl hcreate
  cases hprepare.symm.trans hprepare'
  obtain ⟨-, -, v, hholding, hv⟩ := holding_prepare hopen rfl hprepare
  refine ⟨_, destination.name, _, destination.isName, rfl, hscratch, hsite,
    .ofText rendered.source, ?_⟩
  rw [hholding.holds.held]
  exact (hv _ _).2 .source

theorem spares_of_asks (h : Asks m job occasion f r prepared)
    (ht : t.Produces job.keepSources r prepared) : t.Spares r prepared := by
  obtain ⟨_, _, _, -, rfl, -⟩ := prepared_of_asks h
  exact spares_of_produces ht

theorem produces_of_asks (h : Asks m job occasion f r prepared) (ht : t.Confined) :
    t.Produces job.keepSources r prepared := by
  obtain ⟨_, _, _, hname, rfl, -⟩ := prepared_of_asks h
  exact produces_of_confined ht hname _ _

/-! ## Builds that succeed -/

/-- Once a file of the scratch directory has come back, a build succeeds if the path of its archive
ends in a name. -/
theorem build_of_asks (hasks : Asks m job occasion f r prepared) (hid : Nameable job.platform.id)
    (hends : job.output.EndsInName) (hcompile : t.compile r prepared = (.ok library, compiled))
    (hfile : compiled.isFile library = true)
    (hcompiled : ∀ s, r.build.locationFrom f.here = "build" :: s → Site.Compiled f s compiled ∧
      ∃ way, library.locationFrom compiled.here = way ++ s) :
    ∃ report g, build m job t occasion f = (.ok report, g) := by
  obtain ⟨destination, skeleton, rendered, scratch, hcheck, hopen, hrender, hprepare, rfl⟩ := hasks
  obtain ⟨hsite, hlibrary⟩ := hcompiled _ (build_requestFor rfl)
  have hpath := (holding_prepare hopen rfl hprepare).1
  rw [hpath] at hsite hlibrary
  obtain ⟨report, g, _, _, hbuild, -⟩ := build_of_compiled hid hcheck hopen hrender rfl hprepare
    hcompile hsite hfile hlibrary hends
  exact ⟨report, g, hbuild⟩

theorem build_of_confined (hasks : Asks m job occasion f r prepared) (ht : t.Confined)
    (hid : Nameable job.platform.id) (hends : job.output.EndsInName)
    (hcompile : t.compile r prepared = (.ok library, compiled))
    (hfile : compiled.isFile library = true) :
    ∃ report g, build m job t occasion f = (.ok report, g) := by
  refine build_of_asks hasks hid hends hcompile hfile fun s hs => ?_
  obtain ⟨scratch, name, s', hname, rfl, hscratch, hprepared, -⟩ := prepared_of_asks hasks
  have hbuild : (requestFor scratch name job.platform).build.locationFrom f.here = "build" :: s' :=
    build_requestFor hscratch.location
  obtain rfl := (List.cons.inj (hbuild.symm.trans hs)).2
  exact hprepared.compile ht hname hbuild hcompile

/-- A build succeeds as well if its toolchain takes the source for the library. -/
theorem build_of_astray (hasks : Asks m job occasion f r prepared) (hid : Nameable job.platform.id)
    (hends : job.output.EndsInName) :
    ∃ report g, build m job .astray occasion f = (.ok report, g) := by
  obtain ⟨scratch, name, s, -, rfl, hscratch, hprepared, content, hheld⟩ := prepared_of_asks hasks
  have hunit : Nameable Source.fileName :=
    nameable_of_length (by decide) (by decide) (by decide)
  have hsources : DescendsBy scratch ["sources", "fmu"] (sourcesIn (scratch.child "fmu")) :=
    .child (.child .self nameable_tree) nameable_sources
  obtain ⟨hd, hlocation⟩ := hprepared.room hscratch hsources (by simp)
  obtain ⟨executable, hthere⟩ := held_eq_some_iff.1 hheld
  have hfile := isFile_child hd hunit (by rw [hlocation]; exact hthere)
  refine build_of_asks hasks hid hends rfl hfile fun s' hs => ?_
  rw [build_requestFor hscratch.location] at hs
  obtain rfl := (List.cons.inj hs).2
  refine ⟨hprepared.compiled, [Source.fileName, "sources", "fmu"], ?_⟩
  rw [locationFrom_child hunit.proper, requestFor, hlocation]
  rfl

/-- On a full device a unit is not laid out: the first of its texts cannot be written. -/
theorem layOut_full {scratch : Path} {s : Location} {created : Files}
    (hsite : Site f s [[]] (fun _ => False) created) (hscratch : ScratchAt f scratch s)
    (skeleton : Skeleton) (rendered : Rendered) :
    ∃ g, layOut .full (scratch.child "fmu") skeleton rendered created =
      (.error (.files .writing ((sourcesIn (scratch.child "fmu")).child Source.fileName) .noSpace),
        g) := by
  have hunit : Nameable Source.fileName :=
    nameable_of_length (by decide) (by decide) (by decide)
  have hsources : DescendsBy scratch ["sources", "fmu"] (sourcesIn (scratch.child "fmu")) :=
    .child (.child .self nameable_tree) nameable_sources
  obtain ⟨ready, hready, hadds⟩ := hsite.createDirectories hscratch .self (by simp)
    nameable_tree nameable_sources id
  have hrooms := hsite.addsDirectories hadds
  obtain ⟨hd, hlocation⟩ := hrooms.room hscratch hsources (by simp)
  have hfree : ready.get? (Source.fileName :: (sourcesIn (scratch.child "fmu")).locationFrom
      ready.here) ≠ some .directory := by
    rw [hlocation, ← List.cons_append, hrooms.untouched _ (List.cons_ne_nil _ _) (by simp)]
    simp
  obtain ⟨g, hwrite⟩ := write_child hd hunit hfree (.data .empty)
  have hcreated : createDirectory .full (sourcesIn (scratch.child "fmu")) created =
      (.ok (), ready) := hready
  have hwritten : writeText .full ((sourcesIn (scratch.child "fmu")).child Source.fileName)
      rendered.source ready = (.error (.files .writing ((sourcesIn (scratch.child "fmu")).child
        Source.fileName) .noSpace), g) := by
    rw [writeText, wrap, perform_full hwrite]
  exact ⟨g, by rw [layOut, bind_of_ok hcreated, bind_of_error hwritten]⟩

/-- Whether a unit `q.fmu` with the skeleton in `runtime` can be built on a system. -/
structure Equipped (f : Files) : Prop where
  here : f.here = []
  runtime : f.isDirectory (ofText "runtime") = true
  required : ∀ name ∈ Skeleton.required, f.isFile ((ofText "runtime").child name) = true
  free : f.get? ["q.fmu"] ≠ some .directory
  new : f.get? [".q.fmu-build"] = none

theorem equipped_furnished : Equipped furnished :=
  ⟨rfl, isDirectory_runtime, isFile_runtime, by decide, by decide⟩

/-- The job to build that unit with its sources. -/
def Job.whole (step : Float) : Job :=
  ⟨ofText "q.fmu", ofText "runtime", step, true, ⟨.linux, 64⟩⟩

theorem endsInName_whole : (ofText "q.fmu").EndsInName :=
  ⟨[], "q.fmu", by decide, isFileName_of_length (by decide) (by decide)⟩

theorem nameable_linux64 : Nameable (Platform.id ⟨.linux, 64⟩) :=
  nameable_of_length (by decide) (by decide) (by decide)

namespace Equipped

variable {step : Float}

/-- The destination of the unit is accepted. -/
theorem check (hf : Equipped f) :
    Destination.check f (ofText "q.fmu") = .ok ⟨ofText ".", "q", by decide⟩ := by
  have hlocation : (ofText "q.fmu").locationFrom [] = ["q.fmu"] := by decide
  refine check_here (by rw [hf.here]; rfl) (by decide) (by decide) (by decide) ?_
  rw [hf.here, hlocation]
  exact hf.free

theorem exists_created (hf : Equipped f) :
    ∃ scratch created, Scratch.create (ofText ".") "q" f = (.ok scratch, created) := by
  have hname : Nameable ("." ++ "q" ++ ".fmu-build") :=
    nameable_of_length (by decide) (by decide) (by decide)
  have hlocation : (ofText ".").locationFrom [] = [] := by decide
  refine Package.exists_created (isDirectory_dot (by rw [hf.here]; rfl)) hname ?_
  rw [hf.here, hlocation]
  exact hf.new

/-- A build of the unit calls its toolchain. -/
theorem exists_asks (hf : Equipped f) (m : StateSpace Float)
    (hstep : Render.validStepSize step = true) (occasion : Occasion) :
    ∃ r prepared, Asks m (Job.whole step) occasion f r prepared ∧
      r.platform.libraryName r.identifier = "q.so" ∧ prepared.isDirectory r.build = true ∧
      prepared.get? ("q.so" :: r.build.locationFrom prepared.here) = none := by
  obtain ⟨skeleton, hopen⟩ := exists_open? hf.runtime hf.required
  let destination : Destination := ⟨ofText ".", "q", by decide⟩
  obtain ⟨scratch, created, hcreate⟩ : ∃ scratch created,
      Scratch.create destination.directory destination.name f = (.ok scratch, created) :=
    hf.exists_created
  have hrender := render_of m destination.isName hstep occasion
  have hlibrary : Platform.libraryName ⟨.linux, 64⟩ "q" = "q.so" := by decide
  obtain ⟨hscratch, prepared, hprepare, hprepared⟩ := exists_prepared hopen _ rfl hcreate
  obtain ⟨hd, hempty⟩ := hprepared.build_empty hscratch
  exact ⟨_, prepared, ⟨_, _, _, scratch, hf.check, hopen, hrender, hprepare, rfl⟩, hlibrary, hd,
    hempty _⟩

/-- The unit is built with every toolchain that leaves a library where it is asked to. -/
theorem exists_build (hf : Equipped f) (m : StateSpace Float)
    (hstep : Render.validStepSize step = true) (occasion : Occasion) (ht : t.Confined)
    (hcompile : ∀ (r : Toolchain.Request) prepared, prepared.isDirectory r.build = true →
      r.platform.libraryName r.identifier = "q.so" →
      prepared.get? ("q.so" :: r.build.locationFrom prepared.here) = none →
      ∃ g, t.compile r prepared = (.ok r.library, g) ∧ g.isFile r.library = true) :
    ∃ report g, build m (Job.whole step) t occasion f = (.ok report, g) := by
  obtain ⟨r, prepared, hasks, hlibrary, hd, hempty⟩ := hf.exists_asks m hstep occasion
  obtain ⟨compiled, hcompiled, hfile⟩ := hcompile r prepared hd hlibrary hempty
  exact build_of_confined hasks ht nameable_linux64 endsInName_whole hcompiled hfile

theorem exists_build_hollow (hf : Equipped f) (m : StateSpace Float)
    (hstep : Render.validStepSize step = true) (occasion : Occasion) :
    ∃ report g, build m (Job.whole step) .hollow occasion f = (.ok report, g) := by
  have hname : Nameable "q.so" := nameable_of_length (by decide) (by decide) (by decide)
  refine hf.exists_build m hstep occasion Toolchain.hollow_confined
    fun r prepared hd hlibrary hnew => ?_
  rw [← hlibrary] at hname hnew
  exact Toolchain.compile_hollow hd hname hnew

/-- On a full device a build fails in its scratch directory, with the first file that it writes. -/
theorem build_full (hf : Equipped f) (t : Toolchain) (m : StateSpace Float)
    (hstep : Render.validStepSize step = true) (occasion : Occasion) :
    ∃ g, buildUnder .full m (Job.whole step) t occasion f =
      (.error (.files .writing ((sourcesIn ((Scratch.pathFor (ofText ".") "q").child "fmu")).child
        Source.fileName) .noSpace), g) := by
  have hname : isName "q" = true := by decide
  obtain ⟨skeleton, hopen⟩ := exists_open? hf.runtime hf.required
  obtain ⟨scratch, created, hcreate⟩ := hf.exists_created
  have hrender := render_of m hname hstep occasion
  obtain ⟨hsite, hscratch, -⟩ := site_create hname rfl hcreate
  have hcheck : Destination.check f (Job.whole step).output = .ok ⟨ofText ".", "q", hname⟩ :=
    hf.check
  have hskeleton : Skeleton.openUnder .full (Job.whole step).runtimeDirectory f =
      (.ok skeleton, f) := look_of_ok (q := (Skeleton.open? · (ofText "runtime"))) hopen
  have henter : enter .full (Job.whole step).output ⟨ofText ".", "q", hname⟩ f =
      (.ok scratch, created) := wrap_of_ok hcreate
  have hpath : scratch.path = Scratch.pathFor (ofText ".") "q" := by
    obtain ⟨_, _, -, hpure⟩ := bind_eq_ok_iff.1 hcreate
    rw [← (pure_eq_ok hpure).1]
  obtain ⟨g, hlay⟩ := layOut_full hsite hscratch skeleton
    ⟨⟨"q", hname, occasion⟩, _, _⟩
  rw [← hpath]
  refine ⟨(scratch.remove g).2, ?_⟩
  rw [buildUnder, bind_of_ok (look_of_ok hcheck), bind_of_ok hskeleton,
    bind_of_ok (look_of_ok hrender)]
  refine bind_of_error ?_
  rw [Scratch.use, bind_of_ok henter, andFinally, bind_of_error hlay]

end Equipped

/-! ## What is packed -/

theorem packsUnit_of_produces {faults : Faults} {report : Report}
    (ht : ∀ r prepared, Asks m job occasion f r prepared → t.Produces job.keepSources r prepared)
    (h : buildUnder faults m job t occasion f = (.ok report, g)) :
    ∃ files rendered library, PacksUnit m job t occasion f g report files rendered library :=
  packsUnit_of_build (fun r prepared hasks => spares_of_asks hasks (ht r prepared hasks))
    (fun r prepared hasks => (ht r prepared hasks).apart)
    (follows_buildUnder faults m job t occasion f report g h)

/-- A build that succeeds packs the files of its unit and reports what it has packed, if its
toolchain writes where it is asked to and comes back with none of these files. -/
theorem build_packsUnit (faults : Faults) (t : Toolchain) (m : StateSpace Float) (job : Job)
    (occasion : Occasion) (f : Files)
    (ht : ∀ r prepared, Asks m job occasion f r prepared →
      t.Produces job.keepSources r prepared) :
    PacksIfOk m job t occasion f (buildUnder faults m job t occasion f) := by
  rcases h : buildUnder faults m job t occasion f with ⟨e | report, g⟩
  · trivial
  · exact packsUnit_of_produces ht h

theorem build_packsUnit_furnished :
    ∃ m, Model.Description.lag.realize = .ok m ∧
      (∀ r prepared, Asks m (Job.whole 0.01) ⟨⟨0⟩, 0⟩ furnished r prepared →
        Toolchain.hollow.Produces true r prepared) ∧
      ∃ report g files rendered library,
        buildUnder .never m (Job.whole 0.01) .hollow ⟨⟨0⟩, 0⟩ furnished = (.ok report, g) ∧
        PacksUnit m (Job.whole 0.01) .hollow ⟨⟨0⟩, 0⟩ furnished g report files rendered
          library := by
  obtain ⟨m, hm⟩ := Model.Description.exists_realize_lag
  have hstep : Render.validStepSize 0.01 = true := by decide
  have hproduces : ∀ r prepared, Asks m (Job.whole 0.01) ⟨⟨0⟩, 0⟩ furnished r prepared →
      Toolchain.hollow.Produces (Job.whole 0.01).keepSources r prepared :=
    fun _ _ hasks => produces_of_asks hasks Toolchain.hollow_confined
  obtain ⟨report, g, hbuild⟩ :=
    equipped_furnished.exists_build_hollow m hstep ⟨⟨0⟩, 0⟩
  have hpacks := build_packsUnit .never .hollow m (Job.whole 0.01) ⟨⟨0⟩, 0⟩ furnished hproduces
  rw [← build, hbuild] at hpacks
  obtain ⟨files, rendered, library, hunit⟩ := hpacks
  exact ⟨m, hm, hproduces, report, g, files, rendered, library, hbuild, hunit⟩

/-- The unit is built with a toolchain that takes the source for the library, without the source. -/
theorem Equipped.exists_build_astray {step : Float} (hf : Equipped f) (m : StateSpace Float)
    (hstep : Render.validStepSize step = true) (occasion : Occasion) :
    ∃ report g, build m (Job.whole step) .astray occasion f = (.ok report, g) ∧
      "sources/fmi2model.c" ∉ report.entries := by
  obtain ⟨r, prepared, hasks, -⟩ := hf.exists_asks m hstep occasion
  obtain ⟨report, g, hbuild⟩ := build_of_astray hasks nameable_linux64 endsInName_whole
  obtain ⟨x, rfl⟩ := exists_making (fun _ _ _ => rfl) hbuild
  refine ⟨_, g, hbuild, x.not_mem_entries_of_source (fun r prepared _ => .refl prepared) ?_⟩
  intro r prepared p compiled _ hcompile
  cases hcompile
  rfl

/-- A file of the skeleton is packed under its own name, whatever this name is. -/
theorem PacksUnit.mem_entries_of_file {report : Report} {files : List (String × Content)}
    {rendered : Rendered} {left content : Content}
    (h : PacksUnit m job t occasion f g report files rendered left) (hkeep : job.keepSources = true)
    (hd : f.isDirectory job.runtimeDirectory = true) {name : String} (hname : Nameable name)
    {executable : Bool} (hthere : f.get? (name :: job.runtimeDirectory.locationFrom f.here) =
      some (.file content executable)) : "sources/include/" ++ name ∈ report.entries := by
  obtain ⟨content', hcontent⟩ := exists_content?_of_isFile (isFile_child hd hname hthere)
  rw [h.entries]
  exact List.mem_map.2 ⟨_, (h.packed _ _).2 (.header hkeep hname.proper hcontent), rfl⟩

/-- A furnished directory with a file in its skeleton that is named like a scratch directory. -/
def cluttered : Files :=
  furnished.setFile ".q.fmu-build" ["runtime"] (.data .empty) false
    (isFileName_of_length (by decide) (by decide)) rfl (by decide)

theorem get?_cluttered (l : Location) : cluttered.get? l =
    if l = [".q.fmu-build", "runtime"] then some (.file (.data .empty) false)
    else furnished.get? l :=
  get?_setFile ..

theorem equipped_cluttered : Equipped cluttered := by
  have hkeeps : Keeps furnished cluttered :=
    (agree_setFile furnished _ _ _ _ _ _ _).keeps fun l hl hdir => by
      rw [hl] at hdir
      cases hdir
  have hruntime := hkeeps.way.isDirectory isDirectory_runtime
  refine ⟨rfl, hruntime, fun name hname => ?_, by decide, by decide⟩
  refine isFile_of_keeps (isFile_runtime name hname) hkeeps ?_
  have hproper := (nameable_required name hname).proper
  have hlocation : (ofText "runtime").locationFrom furnished.here = ["runtime"] := by decide
  rw [locationFrom_child hproper, hlocation, get?_cluttered, if_neg]
  intro heq
  have hnot : ".q.fmu-build" ∉ Skeleton.required := by decide
  exact hnot ((List.cons.inj heq).1 ▸ hname)

/-- A toolchain that writes nothing and comes back with the source can succeed, and then the source
is not packed. A file of the skeleton is packed under its own name even if that is the name of a
scratch directory. -/
theorem not_packs_whole :
    (∀ (r : Toolchain.Request) f,
      AgreeOutside (fun l => isBelow l (r.build.locationFrom f.here) = true) f
        (Toolchain.astray.compile r f).2) ∧
    ∃ m, Model.Description.lag.realize = .ok m ∧ (Job.whole 0.01).keepSources = true ∧
      (∃ report g, build m (Job.whole 0.01) .astray ⟨⟨0⟩, 0⟩ furnished = (.ok report, g) ∧
        "sources/fmi2model.c" ∉ report.entries) ∧
      ∃ report g, build m (Job.whole 0.01) .hollow ⟨⟨0⟩, 0⟩ cluttered = (.ok report, g) ∧
        ".q.fmu-build" ∈ scratchNames report.identifier ∧
        "sources/include/.q.fmu-build" ∈ report.entries := by
  obtain ⟨m, hm⟩ := Model.Description.exists_realize_lag
  have hstep : Render.validStepSize 0.01 = true := by decide
  refine ⟨Toolchain.astray_agree, m, hm, rfl,
    equipped_furnished.exists_build_astray m hstep ⟨⟨0⟩, 0⟩, ?_⟩
  obtain ⟨report, g, hbuild⟩ := equipped_cluttered.exists_build_hollow m hstep ⟨⟨0⟩, 0⟩
  have hunder : buildUnder .never m (Job.whole 0.01) .hollow ⟨⟨0⟩, 0⟩ cluttered =
      (.ok report, g) := hbuild
  obtain ⟨files, rendered, library, hunit⟩ := packsUnit_of_produces
    (fun _ _ hasks => produces_of_asks hasks Toolchain.hollow_confined) hunder
  have hid : report.identifier = "q" := by
    have hstem : (ofText "q.fmu").stem? = some "q" := by decide
    exact (Option.some.inj (hstem.symm.trans hunit.identifier)).symm
  have hname : Nameable ".q.fmu-build" := nameable_of_length (by decide) (by decide) (by decide)
  have hlocation : (ofText "runtime").locationFrom cluttered.here = ["runtime"] := by decide
  have hmem := hunit.mem_entries_of_file rfl equipped_cluttered.runtime hname (by
    rw [Job.whole, hlocation, get?_cluttered, if_pos rfl])
  refine ⟨report, g, hbuild, ?_, hmem⟩
  rw [hid]
  decide

/-! ## What is left behind -/

/-- What a build is to leave behind: the files as they were if it fails, and otherwise the archive
of its unit at its place and nothing else. -/
def LeavesOnly (m : StateSpace Float) (job : Job) (t : Toolchain) (occasion : Occasion) (f : Files) :
    Except PackageError Report × Files → Prop
  | (.error _, g) => AgreeOutside (fun _ => False) f g
  | (.ok report, g) =>
    (∃ files rendered library, PacksUnit m job t occasion f g report files rendered library) ∧
      AgreeOutside (· = job.output.locationFrom f.here) f g

/-- A build that fails leaves the files as they were, and one that succeeds leaves its archive and
nothing else, whatever goes wrong and whatever the files, the model and the job are. -/
theorem build_leavesOnly (faults : Faults) {t : Toolchain} (ht : t.Confined) (m : StateSpace Float)
    (job : Job) (occasion : Occasion) (f : Files) :
    LeavesOnly m job t occasion f (buildUnder faults m job t occasion f) := by
  have hleft := triple_build faults ht m job occasion f
  rcases h : buildUnder faults m job t occasion f with ⟨e | report, g⟩
  · exact hleft.of_error rfl h
  · obtain ⟨l, files, executable, hfind, -, hagree⟩ := hleft.of_ok rfl h
    obtain ⟨rfl, -⟩ := location_of_find? hfind
    rw [hagree.here] at hagree
    exact ⟨packsUnit_of_produces (fun _ _ hasks => produces_of_asks hasks ht) h, hagree⟩

/-- A build that fails on a full device once it has its scratch directory, and one that succeeds. -/
theorem build_leavesOnly_hollow :
    ∃ m, Model.Description.lag.realize = .ok m ∧ Toolchain.hollow.Confined ∧
      (∃ g, buildUnder .full m (Job.whole 0.01) .hollow ⟨⟨0⟩, 0⟩ furnished =
          (.error (.files .writing ((sourcesIn ((Scratch.pathFor (ofText ".") "q").child
            "fmu")).child Source.fileName) .noSpace), g) ∧
        AgreeOutside (fun _ => False) furnished g) ∧
      ∃ report g files rendered library,
        buildUnder .never m (Job.whole 0.01) .hollow ⟨⟨0⟩, 0⟩ furnished = (.ok report, g) ∧
        PacksUnit m (Job.whole 0.01) .hollow ⟨⟨0⟩, 0⟩ furnished g report files rendered library ∧
        AgreeOutside (· = ["q.fmu"]) furnished g := by
  obtain ⟨m, hm⟩ := Model.Description.exists_realize_lag
  have hstep : Render.validStepSize 0.01 = true := by decide
  obtain ⟨g, hfull⟩ :=
    equipped_furnished.build_full .hollow m hstep ⟨⟨0⟩, 0⟩
  obtain ⟨report, g', hbuild⟩ :=
    equipped_furnished.exists_build_hollow m hstep ⟨⟨0⟩, 0⟩
  have hfailed := build_leavesOnly .full Toolchain.hollow_confined m (Job.whole 0.01) ⟨⟨0⟩, 0⟩
    furnished
  have hsucceeded := build_leavesOnly .never Toolchain.hollow_confined m (Job.whole 0.01) ⟨⟨0⟩, 0⟩
    furnished
  rw [hfull] at hfailed
  rw [← build, hbuild] at hsucceeded
  obtain ⟨⟨files, rendered, library, hunit⟩, hagree⟩ := hsucceeded
  have hlocation : (ofText "q.fmu").locationFrom furnished.here = ["q.fmu"] := by decide
  rw [Job.whole, hlocation] at hagree
  exact ⟨m, hm, Toolchain.hollow_confined, ⟨g, hfull, hfailed⟩, report, g', files, rendered,
    library, hbuild, hunit, hagree⟩

end Package
end LtiUnit
