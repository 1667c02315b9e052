import LtiUnit.Proofs.Assembly

/-!
# LtiUnit.Proofs.Landing

Whether the archive of a build can be moved to its place once it is complete. The check of a
destination reads the parts of a path, to which slashes and dots at the end do not belong, while the
move takes the path as it is written. So the two agree for the paths whose last segment is a name,
and for no others (`build_lands`). For these, a build fails in its toolchain only once it has its
scratch directory (`build_of_compiled`).
-/

namespace LtiUnit

open LtiUnit.Files LtiUnit.Path LtiUnit.Action

variable {f f₀ g : Files} {p : Path} {name : String}

namespace Package.Destination

theorem check_of_isDirectory (hext : p.extension? = some ending) (hstem : p.stem? = some name)
    (hname : LtiUnit.isName name = true) (hdir : f.isDirectory (directoryOf p) = true)
    (hfree : f.isDirectory p = false) : check f p = .ok ⟨directoryOf p, name, hname⟩ := by
  simp [check, hext, hstem, hname, hdir, hfree]

theorem not_isDirectory_of_check {d : Destination} (h : check f p = .ok d) :
    f.isDirectory p = false := by
  unfold check at h
  simp only at h
  split at h
  · cases h
  · split at h
    · cases h
    · split at h
      · split at h
        · cases h
        · split at h
          · cases h
          · rename_i hnot
            simpa using hnot
      · cases h

/-- A path that ends in its file name leads to that name in its directory. -/
theorem follow_of_endsInName (hfile : p.fileName? = some name)
    (hdir : f.isDirectory (directoryOf p) = true) (hname : Nameable name) (hends : p.EndsInName) :
    f.follow p =
      .ok (.within name ((directoryOf p).locationFrom f.here) false hname.proper) := by
  obtain ⟨-, hsteps, habs⟩ := directoryOf_spec hfile
  have hfind := isDirectory_iff.1 hdir
  obtain ⟨d0, hstart, hwalk⟩ := walk_of_find? hfind
  have hempty := isEmpty_of_endsInName hends
  have hslash := endsInSlash_of_endsInName hends
  obtain ⟨before, last, hseg, hlast⟩ := hends
  have hsame : (before.filter fun s => !isIdle s) = (directoryOf p).steps ∧ last = name := by
    rw [steps, hseg, List.filter_append,
      List.filter_cons_of_pos (by simp [isIdle_of_isFileName hlast])] at hsteps
    obtain ⟨hbefore, hlast⟩ := List.append_inj' hsteps rfl
    exact ⟨hbefore, (List.cons.inj hlast).1⟩
  obtain ⟨hbefore, rfl⟩ := hsame
  -- whatever counts of the path stands in its directory as well
  have hzero : '\x00' ∉ p.text.toList := by
    rw [mem_text_iff (by decide), hseg]
    rintro ⟨s, hs, hc⟩
    rcases List.mem_append.1 hs with hs | hs
    · by_cases hidle : isIdle s = true
      · simp only [isIdle, Bool.or_eq_true, beq_iff_eq] at hidle
        rcases hidle with rfl | rfl
        · exact absurd hc (by decide)
        · exact absurd hc (by decide)
      · have hmem : s ∈ (directoryOf p).steps :=
          hbefore ▸ List.mem_filter.2 ⟨hs, by simpa using hidle⟩
        exact (followable_of_find? hfind).2
          ((mem_text_iff (by decide) _).2 ⟨s, (List.mem_filter.1 hmem).1, hc⟩)
    · rw [List.mem_singleton.1 hs] at hc
      exact hname.nonzero hc
  refine follow_eq_within_iff.2 ⟨⟨hempty, hzero⟩, hslash.symm, before, 0, d0, hseg, ?_, ?_, ?_⟩
  · rw [Files.start, ← habs]
    exact hstart
  · rw [← walk_filter, hbefore, steps, walk_filter]
    exact hwalk
  · rw [named, if_neg (Nat.not_lt.2 hname.fits)]

end Package.Destination

/-- Files are moved to names only. -/
theorem Files.endsInName_of_move {source target : Path} (h : f.move source target = .ok g) :
    target.EndsInName := by
  obtain ⟨_, _, name, d, proper, -, hfollow, -⟩ := move_eq_ok h
  obtain ⟨-, hslash, before, k, _, hseg, -⟩ := follow_eq_within_iff.1 hfollow
  cases k with
  | zero => exact ⟨before, name, hseg, proper⟩
  | succ k =>
    rw [List.replicate_succ', ← List.cons_append, ← List.append_assoc] at hseg
    have hlast : target.segments.getLast? = some "" := by rw [hseg, List.getLast?_concat]
    have hlong : 2 ≤ target.segments.length := by
      simp only [hseg, List.length_append, List.length_cons]
      omega
    simp [endsInSlash, hlast, hlong] at hslash

namespace Package

open Model (StateSpace)

variable {s : Location} {m : StateSpace Float} {job : Job} {t : Toolchain} {occasion : Occasion}
  {destination : Destination} {skeleton : Skeleton} {rendered : Rendered} {scratch : Scratch}
  {created assembled : Files} {entries : List String}

/-! ## A build as an assembly and a move -/

theorem bind_assemble (t : Toolchain) (job : Job) (name : String) (skeleton : Skeleton)
    (rendered : Rendered) (scratch : Path) :
    (do
      layOut .never (scratch.child "fmu") skeleton rendered
      addLibrary .never t (scratch.child "fmu") (scratch.child "build") name job.platform
      if !job.keepSources then dropSources .never (scratch.child "fmu")
      publish .never (scratch.child "fmu") (scratch.child (name ++ ".zip")) job.output) =
    (do
      let entries ← assemble t job name skeleton rendered scratch
      Action.wrap (PackageError.files .movingArchive job.output)
        (Action.change (·.move (scratch.child (name ++ ".zip")) job.output))
      return entries) := by
  simp only [assemble, publish, bind_assoc]
  cases job.keepSources with
  | true => rfl
  | false =>
    simp only [Bool.not_false, if_true, bind_assoc]
    rfl

theorem use_of_work {α : Type} {directory : Path} {work : Scratch → Action PackageError α}
    {r : Except PackageError α} (hcreate : Scratch.create directory name f = (.ok scratch, created))
    (hwork : work scratch created = (r, g)) :
    Scratch.use (Scratch.create directory name) work f = (r, (scratch.remove g).2) := by
  rw [Scratch.use, bind_of_ok hcreate]
  simp only [andFinally, hwork]

/-- A build that has come as far as its archive fails only if the archive cannot be moved. -/
theorem exists_build_eq {r : Except PackageError Unit}
    (hcheck : Destination.check f job.output = .ok destination)
    (hopen : Skeleton.open? f job.runtimeDirectory = .ok skeleton)
    (hrender : render m destination.name job.stepSize occasion = .ok rendered)
    (hcreate : Scratch.create destination.directory destination.name f = (.ok scratch, created))
    (hassemble : assemble t job destination.name skeleton rendered scratch.path created =
      (.ok entries, assembled))
    (hmoved : Action.wrap (PackageError.files .movingArchive job.output)
      (Action.change (·.move (scratch.path.child (destination.name ++ ".zip")) job.output))
        assembled = (r, g)) :
    ∃ report : Report, report.entries = entries ∧
      build m job t occasion f = (r.map fun _ => report, (scratch.remove g).2) := by
  have hmove : (do
      Action.wrap (PackageError.files .movingArchive job.output)
        (Action.change (·.move (scratch.path.child (destination.name ++ ".zip")) job.output))
      return entries) assembled = (r.map fun _ => entries, g) := by
    rw [bind_apply, hmoved]
    cases r <;> rfl
  have hwork := (congrFun (bind_assemble t job destination.name skeleton rendered scratch.path)
    created).trans ((bind_of_ok hassemble).trans hmove)
  refine ⟨{
    identifier := destination.name, guid := rendered.identity.occasion.guid,
    platform := job.platform, nx := m.nx, nu := m.nu, ny := m.ny, nr := m.layout.registerCount,
    stepSize := job.stepSize, toolchain := t.name, archive := job.output, entries := entries,
    milliseconds := 0 }, rfl, ?_⟩
  rw [build, buildUnder, bind_of_ok (look_of_ok hcheck), openUnder_never,
    bind_of_ok (look_of_ok hopen), bind_of_ok (look_of_ok hrender), bind_apply, enter_never]
  cases r with
  | error e => rw [use_of_work hcreate hwork]; rfl
  | ok u => rw [use_of_work hcreate hwork]; rfl

/-! ## The archive in its place -/

theorem leadsInside_archive {scratch : Path} (h : ScratchAt f₀ scratch s)
    (hname : isName name = true) :
    LeadsInside f₀ s (scratch.child (name ++ ".zip")) := by
  have hzip : isFileName ("" ++ name ++ ".zip") = true :=
    isFileName_around hname "" (by decide) (by decide)
  rw [String.empty_append] at hzip
  exact Descends.self.leadsInside h hzip

/-- The work up to the archive keeps to the scratch directory, and leaves the archive there. -/
theorem triple_assemble {scratch : Path} (h : ScratchAt f₀ scratch s) (ht : t.Confined)
    (hnames : ∀ name ∈ skeleton.names, isFileName name = true) (hname : isName name = true)
    (job : Job) (rendered : Rendered) :
    Triple (Working f₀ s) (assemble t job name skeleton rendered scratch)
      (fun entries g => Working f₀ s g ∧ ∃ files, entries = files.map Prod.fst ∧
        Archived ((scratch.child (name ++ ".zip")).locationFrom f₀.here) files g)
      (Working f₀ s) := by
  have htree : Descends scratch (scratch.child "fmu") := .child .self nameable_tree.proper
  have hpack := triple_pack .never (leadsInside_archive h hname) (scratch.child "fmu")
  refine triple_bind (stays_iff_triple.1 (stays_layOut .never h htree hnames rendered)) fun _ => ?_
  refine triple_bind (stays_iff_triple.1 (stays_addLibrary .never h htree
    (.child .self nameable_build.proper) (Descends.self.leadsInside h nameable_build.proper) ht
    hname job.platform)) fun _ => ?_
  dsimp only
  split
  · exact triple_bind (stays_iff_triple.1 (stays_dropSources .never h htree)) fun _ => hpack
  · exact hpack

/-- Nothing is in the way of an archive whose path ends in a name. -/
theorem exists_move (hcheck : Destination.check f₀ p = .ok destination)
    {scratch : Path} (h : ScratchAt f₀ scratch s)
    (hname : Nameable ("." ++ destination.name ++ ".fmu-build")) (hf : Working f₀ s f)
    (houtside : ¬isBelow (p.locationFrom f₀.here) s = true)
    {files : List (String × Content)}
    (harchive : Archived ((scratch.child (destination.name ++ ".zip")).locationFrom f₀.here) files
      f) (hends : p.EndsInName) :
    ∃ g, f.move (scratch.child (destination.name ++ ".zip")) p = .ok g := by
  obtain ⟨hfile, hdirectory, hthere⟩ := Destination.check_eq_ok hcheck
  have hzip : Nameable (destination.name ++ ".zip") :=
    nameable_after destination.isName hname (by decide) (by decide) (by decide)
  have hwhole : Nameable (destination.name ++ "." ++ Destination.ending) := by
    rw [String.append_assoc]
    exact nameable_after destination.isName hname (by decide) (by decide) (by decide)
  have hsource : f.isFile (scratch.child (destination.name ++ ".zip")) = true := by
    have hfollow := follow_nameable (h.isDirectory hf) hzip
    obtain ⟨_, harchive⟩ := harchive
    rw [← hf.agree.here, locationFrom_child hzip.proper] at harchive
    rw [isFile, find?_of_file hfollow harchive]
  have hfollow :=
    Destination.follow_of_endsInName hfile (hdirectory ▸ hthere) hwhole hends
  have hlocation := location_of_follow hfollow
  rw [Spot.location] at hlocation
  refine move_within hsource ((hf.keeps h.new).follow hfollow) ?_
  rw [hlocation, hf.agree.get? _ houtside, ← hlocation]
  intro hd
  have hnot := Destination.not_isDirectory_of_check hcheck
  rw [isDirectory, find?_of_directory hfollow hd] at hnot
  cases hnot

section

variable (hcheck : Destination.check f job.output = .ok destination)
  (hopen : Skeleton.open? f job.runtimeDirectory = .ok skeleton)
  (hrender : render m destination.name job.stepSize occasion = .ok rendered)
  (hcreate : Scratch.create destination.directory destination.name f = (.ok scratch, created))
  (hassemble : assemble t job destination.name skeleton rendered scratch.path created =
    (.ok entries, assembled))

include hcheck hopen hrender hcreate hassemble

theorem build_of_archived
    (hs : (Scratch.pathFor destination.directory destination.name).locationFrom f.here = s)
    (hworking : Working f s assembled) {files : List (String × Content)}
    (harchive : Archived ((scratch.path.child (destination.name ++ ".zip")).locationFrom f.here)
      files assembled) (hends : job.output.EndsInName) :
    ∃ report g executable, build m job t occasion f = (.ok report, g) ∧
      report.entries = entries ∧ g.find? job.output =
        .ok (job.output.locationFrom f.here, .file (.archive files) executable) := by
  obtain ⟨hfile, hdirectory, hthere⟩ := Destination.check_eq_ok hcheck
  have houtside := not_isBelow_scratch hcheck f.here
  rw [hs] at houtside
  obtain ⟨-, hscratch, hname⟩ := site_create destination.isName hs hcreate
  obtain ⟨g, hmove⟩ := exists_move hcheck hscratch hname hworking houtside harchive hends
  obtain ⟨report, hreport, hbuild⟩ := exists_build_eq hcheck hopen hrender hcreate hassemble
    (wrap_of_ok (change_of_ok hmove))
  have hpublished := published_of_move (leadsInside_archive hscratch destination.isName) houtside
    hworking harchive hmove
  obtain ⟨executable, hfind⟩ :=
    hpublished.find?_output hscratch.new houtside hfile (hdirectory ▸ hthere)
  have hremove : (scratch.remove g).2 = g.removeBelow s := by
    simp only [Scratch.remove, Action.change,
      hscratch.removeDirectory (hpublished.keeps hscratch.new) hpublished.there]
  rw [hremove] at hbuild
  exact ⟨report, _, executable, hbuild, hreport, hfind⟩

theorem build_of_endsInName (ht : t.Confined) (hends : job.output.EndsInName) :
    ∃ report g files executable, build m job t occasion f = (.ok report, g) ∧
      report.entries = entries ∧ entries = files.map Prod.fst ∧
        g.find? job.output =
          .ok (job.output.locationFrom f.here, .file (.archive files) executable) := by
  obtain ⟨hsite, hscratch, -⟩ := site_create destination.isName rfl hcreate
  obtain ⟨hworking, files, hentries, harchive⟩ := (triple_assemble hscratch ht
    (isFileName_of_open? hopen) destination.isName job rendered).of_ok hsite.working hassemble
  obtain ⟨report, g, executable, hbuild, hreport, hfind⟩ :=
    build_of_archived hcheck hopen hrender hcreate hassemble rfl hworking harchive hends
  exact ⟨report, g, files, executable, hbuild, hreport, hentries, hfind⟩

theorem build_of_not_endsInName (hends : ¬job.output.EndsInName) :
    ∃ cause g, build m job t occasion f =
      (.error (.files .movingArchive job.output cause), g) := by
  cases hmove : assembled.move (scratch.path.child (destination.name ++ ".zip")) job.output with
  | ok g => exact absurd (endsInName_of_move hmove) hends
  | error e =>
    have hmoved : Action.wrap (PackageError.files .movingArchive job.output)
        (Action.change (·.move (scratch.path.child (destination.name ++ ".zip")) job.output))
          assembled = (.error (.files .movingArchive job.output e), assembled) := by
      simp only [Action.wrap, Action.change, hmove]
    obtain ⟨report, -, hbuild⟩ := exists_build_eq hcheck hopen hrender hcreate hassemble hmoved
    exact ⟨e, _, hbuild⟩

end

/-- Once the toolchain has left a library in the scratch directory, a build succeeds if the path of
its archive ends in a name. -/
theorem build_of_compiled {prepared compiled : Files} {library : Path}
    (hid : Nameable job.platform.id)
    (hcheck : Destination.check f job.output = .ok destination)
    (hopen : Skeleton.open? f job.runtimeDirectory = .ok skeleton)
    (hrender : render m destination.name job.stepSize occasion = .ok rendered)
    (hs : (Scratch.pathFor destination.directory destination.name).locationFrom f.here = s)
    (hprepare : prepare destination skeleton rendered f = (.ok scratch, prepared))
    (hcompile : t.compile (requestFor scratch.path destination.name job.platform) prepared =
      (.ok library, compiled))
    (hcompiled : Site.Compiled f s compiled) (hfile : compiled.isFile library = true)
    (hlibrary : ∃ way, library.locationFrom compiled.here = way ++ s)
    (hends : job.output.EndsInName) :
    ∃ report g files executable, build m job t occasion f = (.ok report, g) ∧
      report.entries = files.map Prod.fst ∧ g.find? job.output =
        .ok (job.output.locationFrom f.here, .file (.archive files) executable) := by
  obtain ⟨_, created, hcreate, hrest⟩ := bind_eq_ok_iff.1 hprepare
  obtain ⟨_, _, -, hrest⟩ := bind_eq_ok_iff.1 hrest
  obtain ⟨_, _, -, hpure⟩ := bind_eq_ok_iff.1 hrest
  obtain ⟨rfl, rfl⟩ := pure_eq_ok hpure
  obtain ⟨files, assembled, hassemble, hworking, harchive⟩ :=
    exists_assembled hid hs hcreate hprepare hcompile hcompiled hfile hlibrary
  obtain ⟨report, g, executable, hbuild, hreport, hfind⟩ :=
    build_of_archived hcheck hopen hrender hcreate hassemble hs hworking harchive hends
  exact ⟨report, g, files, executable, hbuild, hreport, hfind⟩

/-- An accepted path names the file of the unit in a directory that is there. Once everything else
has succeeded, the build succeeds and leaves the archive there exactly if the path ends in that
name; otherwise it fails with the move of the archive. -/
theorem build_lands (ht : t.Confined)
    (hcheck : Destination.check f job.output = .ok destination)
    (hopen : Skeleton.open? f job.runtimeDirectory = .ok skeleton)
    (hrender : render m destination.name job.stepSize occasion = .ok rendered)
    (hcreate : Scratch.create destination.directory destination.name f = (.ok scratch, created))
    (hassemble : assemble t job destination.name skeleton rendered scratch.path created =
      (.ok entries, assembled)) :
    job.output.locationFrom f.here =
        (destination.name ++ ".fmu") :: destination.directory.locationFrom f.here ∧
      (job.output.EndsInName → ∃ report g files executable,
        build m job t occasion f = (.ok report, g) ∧ report.entries = entries ∧
          entries = files.map Prod.fst ∧
            g.find? job.output =
              .ok (job.output.locationFrom f.here, .file (.archive files) executable)) ∧
      (¬job.output.EndsInName → ∃ cause g,
        build m job t occasion f = (.error (.files .movingArchive job.output cause), g)) := by
  obtain ⟨hfile, hdirectory, -⟩ := Destination.check_eq_ok hcheck
  have hending : "." ++ Destination.ending = ".fmu" := by decide
  refine ⟨?_, build_of_endsInName hcheck hopen hrender hcreate hassemble ht,
    build_of_not_endsInName hcheck hopen hrender hcreate hassemble⟩
  rw [Destination.locationFrom_directoryOf hfile, hdirectory, String.append_assoc, hending]

end Package

/-! ## Two paths to one file -/

theorem Toolchain.compile_hollow {r : Toolchain.Request} (hd : f.isDirectory r.build = true)
    (hname : Nameable (r.platform.libraryName r.identifier))
    (hfree : f.get? (r.platform.libraryName r.identifier :: r.build.locationFrom f.here) = none) :
    ∃ g, hollow.compile r f = (.ok r.library, g) ∧ g.isFile r.library = true := by
  obtain ⟨g, hwrite⟩ := write_child hd hname (by rw [hfree]; simp) (.data .empty)
  have hput := write_eq_ok hwrite
  rw [locationFrom_child hname.proper] at hput
  obtain ⟨executable, hthere⟩ := hput.there
  have hkeeps : Keeps f g := hput.agree.keeps fun l hl hdir => absurd (hl ▸ hdir) hput.free
  rw [← hkeeps.here] at hthere
  exact ⟨g, bind_eq_ok_iff.2 ⟨_, _, wrap_of_ok (change_of_ok hwrite), rfl⟩,
    isFile_child (hkeeps.way.isDirectory hd) hname hthere⟩

namespace Package

/-- A job with the skeleton in `runtime`. -/
def Job.plain (output : Path) : Job := ⟨output, ofText "runtime", 0.01, false, ⟨.linux, 64⟩⟩

theorem isDirectory_runtime : furnished.isDirectory (ofText "runtime") = true := by
  have hname : Nameable "runtime" := nameable_of_length (by decide) (by decide) (by decide)
  have hfollow : furnished.follow (ofText "runtime") =
      .ok (.within "runtime" [] false hname.proper) :=
    follow_eq_within_iff.2 ⟨⟨by decide, by decide⟩, by decide, [], 0, [], by decide, rfl, rfl, rfl⟩
  exact (isDirectory_iff_of_within hfollow).2 rfl

theorem isFile_runtime :
    ∀ name ∈ Skeleton.required, furnished.isFile ((ofText "runtime").child name) = true := by
  intro name hrequired
  have hlocation : (ofText "runtime").locationFrom furnished.here = ["runtime"] := by decide
  have hthere : furnished.get? (name :: (ofText "runtime").locationFrom furnished.here) =
      some (.file (.data .empty) false) := by
    rw [hlocation]
    exact (furnished.mem_entries_iff (List.cons_ne_nil _ _)).1
      (List.mem_cons_of_mem _ (List.mem_map.2 ⟨name, hrequired, rfl⟩))
  exact isFile_child isDirectory_runtime (nameable_required name hrequired) hthere

/-- All that a plain job needs is there, and its output does not count for that. -/
theorem exists_assembled_furnished (output : Path) :
    ∃ skeleton rendered scratch created entries assembled,
      Skeleton.open? furnished (Job.plain output).runtimeDirectory = .ok skeleton ∧
      render Model.StateSpace.void "q" (Job.plain output).stepSize ⟨⟨0⟩, 0⟩ = .ok rendered ∧
      Scratch.create (ofText ".") "q" furnished = (.ok scratch, created) ∧
      assemble Toolchain.hollow (Job.plain output) "q" skeleton rendered scratch.path created =
        (.ok entries, assembled) := by
  have hscratch : Nameable ("." ++ "q" ++ ".fmu-build") :=
    nameable_of_length (by decide) (by decide) (by decide)
  have hlibrary : Nameable ((Job.plain output).platform.libraryName "q") :=
    nameable_library (by decide) hscratch
  have hid : Nameable (Platform.id ⟨.linux, 64⟩) :=
    nameable_of_length (by decide) (by decide) (by decide)
  let destination : Destination := ⟨ofText ".", "q", by decide⟩
  obtain ⟨skeleton, hopen⟩ := exists_open? isDirectory_runtime isFile_runtime
  obtain ⟨rendered, hrender⟩ :
      ∃ rendered, render Model.StateSpace.void "q" 0.01 ⟨⟨0⟩, 0⟩ = .ok rendered :=
    ⟨_, render_of _ (by decide) (by decide) _⟩
  obtain ⟨scratch, created, hcreate⟩ : ∃ scratch created,
      Scratch.create destination.directory destination.name furnished = (.ok scratch, created) :=
    exists_created (isDirectory_dot rfl) hscratch rfl
  obtain ⟨hscratchAt, prepared, hprepare, hprepared⟩ := exists_prepared hopen rendered rfl hcreate
  obtain ⟨hd, hempty⟩ := hprepared.build_empty hscratchAt
  obtain ⟨compiled, hcompile, hfile⟩ := Toolchain.compile_hollow
    (r := requestFor scratch.path "q" (Job.plain output).platform) hd hlibrary (hempty _)
  obtain ⟨hcompiled, hplace⟩ := hprepared.compile Toolchain.hollow_confined destination.isName
    (build_requestFor hscratchAt.location) hcompile
  obtain ⟨files, assembled, hassemble, -⟩ :=
    exists_assembled hid rfl hcreate hprepare hcompile hcompiled hfile hplace
  exact ⟨skeleton, rendered, scratch, created, files.map Prod.fst, assembled, hopen, hrender,
    hcreate, hassemble⟩

/-- A path to a new name in the working directory is accepted. -/
theorem check_here (hhere : f.get? f.here = some .directory) {output : Path}
    (hext : output.extension? = some Destination.ending) (hstem : output.stem? = some "q")
    (hdirectory : Destination.directoryOf output = ofText ".")
    (hnew : f.get? (output.locationFrom f.here) ≠ some .directory) :
    Destination.check f output = .ok ⟨ofText ".", "q", by decide⟩ := by
  have hthere : f.isDirectory (Destination.directoryOf output) = true := by
    rw [hdirectory]
    exact isDirectory_dot hhere
  have hfree : f.isDirectory output = false := Bool.eq_false_iff.2 (mt get?_of_isDirectory hnew)
  have hcheck := Destination.check_of_isDirectory hext hstem (by decide) hthere hfree
  rwa [hdirectory] at hcheck

theorem build_lands_bare :
    (ofText "q.fmu").EndsInName ∧ ∃ skeleton rendered scratch created entries assembled,
      Toolchain.hollow.Confined ∧
      Destination.check furnished (ofText "q.fmu") = .ok ⟨ofText ".", "q", by decide⟩ ∧
      Skeleton.open? furnished (ofText "runtime") = .ok skeleton ∧
      render Model.StateSpace.void "q" 0.01 ⟨⟨0⟩, 0⟩ = .ok rendered ∧
      Scratch.create (ofText ".") "q" furnished = (.ok scratch, created) ∧
      assemble Toolchain.hollow (Job.plain (ofText "q.fmu")) "q" skeleton rendered scratch.path
        created = (.ok entries, assembled) ∧
      ∃ report g files executable,
        build Model.StateSpace.void (Job.plain (ofText "q.fmu")) Toolchain.hollow ⟨⟨0⟩, 0⟩
          furnished = (.ok report, g) ∧ report.entries = entries ∧
          entries = files.map Prod.fst ∧
            g.find? (ofText "q.fmu") = .ok (["q.fmu"], .file (.archive files) executable) := by
  have hends : (ofText "q.fmu").EndsInName :=
    ⟨[], "q.fmu", by decide, isFileName_of_length (by decide) (by decide)⟩
  obtain ⟨skeleton, rendered, scratch, created, entries, assembled, hopen, hrender, hcreate,
    hassemble⟩ := exists_assembled_furnished (ofText "q.fmu")
  have hcheck : Destination.check furnished (Job.plain (ofText "q.fmu")).output =
      .ok ⟨ofText ".", "q", by decide⟩ :=
    check_here rfl (by decide) (by decide) (by decide) (by decide)
  have hbuild := (build_lands Toolchain.hollow_confined hcheck hopen hrender hcreate
    hassemble).2.1 hends
  exact ⟨hends, skeleton, rendered, scratch, created, entries, assembled, Toolchain.hollow_confined,
    hcheck, hopen, hrender, hcreate, hassemble, hbuild⟩

/-- With a slash behind it the name is accepted as well, all stages succeed, and the archive cannot
be moved. -/
theorem not_lands_slashed :
    ∃ skeleton rendered scratch created entries assembled cause g,
      Toolchain.hollow.Confined ∧
      Destination.check furnished (ofText "q.fmu/") = .ok ⟨ofText ".", "q", by decide⟩ ∧
      Skeleton.open? furnished (ofText "runtime") = .ok skeleton ∧
      render Model.StateSpace.void "q" 0.01 ⟨⟨0⟩, 0⟩ = .ok rendered ∧
      Scratch.create (ofText ".") "q" furnished = (.ok scratch, created) ∧
      assemble Toolchain.hollow (Job.plain (ofText "q.fmu/")) "q" skeleton rendered scratch.path
        created = (.ok entries, assembled) ∧
      build Model.StateSpace.void (Job.plain (ofText "q.fmu/")) Toolchain.hollow ⟨⟨0⟩, 0⟩
        furnished = (.error (.files .movingArchive (ofText "q.fmu/") cause), g) := by
  have hends : ¬(ofText "q.fmu/").EndsInName := by
    rintro ⟨before, last, hseg, hlast⟩
    have hsegments : (ofText "q.fmu/").segments = ["q.fmu"] ++ [""] := by decide
    rw [hsegments] at hseg
    have hempty := (List.cons.inj (List.append_inj' hseg rfl).2).1
    exact (isFileName_iff.1 hlast).1 hempty.symm
  obtain ⟨skeleton, rendered, scratch, created, entries, assembled, hopen, hrender, hcreate,
    hassemble⟩ := exists_assembled_furnished (ofText "q.fmu/")
  have hcheck : Destination.check furnished (Job.plain (ofText "q.fmu/")).output =
      .ok ⟨ofText ".", "q", by decide⟩ :=
    check_here rfl (by decide) (by decide) (by decide) (by decide)
  obtain ⟨cause, g, hbuild⟩ :=
    build_of_not_endsInName hcheck hopen hrender hcreate hassemble hends
  exact ⟨skeleton, rendered, scratch, created, entries, assembled, cause, g,
    Toolchain.hollow_confined, hcheck, hopen, hrender, hcreate, hassemble, hbuild⟩

end Package
end LtiUnit
