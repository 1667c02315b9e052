import LtiUnit.Command.Run
import LtiUnit.Proofs.BuildOutcome
import LtiUnit.Proofs.Occasions

/-!
# LtiUnit.Proofs.Preview

A preview of a unit shows what a build would pack, and leaves all files as they are.

A build and a preview go different ways from the same plan: the build has a job of its own and
renders for itself. What is packed is therefore compared with what is printed, on any two occasions
(`RedrawnText`). The compiler of a build is started beside the texts and can change them, so of that
one run it is asked that it does not (`CompilerKeepsTexts`).

* `looksOnly_produce` — a preview changes no file.
* `produce_preview` — what is printed is what is rendered.
* `produce_artifact` — what a plan becomes if an archive is asked for.
* `holdsTexts_of_build` — what is packed under the names of the two texts.
* `previews_shown` — what is packed has been shown.
-/

namespace LtiUnit

open LtiUnit.Files LtiUnit.Path LtiUnit.Action
open Model (Description)
open Package (Rendered Destination Skeleton Job Report)

/-! ## Courses that change nothing -/

namespace Action

variable {ε α β : Type} {act : Action ε α} {next : α → Action ε β}

/-- A course that leaves all files as they are, whether it succeeds or fails. -/
def LooksOnly (act : Action ε α) : Prop := ∀ f, (act f).2 = f

theorem looksOnly_look (q : Files → Except ε α) : LooksOnly (look q) := fun _ => rfl

theorem looksOnly_pure (x : α) : LooksOnly (pure x : Action ε α) := fun _ => rfl

theorem looksOnly_throw (e : ε) : LooksOnly (throw e : Action ε α) := fun _ => rfl

/-- What follows a course and looks only leaves the files of that course. -/
theorem files_bind (hnext : ∀ x, LooksOnly (next x)) (f : Files) :
    ((act >>= next) f).2 = (act f).2 := by
  rw [bind_apply]
  rcases act f with ⟨e | x, g⟩
  · rfl
  · exact hnext x g

theorem LooksOnly.bind (hact : LooksOnly act) (hnext : ∀ x, LooksOnly (next x)) :
    LooksOnly (act >>= next) := fun f => (files_bind hnext f).trans (hact f)

end Action

namespace Command

/-! ## Compilers -/

theorem files_wrap {δ ε α : Type} (w : δ → ε) (act : Action δ α) (f : Files) :
    (wrap w act f).2 = (act f).2 := by
  unfold wrap
  rcases act f with ⟨e | x, g⟩ <;> rfl

theorem files_compile (start : Toolchain.Starter) (c : Toolchain.Compiler) (r : Toolchain.Request)
    (f : Files) : (c.compile start r f).2 = (start (c.invocation r) f).2 := by
  refine (files_bind (fun o => ?_) f).trans (files_wrap _ _ f)
  have hlibrary : LooksOnly (do
      if !(← look fun f => .ok (f.isFile r.library)) then throw (.noLibrary r.library)
      return r.library : Action PackageError Path) := by
    refine (looksOnly_look _).bind fun there => ?_
    split
    · exact (looksOnly_throw _).bind fun _ => looksOnly_pure _
    · exact looksOnly_pure _
  split
  · exact (looksOnly_throw _).bind fun _ => hlibrary
  · exact hlibrary

theorem eq_library_of_compile {start : Toolchain.Starter} {c : Toolchain.Compiler}
    {r : Toolchain.Request} {p : Path} {f g : Files} (h : c.compile start r f = (.ok p, g)) :
    p = r.library := by
  obtain ⟨o, f1, -, h⟩ := bind_eq_ok_iff.1 h
  have hlibrary {f1 : Files} (h : (do
      if !(← look fun f => .ok (f.isFile r.library)) then throw (.noLibrary r.library)
      return r.library : Action PackageError Path) f1 = (.ok p, g)) : p = r.library := by
    obtain ⟨there, f2, -, h⟩ := bind_eq_ok_iff.1 h
    split at h
    · obtain ⟨_, _, h, -⟩ := bind_eq_ok_iff.1 h
      cases h
    · exact (pure_eq_ok h).1.symm
  dsimp only at h
  split at h
  · obtain ⟨_, _, h, -⟩ := bind_eq_ok_iff.1 h
    cases h
  · exact hlibrary h

/-- A compiler that exits well and has left its library comes back with it. -/
theorem compile_of_library {start : Toolchain.Starter} {c : Toolchain.Compiler}
    {r : Toolchain.Request} {out err : ByteArray} {f g : Files}
    (hstart : start (c.invocation r) f = (.ok ⟨.code 0, out, err⟩, g))
    (hfile : g.isFile r.library = true) : c.compile start r f = (.ok r.library, g) := by
  refine bind_eq_ok_iff.2 ⟨_, g, wrap_of_ok hstart, ?_⟩
  exact bind_eq_ok_iff.2 ⟨true, g, Prod.ext (congrArg Except.ok hfile) rfl, rfl⟩

/-- A compiler that keeps to the directory it is started in is a toolchain that does. -/
theorem confined_toolchain {start : Toolchain.Starter} {c : Toolchain.Compiler}
    (h : ∀ (r : Toolchain.Request) (f : Files),
      AgreeOutside (fun l => isBelow l (r.build.locationFrom f.here) = true) f
        (start (c.invocation r) f).2) : (c.toolchain start).Confined where
  agree r f _ := by
    have hfiles : ((c.toolchain start).compile r f).2 = (start (c.invocation r) f).2 :=
      files_compile start c r f
    rw [hfiles]
    exact h r f
  library r f p g hname hcompile := by
    obtain rfl := eq_library_of_compile hcompile
    rw [Toolchain.Request.locationFrom_library hname]
    exact isBelow_cons _ (isBelow_refl _)

/-! ## Previews -/

section Produce

variable {host : Host} {d : Description Float} {options : BuildOptions}
  {found : Option FoundConfig} {directory : Path} {f g : Files}

/-- A preview changes no file, whatever it comes to. -/
theorem looksOnly_produce (hemit : options.emit ≠ .artifact) :
    LooksOnly (produce host d options found directory) := by
  refine (looksOnly_look _).bind fun p => ?_
  cases h : options.emit with
  | artifact => exact absurd h hemit
  | source => exact (looksOnly_look _).bind fun _ => looksOnly_pure _
  | descriptor => exact (looksOnly_look _).bind fun _ => looksOnly_pure _

/-- What a preview prints is what is rendered for it. -/
theorem produce_preview {p : Plan} {destination : Destination} {rendered : Rendered}
    (hplan : plan host d options found directory = .ok p)
    (hcheck : Destination.check f options.output = .ok destination)
    (hrender : Package.render p.model destination.name p.settings.stepSize host.occasion =
      .ok rendered) :
    produce host d { options with emit := .source } found directory f =
        (.ok (.text rendered.source), f) ∧
      produce host d { options with emit := .descriptor } found directory f =
        (.ok (.text rendered.descriptor), f) := by
  have hpreview : preview host p options.output f = .ok rendered := by
    rw [preview, hcheck]
    exact congrArg (Except.mapError CommandError.package) hrender
  have hsource : plan host d { options with emit := .source } found directory = .ok p := hplan
  have hdescriptor : plan host d { options with emit := .descriptor } found directory = .ok p :=
    hplan
  constructor
  · refine bind_eq_ok_iff.2 ⟨p, f, Prod.ext hsource rfl, ?_⟩
    exact bind_eq_ok_iff.2 ⟨rendered, f, Prod.ext hpreview rfl, rfl⟩
  · refine bind_eq_ok_iff.2 ⟨p, f, Prod.ext hdescriptor rfl, ?_⟩
    exact bind_eq_ok_iff.2 ⟨rendered, f, Prod.ext hpreview rfl, rfl⟩

/-- The job that a plan becomes if an archive is asked for. -/
def Plan.job (p : Plan) (output : Path) (platform : Platform) : Job :=
  ⟨output, p.settings.runtimeDirectory, p.settings.stepSize, p.settings.keepSources, platform⟩

theorem produce_artifact {product : Product} (hemit : options.emit = .artifact)
    (h : produce host d options found directory f = (.ok product, g)) :
    ∃ p platform report, plan host d options found directory = .ok p ∧
      host.platform = .ok platform ∧ Package.build p.model (p.job options.output platform)
        (p.settings.toCompiler.toolchain host.start) host.occasion f = (.ok report, g) := by
  obtain ⟨p, f1, hlook, h⟩ := bind_eq_ok_iff.1 h
  obtain ⟨hplan, rfl⟩ := look_eq_ok hlook
  rw [hemit] at h
  obtain ⟨report, f2, hartifact, h⟩ := bind_eq_ok_iff.1 h
  obtain ⟨-, rfl⟩ := pure_eq_ok h
  obtain ⟨platform, f3, hplatform, hbuild⟩ := bind_eq_ok_iff.1 hartifact
  obtain ⟨hhost, rfl⟩ := look_eq_ok hplatform
  refine ⟨p, platform, report, hplan, ?_, wrap_eq_ok hbuild⟩
  cases h : host.platform with
  | error e =>
    rw [h] at hhost
    cases hhost
  | ok platform' =>
    rw [h] at hhost
    cases hhost
    rfl

theorem settings_of_plan {p : Plan} (h : plan host d options found directory = .ok p) :
    Settings.resolve options found directory host.environment = .ok p.settings := by
  unfold plan at h
  cases hsettings : Settings.resolve options found directory host.environment with
  | error e =>
    rw [hsettings] at h
    cases h
  | ok settings =>
    rw [hsettings] at h
    cases hmodel : d.realize with
    | error e =>
      rw [hmodel] at h
      cases h
    | ok m =>
      rw [hmodel] at h
      cases h
      rfl

end Produce

/-! ## Archives -/

/-- What an archive holds under the names of the two texts of a unit: the descriptor, and the source
if it is kept. -/
structure HoldsTexts (files : List (String × Content)) (keep : Bool) (texts : Rendered) :
    Prop where
  descriptor : ∀ content,
    ("modelDescription.xml", content) ∈ files ↔ content = .ofText texts.descriptor
  source : ∀ content,
    ("sources/fmi2model.c", content) ∈ files ↔ keep = true ∧ content = .ofText texts.source

/-- Whether a program that works on a request leaves the two texts of the unit as they are. -/
structure KeepsTexts (r : Toolchain.Request) (f g : Files) : Prop where
  here : g.here = f.here
  descriptor : g.held (Descriptor.fileName :: r.tree f.here) =
    f.held (Descriptor.fileName :: r.tree f.here)
  source : g.held (Source.fileName :: r.sources.locationFrom f.here) =
    f.held (Source.fileName :: r.sources.locationFrom f.here)

section Packed

open Package

variable {m : Model.StateSpace Float} {job : Job} {t : Toolchain} {occasion : Occasion}
  {f g : Files} {s : Location}

theorem locationFrom_library_requestFor {name : String} (hname : isName name = true)
    (scratch : Path) (platform : Platform) (w : Location) :
    (requestFor scratch name platform).library.locationFrom w =
      platform.libraryName name :: "build" :: scratch.locationFrom w := by
  rw [Toolchain.Request.locationFrom_library hname, build_requestFor rfl]
  rfl

/-- What is packed of the tree if the library has come from the directory beside it. -/
theorem mem_files_iff (x : Making m job t occasion f g)
    (hpath : x.path = (requestFor x.scratch x.destination.name job.platform).library)
    {way : Location} {content : Content} (hway : ∀ part ∈ way, isFileName part = true)
    (hlibrary : way ≠ [job.platform.libraryName x.destination.name, job.platform.id, "binaries"]) :
    (Archive.nameOf way, content) ∈ x.files ↔
      ¬(job.keepSources = false ∧ isBelow way ["sources"] = true) ∧
        heldIn (x.scratch.locationFrom f.here) x.compiled way = some content := by
  have hsource := locationFrom_library_requestFor x.destination.isName x.scratch job.platform f.here
  rw [← hpath] at hsource
  have hapart : way ++ treeAt (x.scratch.locationFrom f.here) ≠ x.path.locationFrom f.here := by
    intro heq
    refine not_isBelow_build (s := x.scratch.locationFrom f.here) way ?_
    rw [heq, hsource]
    exact isBelow_cons _ (isBelow_refl _)
  rw [mem_packedTable_iff x.destination.isName x.table hway, packedTable, if_neg hlibrary,
    if_neg hapart, Option.ite_none_left_eq_some]

theorem isFileName_of_mem_texts :
    ∀ part ∈ [Descriptor.fileName, Source.fileName, "sources"], isFileName part = true := by
  intro part hpart
  refine isFileName_of_length ?_ ?_ <;>
  · revert part
    decide

theorem nameOf_descriptorFile : Archive.nameOf [Descriptor.fileName] = "modelDescription.xml" := rfl

theorem nameOf_sourceFile :
    Archive.nameOf [Source.fileName, "sources"] = "sources/fmi2model.c" := by
  decide

theorem laidOut_descriptor_iff {skeleton : Skeleton} {rendered : Rendered} {content : Content} :
    LaidOut f skeleton rendered [Descriptor.fileName] content ↔
      content = .ofText rendered.descriptor := by
  constructor
  · generalize hway : [Descriptor.fileName] = way
    rintro (_ | _ | _)
    · simp at hway
    · simp at hway
    · rfl
  · rintro rfl
    exact .descriptor

theorem laidOut_source_iff {skeleton : Skeleton} {rendered : Rendered} {content : Content} :
    LaidOut f skeleton rendered [Source.fileName, "sources"] content ↔
      content = .ofText rendered.source := by
  constructor
  · generalize hway : [Source.fileName, "sources"] = way
    rintro (_ | _ | _)
    · rfl
    · simp at hway
    · simp at hway
  · rintro rfl
    exact .source

/-- If the toolchain of a build leaves the two texts as they are and comes back with the library,
these texts are packed. -/
theorem holdsTexts_of_build {report : Report}
    (hkeeps : ∀ r prepared, Asks m job occasion f r prepared →
      KeepsTexts r prepared (t.compile r prepared).2)
    (hlibrary : ∀ r prepared p compiled, Asks m job occasion f r prepared →
      t.compile r prepared = (.ok p, compiled) → p = r.library)
    (h : build m job t occasion f = (.ok report, g)) :
    ∃ x : Making m job t occasion f g, HoldsTexts x.files job.keepSources x.rendered := by
  obtain ⟨x, -⟩ := exists_making (fun r prepared hasks => (hkeeps r prepared hasks).here) h
  have hpath := hlibrary _ _ _ _ x.asks x.compile
  have hkept := hkeeps _ _ x.asks
  rw [x.compile] at hkept
  have hdescriptor := hkept.descriptor
  have hsource := hkept.source
  rw [x.here, tree_requestFor rfl] at hdescriptor
  rw [x.here, requestFor, locationFrom_sources rfl] at hsource
  have hproper := isFileName_of_mem_texts
  refine ⟨x, fun content => ?_, fun content => ?_⟩
  · have hbelow : isBelow [Descriptor.fileName] ["sources"] = false := by decide
    have hsame : heldIn (x.scratch.locationFrom f.here) x.compiled [Descriptor.fileName] =
        heldIn (x.scratch.locationFrom f.here) x.prepared [Descriptor.fileName] := hdescriptor
    rw [← nameOf_descriptorFile, mem_files_iff x hpath (by simp [hproper]) (by simp), hsame, hbelow,
      x.laid, laidOut_descriptor_iff]
    simp
  · have hbelow : isBelow [Source.fileName, "sources"] ["sources"] = true := by decide
    have hsame : heldIn (x.scratch.locationFrom f.here) x.compiled [Source.fileName, "sources"] =
        heldIn (x.scratch.locationFrom f.here) x.prepared [Source.fileName, "sources"] := hsource
    rw [← nameOf_sourceFile, mem_files_iff x hpath (by simp [hproper]) (by simp), hsame, hbelow,
      x.laid, laidOut_source_iff]
    simp

end Packed

/-! ## Previews and archives -/

/-- A command prints a text if it is asked for one, and changes no file. -/
def Prints (host : Host) (d : Description Float) (options : BuildOptions)
    (found : Option FoundConfig) (directory : Path) (f : Files) (emit : Emit) (text : String) :
    Prop :=
  produce host d { options with emit := emit } found directory f = (.ok (.text text), f)

/-- Whether the compiler that a command starts, once the unit is laid out, leaves its two texts as they
are. -/
def CompilerKeepsTexts (host : Host) (d : Description Float) (options : BuildOptions)
    (found : Option FoundConfig) (directory : Path) (f : Files) : Prop :=
  ∀ p platform r prepared, plan host d options found directory = .ok p →
    host.platform = .ok platform →
    Package.Asks p.model (p.job options.output platform) host.occasion f r prepared →
    KeepsTexts r prepared (host.start (p.settings.toCompiler.invocation r) prepared).2

/-- A preview changes no file, whether it succeeds or fails. If the archive is built by a compiler
that leaves the texts as they are, both previews succeed for the same command on every occasion, and
the texts that they print are those in the archive but for the GUID and the time. -/
theorem previews_shown (host : Host) (d : Description Float) (options : BuildOptions)
    (found : Option FoundConfig) (directory : Path) (f : Files) :
    (∀ emit, emit ≠ .artifact →
      (produce host d { options with emit := emit } found directory f).2 = f) ∧
    ∀ product g, CompilerKeepsTexts host d options found directory f →
      produce host d { options with emit := .artifact } found directory f = (.ok product, g) →
      ∃ settings texts files l x,
        Settings.resolve options found directory host.environment = .ok settings ∧
        g.find? options.output = .ok (l, .file (.archive files) x) ∧
        HoldsTexts files settings.keepSources texts ∧
        ∀ o, ∃ source descriptor,
          Prints { host with occasion := o } d options found directory f .source source ∧
          Prints { host with occasion := o } d options found directory f .descriptor descriptor ∧
          RedrawnText host.occasion o texts.source source ∧
          RedrawnText host.occasion o texts.descriptor descriptor := by
  refine ⟨fun emit hemit => looksOnly_produce hemit f, fun product g hkeeps h => ?_⟩
  obtain ⟨p, platform, report, hplan, hplatform, hbuild⟩ := produce_artifact rfl h
  have hown : plan host d options found directory = .ok p := hplan
  have hfiles (r : Toolchain.Request) (prepared : Files) :
      ((p.settings.toCompiler.toolchain host.start).compile r prepared).2 =
        (host.start (p.settings.toCompiler.invocation r) prepared).2 :=
    files_compile host.start p.settings.toCompiler r prepared
  obtain ⟨x, htexts⟩ := holdsTexts_of_build
    (fun r prepared hasks => by
      rw [hfiles]
      exact hkeeps p platform r prepared hown hplatform hasks)
    (fun _ _ _ _ _ hcompile => eq_library_of_compile hcompile) hbuild
  obtain ⟨executable, harchive⟩ := x.found
  refine ⟨p.settings, x.rendered, x.files, _, executable, settings_of_plan hown, harchive, htexts,
    fun o => ?_⟩
  obtain ⟨rendered, hrendered, hsource, hdescriptor⟩ := Package.exists_redrawn x.texts o
  have hother : plan { host with occasion := o } d options found directory = .ok p := hown
  obtain ⟨hprinted, hprinted'⟩ := produce_preview hother x.check hrendered
  exact ⟨rendered.source, rendered.descriptor, hprinted, hprinted', hsource, hdescriptor⟩

/-! ## Hosts -/

/-- A program that writes below the directory it is started in leaves the texts as they are. -/
theorem keepsTexts_of_agree {m : Model.StateSpace Float} {job : Job} {occasion : Occasion}
    {r : Toolchain.Request} {f prepared g : Files}
    (hasks : Package.Asks m job occasion f r prepared)
    (h : AgreeOutside (fun l => isBelow l (r.build.locationFrom prepared.here) = true) prepared g) :
    KeepsTexts r prepared g := by
  obtain ⟨scratch, name, s, -, rfl, -⟩ := Package.prepared_of_asks hasks
  have hkept {l : Location}
      (hl : isBelow l ((Package.requestFor scratch name job.platform).tree prepared.here) = true) :
      g.held l = prepared.held l :=
    h.held fun hb => Package.not_isBelow_tree rfl hb hl
  refine ⟨h.here, hkept (isBelow_cons _ (isBelow_refl _)), hkept ?_⟩
  rw [Package.tree_requestFor rfl, Package.requestFor, Package.locationFrom_sources rfl]
  exact isBelow_cons _ (isBelow_cons _ (isBelow_refl _))

/-- A host on which every program leaves an empty file `q.so` where it is started. -/
def Host.hollow : Host where
  platform := .ok ⟨.linux, 64⟩
  environment _ := none
  start i := do
    if let some d := i.directory then Action.change (·.write (d.child "q.so") (.data .empty))
    return ⟨.code 0, .empty, .empty⟩
  occasion := ⟨⟨0⟩, 0⟩

theorem Host.hollow_agree (c : Toolchain.Compiler) (r : Toolchain.Request) (f : Files) :
    AgreeOutside (fun l => isBelow l (r.build.locationFrom f.here) = true) f
      (hollow.start (c.invocation r) f).2 := by
  have hname : isFileName "q.so" = true := isFileName_of_length (by decide) (by decide)
  have hdirectory : (c.invocation r).directory = some r.build := rfl
  simp only [Host.hollow, hdirectory, bind_apply, Action.change]
  cases hw : f.write (r.build.child "q.so") (.data .empty) with
  | error e => exact .refl f
  | ok g =>
    refine (write_eq_ok hw).agree.mono ?_
    rintro l rfl
    rw [locationFrom_child hname]
    exact isBelow_cons _ (isBelow_refl _)

theorem Host.exists_compiled (c : Toolchain.Compiler) {r : Toolchain.Request} {f : Files}
    (hd : f.isDirectory r.build = true) (hlibrary : r.platform.libraryName r.identifier = "q.so")
    (hfree : f.get? ("q.so" :: r.build.locationFrom f.here) = none) :
    ∃ g, (c.toolchain hollow.start).compile r f = (.ok r.library, g) ∧
      g.isFile r.library = true := by
  have hname : Nameable "q.so" :=
    Package.nameable_of_length (by decide) (by decide) (by decide)
  rw [← hlibrary] at hname hfree
  obtain ⟨g, hcompile, hfile⟩ := Toolchain.compile_hollow hd hname hfree
  obtain ⟨_, g', hwrite, hpure⟩ := bind_eq_ok_iff.1 hcompile
  obtain ⟨-, rfl⟩ := pure_eq_ok hpure
  have hwritten : f.write (r.build.child "q.so") (.data .empty) = .ok g' :=
    hlibrary ▸ change_eq_ok (wrap_eq_ok hwrite)
  have hstart : hollow.start (c.invocation r) f = (.ok ⟨.code 0, .empty, .empty⟩, g') :=
    bind_eq_ok_iff.2 ⟨(), g', change_of_ok hwritten, rfl⟩
  exact ⟨g', compile_of_library hstart hfile, hfile⟩

/-- The options to build `q.fmu` with the skeleton in `runtime`. -/
def BuildOptions.whole : BuildOptions :=
  ⟨ofText "q.fmu", none, none, none, some (ofText "runtime"), false, .artifact, false⟩

/-- What a lag of first order is planned as with these options on a system without settings. -/
theorem plan_whole (host : Host) (henvironment : host.environment = fun _ => none) :
    ∃ m, plan host .lag .whole none (ofText "/") =
      .ok ⟨m, ⟨usualStepSize, true, ofText "runtime", none, []⟩⟩ := by
  obtain ⟨m, hm⟩ := Description.exists_realize_lag
  have hstep : Render.validStepSize usualStepSize = true := by decide +kernel
  have hresolve : Settings.resolve .whole none (ofText "/") host.environment =
      .ok ⟨usualStepSize, true, ofText "runtime", none, []⟩ := by
    rw [henvironment, Settings.resolve]
    exact if_pos hstep
  refine ⟨m, ?_⟩
  rw [plan, hresolve, hm]
  rfl

theorem produce_of_build {host : Host} {d : Description Float} {options : BuildOptions}
    {found : Option FoundConfig} {directory : Path} {p : Plan} {platform : Platform} {f g : Files}
    {report : Report} (hplan : plan host d options found directory = .ok p)
    (hplatform : host.platform = .ok platform)
    (hbuild : Package.build p.model (p.job options.output platform)
      (p.settings.toCompiler.toolchain host.start) host.occasion f = (.ok report, g)) :
    ∃ product, produce host d { options with emit := .artifact } found directory f =
      (.ok product, g) := by
  have hown : plan host d { options with emit := .artifact } found directory = .ok p := hplan
  refine ⟨.report report options.json, bind_eq_ok_iff.2 ⟨_, _, look_of_ok hown, ?_⟩⟩
  refine bind_eq_ok_iff.2 ⟨report, g, bind_eq_ok_iff.2 ⟨platform, f, ?_, wrap_of_ok hbuild⟩, rfl⟩
  rw [hplatform]
  rfl

/-- A lag of first order is built, and has been shown. -/
theorem previews_shown_lag :
    CompilerKeepsTexts .hollow .lag .whole none (ofText "/") furnished ∧
    ∃ product g texts files l x,
      produce .hollow .lag .whole none (ofText "/") furnished = (.ok product, g) ∧
      g.find? (ofText "q.fmu") = .ok (l, .file (.archive files) x) ∧ HoldsTexts files true texts ∧
      ∃ source descriptor,
        Prints .hollow .lag .whole none (ofText "/") furnished .source source ∧
        Prints .hollow .lag .whole none (ofText "/") furnished .descriptor descriptor ∧
        RedrawnText ⟨⟨0⟩, 0⟩ ⟨⟨0⟩, 0⟩ texts.source source ∧
        RedrawnText ⟨⟨0⟩, 0⟩ ⟨⟨0⟩, 0⟩ texts.descriptor descriptor := by
  obtain ⟨m, hplan⟩ := plan_whole .hollow rfl
  have hstep : Render.validStepSize usualStepSize = true := by decide +kernel
  have hkeeps : CompilerKeepsTexts .hollow .lag .whole none (ofText "/") furnished :=
    fun p platform r prepared _ _ hasks => keepsTexts_of_agree hasks (Host.hollow_agree _ _ _)
  obtain ⟨report, g, hbuild⟩ := Package.equipped_furnished.exists_build m hstep ⟨⟨0⟩, 0⟩
    (confined_toolchain (Host.hollow_agree ⟨none, []⟩)) fun r prepared hd hlibrary hnew =>
      Host.exists_compiled ⟨none, []⟩ hd hlibrary hnew
  obtain ⟨product, hproduce⟩ := produce_of_build hplan rfl hbuild
  obtain ⟨-, hshown⟩ := previews_shown .hollow .lag .whole none (ofText "/") furnished
  obtain ⟨settings, texts, files, l, x, hresolve, harchive, htexts, hoccasions⟩ :=
    hshown _ _ hkeeps hproduce
  cases (settings_of_plan hplan).symm.trans hresolve
  obtain ⟨source, descriptor, hprinted⟩ := hoccasions ⟨⟨0⟩, 0⟩
  exact ⟨hkeeps, product, g, texts, files, l, x, hproduce, harchive, htexts, source, descriptor,
    hprinted⟩

/-- A host on which every program leaves an empty file `q.so` where it is started, and empties the
source of the unit beside it. -/
def Host.meddling : Host where
  platform := .ok ⟨.linux, 64⟩
  environment _ := none
  start i := do
    if let some d := i.directory then
      Action.change (·.write (d.child "q.so") (.data .empty))
      let sources := ((d.child "..").child "fmu").child "sources"
      Action.change (·.write (sources.child Source.fileName) (.data .empty))
    return ⟨.code 0, .empty, .empty⟩
  occasion := ⟨⟨0⟩, 0⟩

section Meddling

open Package

variable {m : Model.StateSpace Float} {job : Job} {occasion : Occasion} {r : Toolchain.Request}
  {f prepared : Files}

/-- From the directory that a library is built in, one up and down again, one gets to the sources
of the unit. -/
theorem sources_beside {scratch : Path} {s : Location} {rooms : List Location}
    {touched : Location → Prop} {g : Files} (hg : Site f s rooms touched g)
    (hscratch : ScratchAt f scratch s) (hbuild : ["build"] ∈ rooms) (hfmu : ["fmu"] ∈ rooms)
    (hsources : ["sources", "fmu"] ∈ rooms) :
    g.isDirectory ((((scratch.child "build").child "..").child "fmu").child "sources") = true ∧
      ((((scratch.child "build").child "..").child "fmu").child "sources").locationFrom g.here =
        ["sources", "fmu"] ++ s := by
  obtain ⟨hd, hlocation⟩ := hg.room hscratch (.child .self nameable_build) hbuild
  have hup : ((scratch.child "build").child "..").locationFrom g.here = s := by
    rw [locationFrom_parent, hlocation]
    rfl
  have hdown : (((scratch.child "build").child "..").child "fmu").locationFrom g.here =
      "fmu" :: s := by
    rw [locationFrom_child nameable_tree.proper, hup]
  have htree := isDirectory_child (isDirectory_parent hd) nameable_tree (by
    rw [hup]
    exact hg.there ["fmu"] hfmu)
  refine ⟨isDirectory_child htree nameable_sources ?_, ?_⟩
  · rw [hdown]
    exact hg.there ["sources", "fmu"] hsources
  · rw [locationFrom_child nameable_sources.proper, hdown]
    rfl

/-- What the program of this host does where a library is asked for: it leaves one there, and then it
empties the source. -/
theorem Host.start_meddling {scratch : Path} {s : Location} (hprepared : Site.Prepared f s prepared)
    (hscratch : ScratchAt f scratch s) {content : Content}
    (hheld : prepared.held ([Source.fileName, "sources"] ++ treeAt s) = some content)
    (c : Toolchain.Compiler) (name : String) (platform : Platform) :
    ∃ f1 f2, meddling.start (c.invocation (requestFor scratch name platform)) prepared =
        (.ok ⟨.code 0, .empty, .empty⟩, f2) ∧
      PutsFile prepared f1 (["q.so", "build"] ++ s) (.data .empty) ∧
      PutsFile f1 f2 ([Source.fileName, "sources", "fmu"] ++ s) (.data .empty) := by
  have hso : Nameable "q.so" := nameable_of_length (by decide) (by decide) (by decide)
  have hunit : Nameable Source.fileName :=
    nameable_of_length (by decide) (by decide) (by decide)
  -- the library
  obtain ⟨hd, hlocation⟩ := hprepared.room hscratch (.child .self nameable_build) (by simp)
  obtain ⟨f1, hfirst⟩ := write_child hd hso (by
    rw [hlocation, ← List.cons_append, hprepared.untouched _ (List.cons_ne_nil _ _)
      (by simp [LaysAt, isBelow_iff, List.suffix_cons_iff])]
    simp) (.data .empty)
  have hput := write_eq_ok hfirst
  rw [locationFrom_child hso.proper, hlocation, ← List.cons_append] at hput
  -- the source
  obtain ⟨hsources, hbeside⟩ :=
    sources_beside (hprepared.putsFile hput) hscratch (by simp) (by simp) (by simp)
  obtain ⟨executable, hthere⟩ := held_eq_some_iff.1 hheld
  obtain ⟨f2, hsecond⟩ := write_child hsources hunit (by
    rw [hbeside, ← List.cons_append, hput.agree.get? _ (by simp)]
    intro hdirectory
    cases hthere.symm.trans hdirectory) (.data .empty)
  have hput' := write_eq_ok hsecond
  rw [locationFrom_child hunit.proper, hbeside, ← List.cons_append] at hput'
  refine ⟨f1, f2, ?_, hput, hput'⟩
  exact bind_eq_ok_iff.2 ⟨(), f1, change_of_ok hfirst,
    bind_eq_ok_iff.2 ⟨(), f2, change_of_ok hsecond, rfl⟩⟩

theorem Host.exists_meddled (c : Toolchain.Compiler) (hasks : Asks m job occasion f r prepared)
    (hlibrary : r.platform.libraryName r.identifier = "q.so") :
    ∃ g, (c.toolchain meddling.start).compile r prepared = (.ok r.library, g) ∧
      g.isFile r.library = true ∧ g.here = prepared.here ∧
      g.held (Source.fileName :: r.sources.locationFrom prepared.here) = some (.data .empty) ∧
      ∀ s, r.build.locationFrom f.here = "build" :: s →
        Site.Compiled f s g ∧ ∃ way, r.library.locationFrom g.here = way ++ s := by
  obtain ⟨scratch, name, s, -, rfl, hscratch, hprepared, content, hheld⟩ := prepared_of_asks hasks
  obtain ⟨f1, g, hstart, hput, hput'⟩ :=
    Host.start_meddling hprepared hscratch hheld c name job.platform
  have hso : Nameable "q.so" := nameable_of_length (by decide) (by decide) (by decide)
  have hname : (requestFor scratch name job.platform).library =
      (scratch.child "build").child "q.so" := congrArg (scratch.child "build").child hlibrary
  have hg := (hprepared.putsFile hput).putsFile hput'
  obtain ⟨hd, hlocation⟩ := hg.room hscratch (.child .self nameable_build) (by simp)
  have hplace : (requestFor scratch name job.platform).library.locationFrom g.here =
      ["q.so", "build"] ++ s := by
    rw [hname, locationFrom_child hso.proper, hlocation]
    rfl
  have hfile : g.isFile (requestFor scratch name job.platform).library = true := by
    obtain ⟨executable, hthere⟩ := hput.there
    have hkept : g.get? ("q.so" :: (scratch.child "build").locationFrom g.here) =
        some (.file (.data .empty) executable) := by
      rw [hlocation, ← List.cons_append, hput'.agree.get? _ (by simp), hthere]
    rw [hname]
    exact isFile_child hd hso hkept
  refine ⟨g, compile_of_library hstart hfile, hfile, hput'.agree.here.trans hput.agree.here, ?_,
    fun s' hs => ?_⟩
  · rw [requestFor, locationFrom_sources (hprepared.working.agree.here ▸ hscratch.location)]
    exact held_eq_some_iff.2 hput'.there
  · rw [build_requestFor hscratch.location] at hs
    obtain rfl := (List.cons.inj hs).2
    refine ⟨hg.mono (by simp) fun way hway => ?_, _, hplace⟩
    rcases hway with rfl | rfl | rfl | hway
    · exact .inr (by decide)
    · exact .inl (by decide)
    · exact .inl (by decide)
    · exact .inr hway

end Meddling

theorem one_lt_length_pieces (m : Model.StateSpace Float) (id : Identity) (step : Float) :
    1 < (Text.pieces '\n' (Render.textOf (Render.sourceLines m id step))).length := by
  cases hlines : Render.sourceLines m id step with
  | nil =>
    simp [Render.sourceLines, Source.unit, Source.Item.lines] at hlines
  | cons line lines =>
    rw [pieces_textOf_cons, List.length_append]
    have hline := List.length_pos_iff.2 (Text.pieces_ne_nil '\n' line)
    have hlines := List.length_pos_iff.2 (Text.pieces_ne_nil '\n' (Render.textOf lines))
    omega

/-- A compiler that empties the source beside it: the archive is built, and its source has not been
shown. -/
theorem not_shown_meddled :
    ∃ product g files l x,
      produce .meddling .lag .whole none (ofText "/") furnished = (.ok product, g) ∧
      g.find? (ofText "q.fmu") = .ok (l, .file (.archive files) x) ∧
      ("sources/fmi2model.c", .ofText "") ∈ files ∧
      ∀ o source, Prints { Host.meddling with occasion := o } .lag .whole none (ofText "/") furnished
        .source source → ¬RedrawnText ⟨⟨0⟩, 0⟩ o "" source := by
  obtain ⟨m, hplan⟩ := plan_whole .meddling rfl
  have hstep : Render.validStepSize usualStepSize = true := by decide +kernel
  have hequipped := Package.equipped_furnished
  obtain ⟨r, prepared, hasks, hlibrary, -, -⟩ := hequipped.exists_asks m hstep ⟨⟨0⟩, 0⟩
  obtain ⟨compiled, hcompile, hfile, hhere, hheld, hcompiled⟩ :=
    Host.exists_meddled ⟨none, []⟩ hasks hlibrary
  obtain ⟨report, g, hbuild⟩ := Package.build_of_asks hasks Package.nameable_linux64
    Package.endsInName_whole hcompile hfile hcompiled
  obtain ⟨product, hproduce⟩ := produce_of_build hplan rfl hbuild
  obtain ⟨x, -⟩ := Package.exists_making (fun r' prepared' hasks' => by
    obtain ⟨rfl, rfl⟩ := hasks.unique hasks'
    rw [hcompile]
    exact hhere) hbuild
  obtain ⟨executable, hfind⟩ := x.found
  refine ⟨product, g, x.files, _, executable, hproduce, hfind, ?_,
    fun o source hprints hredrawn => ?_⟩
  · obtain ⟨hrequest, hprepared⟩ := hasks.unique x.asks
    rw [hrequest, hprepared, x.compile, Prod.mk.injEq, Except.ok.injEq] at hcompile
    obtain ⟨hpath, rfl⟩ := hcompile
    rw [hrequest, hprepared, x.here, Package.requestFor, Package.locationFrom_sources rfl] at hheld
    have hproper : ∀ part ∈ [Source.fileName, "sources"], isFileName part = true :=
      fun part hpart => isFileName_of_mem_texts part (List.mem_cons_of_mem _ hpart)
    rw [← nameOf_sourceFile]
    exact (mem_files_iff x hpath hproper (by simp)).2 ⟨by simp [Package.Job.whole], hheld⟩
  · obtain ⟨rendered, hrender⟩ : ∃ rendered, Package.render m "q" usualStepSize o = .ok rendered :=
      ⟨_, Package.render_of m (by decide) hstep o⟩
    have hother : plan { Host.meddling with occasion := o } .lag .whole none (ofText "/") = .ok _ :=
      hplan
    obtain ⟨hprinted, -⟩ := produce_preview hother hequipped.check hrender
    cases hprinted.symm.trans hprints
    have hlength := hredrawn.length_eq
    rw [(Package.render_eq_ok hrender).2.2.1] at hlength
    have hlines := one_lt_length_pieces m rendered.identity usualStepSize
    have hempty : (Text.pieces '\n' "").length = 1 := by decide
    omega

end Command
end LtiUnit
