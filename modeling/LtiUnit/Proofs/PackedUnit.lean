import LtiUnit.Proofs.Packing

/-!
# LtiUnit.Proofs.PackedUnit

What a build packs when it succeeds (`Making.packed`): the descriptor, the library that the toolchain
has left, and the sources with the skeleton unless they are left out, each under its own name and
nothing else. What the build reports agrees with what is packed.

A build is taken apart around the call of its toolchain, into what it asks (`Asks`) and what it does
once a path has come back (`finish`).
-/

namespace LtiUnit
namespace Package

open LtiUnit.Files LtiUnit.Path LtiUnit.Action
open Model (StateSpace)

variable {f₀ f g : Files} {s w : Location} {m : StateSpace Float} {job : Job} {t : Toolchain}
  {occasion : Occasion} {step : Float}

/-! ## The toolchain's part -/

/-- What a build does before it calls the toolchain. -/
def prepare (destination : Destination) (skeleton : Skeleton) (rendered : Rendered) :
    Action PackageError Scratch := do
  let scratch ← Scratch.create destination.directory destination.name
  layOut .never (scratch.path.child "fmu") skeleton rendered
  createDirectory .never (scratch.path.child "build")
  return scratch

/-- What a build asks of its toolchain, and the files as they are by then. -/
def Asks (m : StateSpace Float) (job : Job) (occasion : Occasion) (f : Files)
    (r : Toolchain.Request) (prepared : Files) : Prop :=
  ∃ destination skeleton rendered scratch,
    Destination.check f job.output = .ok destination ∧
    Skeleton.open? f job.runtimeDirectory = .ok skeleton ∧
    render m destination.name job.stepSize occasion = .ok rendered ∧
    prepare destination skeleton rendered f = (.ok scratch, prepared) ∧
    r = requestFor scratch.path destination.name job.platform

/-- There is but one request that a build can make of its toolchain. -/
theorem Asks.unique {r r' : Toolchain.Request} {prepared prepared' : Files}
    (h : Asks m job occasion f r prepared) (h' : Asks m job occasion f r' prepared') :
    r = r' ∧ prepared = prepared' := by
  obtain ⟨destination, skeleton, rendered, scratch, hcheck, hopen, hrender, hprepare, rfl⟩ := h
  obtain ⟨_, _, _, _, hcheck', hopen', hrender', hprepare', rfl⟩ := h'
  cases hcheck.symm.trans hcheck'
  cases hopen.symm.trans hopen'
  cases hrender.symm.trans hrender'
  cases hprepare.symm.trans hprepare'
  exact ⟨rfl, rfl⟩

/-- Whether a toolchain, called by a build, leaves a file with some content at the path that comes
back. -/
def Leaves (m : StateSpace Float) (job : Job) (t : Toolchain) (occasion : Occasion) (f : Files)
    (library : Content) : Prop :=
  ∃ r prepared path compiled, Asks m job occasion f r prepared ∧
    t.compile r prepared = (.ok path, compiled) ∧ compiled.content? path = .ok library

/-- What a build does in its scratch directory once its toolchain has come back with a path. -/
def finish (job : Job) (name : String) (scratch library : Path) :
    Action PackageError (List String) := do
  let tree := scratch.child "fmu"
  if !(← Action.look fun f => .ok (f.isFile library)) then throw (.noLibrary library)
  let binaries := (tree.child "binaries").child job.platform.id
  createDirectory .never binaries
  Action.wrap (.files .moving library)
    (Action.perform .never (.move library (binaries.child (job.platform.libraryName name))))
  if !job.keepSources then dropSources .never tree
  publish .never tree (scratch.child (name ++ ".zip")) job.output

theorem finish_eq_ok {name : String} {scratch library : Path} {entries : List String}
    (h : finish job name scratch library f = (.ok entries, g)) :
    f.isFile library = true ∧ ∃ f1 f2 f3,
      createDirectory .never (((scratch.child "fmu").child "binaries").child job.platform.id) f =
        (.ok (), f1) ∧
      f1.move library ((((scratch.child "fmu").child "binaries").child job.platform.id).child
        (job.platform.libraryName name)) = .ok f2 ∧
      (if job.keepSources = true then f3 = f2
        else dropSources .never (scratch.child "fmu") f2 = (.ok (), f3)) ∧
      publish .never (scratch.child "fmu") (scratch.child (name ++ ".zip")) job.output f3 =
        (.ok entries, g) := by
  obtain ⟨found, _, h1, h⟩ := bind_eq_ok_iff.1 h
  obtain ⟨hfound, rfl⟩ := look_eq_ok h1
  cases hfound
  by_cases hfile : f.isFile library = true
  · simp only [hfile, Bool.not_true, Bool.false_eq_true, if_false] at h
    obtain ⟨_, f1, h2, h⟩ := bind_eq_ok_iff.1 h
    obtain ⟨_, f2, h3, h⟩ := bind_eq_ok_iff.1 h
    refine ⟨hfile, f1, f2, ?_⟩
    have hmove := move_of_perform (wrap_eq_ok h3)
    cases hkeep : job.keepSources with
    | true =>
      simp only [hkeep, Bool.not_true, Bool.false_eq_true, if_false] at h
      exact ⟨f2, h2, hmove, rfl, h⟩
    | false =>
      simp only [hkeep, Bool.not_false, if_true] at h
      obtain ⟨_, f3, h4, h⟩ := bind_eq_ok_iff.1 h
      exact ⟨f3, h2, hmove, h4, h⟩
  · simp only [hfile, Bool.not_false, if_true] at h
    obtain ⟨_, _, h4, -⟩ := bind_eq_ok_iff.1 h
    cases h4

/-- What is done in the scratch directory, around the call of the toolchain. -/
theorem work_eq (t : Toolchain) (job : Job) (name : String) (skeleton : Skeleton)
    (rendered : Rendered) (scratch : Path) :
    (do
      layOut .never (scratch.child "fmu") skeleton rendered
      addLibrary .never t (scratch.child "fmu") (scratch.child "build") name job.platform
      if !job.keepSources then dropSources .never (scratch.child "fmu")
      publish .never (scratch.child "fmu") (scratch.child (name ++ ".zip")) job.output) =
    (do
      layOut .never (scratch.child "fmu") skeleton rendered
      createDirectory .never (scratch.child "build")
      let library ← t.compile (requestFor scratch name job.platform)
      finish job name scratch library) := by
  refine bind_congr fun _ => ?_
  simp only [addLibrary, bind_assoc]
  refine bind_congr fun _ => bind_congr fun library => bind_congr fun found => ?_
  cases found with
  | true =>
    simp only [Bool.not_true, Bool.false_eq_true, if_false, bind_assoc]
  | false =>
    simp only [Bool.not_false, if_true, bind_assoc]

/-- After a build has worked in its scratch directory, that directory is gone. -/
theorem exists_work_of_use {α : Type} {directory : Path} {name : String} {x : α}
    {work : Scratch → Action PackageError α}
    (h : Scratch.use (Scratch.create directory name) work f₀ = (.ok x, g)) :
    ∃ scratch f1 f2, Scratch.create directory name f₀ = (.ok scratch, f1) ∧
      work scratch f1 = (.ok x, f2) ∧ g = (scratch.remove f2).2 := by
  obtain ⟨scratch, f1, hcreate, h⟩ := bind_eq_ok_iff.1 h
  obtain ⟨f2, hwork, hremove⟩ := andFinally_eq_ok h
  exact ⟨scratch, f1, f2, hcreate, hwork, hremove⟩

/-- A build that has succeeded has called its toolchain and gone on from what came back. -/
theorem exists_finish_of_build {report : Report} (h : build m job t occasion f = (.ok report, g)) :
    ∃ destination skeleton rendered scratch prepared library compiled entries finished,
      Destination.check f job.output = .ok destination ∧
      Skeleton.open? f job.runtimeDirectory = .ok skeleton ∧
      render m destination.name job.stepSize occasion = .ok rendered ∧
      prepare destination skeleton rendered f = (.ok scratch, prepared) ∧
      t.compile (requestFor scratch.path destination.name job.platform) prepared =
        (.ok library, compiled) ∧
      finish job destination.name scratch.path library compiled = (.ok entries, finished) ∧
      g = (scratch.remove finished).2 ∧
      report = {
        identifier := destination.name, guid := rendered.identity.occasion.guid,
        platform := job.platform, nx := m.nx, nu := m.nu, ny := m.ny,
        nr := m.layout.registerCount, stepSize := job.stepSize, toolchain := t.name,
        archive := job.output, entries := entries, milliseconds := 0 } := by
  obtain ⟨destination, f1, h1, h⟩ := bind_eq_ok_iff.1 h
  obtain ⟨hcheck, rfl⟩ := look_eq_ok h1
  obtain ⟨skeleton, f2, h2, h⟩ := bind_eq_ok_iff.1 h
  rw [openUnder_never] at h2
  obtain ⟨hopen, rfl⟩ := look_eq_ok h2
  obtain ⟨rendered, f3, h3, h⟩ := bind_eq_ok_iff.1 h
  obtain ⟨hrender, rfl⟩ := look_eq_ok h3
  obtain ⟨entries, f4, huse, h⟩ := bind_eq_ok_iff.1 h
  obtain ⟨rfl, rfl⟩ := pure_eq_ok h
  rw [enter_never] at huse
  obtain ⟨scratch, created, finished, hcreate, hwork, rfl⟩ := exists_work_of_use huse
  dsimp only at hwork
  rw [work_eq] at hwork
  obtain ⟨_, laid, hlay, hwork⟩ := bind_eq_ok_iff.1 hwork
  obtain ⟨_, prepared, hbuild, hwork⟩ := bind_eq_ok_iff.1 hwork
  obtain ⟨library, compiled, hcompile, hfinish⟩ := bind_eq_ok_iff.1 hwork
  refine ⟨destination, skeleton, rendered, scratch, prepared, library, compiled, entries, finished,
    hcheck, hopen, hrender, ?_, hcompile, hfinish, rfl, rfl⟩
  exact bind_eq_ok_iff.2 ⟨_, _, hcreate, bind_eq_ok_iff.2 ⟨_, _, hlay,
    bind_eq_ok_iff.2 ⟨_, _, hbuild, rfl⟩⟩⟩

/-! ## The steps of a build that has succeeded -/

theorem holding_create {directory : Path} {name : String} (hname : isName name = true)
    (hs : (Scratch.pathFor directory name).locationFrom f₀.here = s) {scratch : Scratch}
    (h : Scratch.create directory name f₀ = (.ok scratch, f)) :
    Holding f₀ s (fun _ => none) f ∧ scratch.path = Scratch.pathFor directory name ∧
      ScratchAt f₀ scratch.path s := by
  obtain ⟨hworking, hpath, hscratch⟩ := (triple_create .never hname hs).of_ok rfl h
  refine ⟨⟨hworking, hworking.agree.here, fun way => ?_⟩, hpath, hscratch⟩
  obtain ⟨_, f1, h1, h2⟩ := bind_eq_ok_iff.1 h
  obtain ⟨-, rfl⟩ := pure_eq_ok h2
  rw [held_createDirectory (createDirectory_of_perform (wrap_eq_ok h1))]
  exact held_of_none (f₀.get?_eq_none_of_new hscratch.new (inside_tree way).1)

/-- When the toolchain is called, the sources, the skeleton and the descriptor are laid out. -/
theorem holding_prepare {destination : Destination} {skeleton : Skeleton} {rendered : Rendered}
    {scratch : Scratch} {directory : Path} {prepared : Files}
    (hopen : Skeleton.open? f₀ directory = .ok skeleton)
    (hs : (Scratch.pathFor destination.directory destination.name).locationFrom f₀.here = s)
    (h : prepare destination skeleton rendered f₀ = (.ok scratch, prepared)) :
    scratch.path = Scratch.pathFor destination.directory destination.name ∧
      ScratchAt f₀ scratch.path s ∧ ∃ v, Holding f₀ s v prepared ∧
        ∀ way content, v way = some content ↔ LaidOut f₀ skeleton rendered way content := by
  obtain ⟨scratch', created, hcreate, h⟩ := bind_eq_ok_iff.1 h
  obtain ⟨_, laid, hlay, h⟩ := bind_eq_ok_iff.1 h
  obtain ⟨_, f3, hbuild, h⟩ := bind_eq_ok_iff.1 h
  obtain ⟨rfl, rfl⟩ := pure_eq_ok h
  obtain ⟨hholding, hpath, hscratch⟩ := holding_create destination.isName hs hcreate
  obtain ⟨v, hlaid, hv⟩ := holding_layOut hholding hscratch
    (fun name hname => by
      obtain ⟨hd, hnames⟩ := mem_names_of_open? hopen
      rw [hd]
      exact (hnames name).1 hname) hlay
  exact ⟨hpath, hscratch, v, hlaid.createDirectory hscratch (.child .self isFileName_build) hbuild,
    hv⟩

/-- What is packed of a tree into which a library is moved: nothing of the sources if they are left
out, and nothing at the place that the library comes from. -/
def packedTable (job : Job) (name : String) (s source : Location) (library : Content)
    (v : Location → Option Content) (way : Location) : Option Content :=
  if job.keepSources = false ∧ isBelow way ["sources"] = true then none
  else if way = [job.platform.libraryName name, job.platform.id, "binaries"] then some library
  else if way ++ treeAt s = source then none
  else v way

theorem Holds.finish {v : Location → Option Content} (hf : Holds w s v f) {scratch library : Path}
    (hscratch : scratch.locationFrom w = s) {name : String} (hname : isName name = true)
    {entries : List String} (h : finish job name scratch library f = (.ok entries, g)) :
    ∃ content files x, f.content? library = .ok content ∧ entries = files.map Prod.fst ∧
      g.here = w ∧ g.find? job.output = .ok (job.output.locationFrom w, .file (.archive files) x) ∧
      (files.map Prod.fst).Pairwise (fun a b => Text.bytes a < Text.bytes b) ∧
      ∀ entry content', (entry, content') ∈ files ↔ ∃ way,
        packedTable job name s (library.locationFrom w) content v way = some content' ∧
          entry = Archive.nameOf way := by
  obtain ⟨hfile, f1, f2, f3, hbinaries, hmove, hdrop, hpublish⟩ := finish_eq_ok h
  obtain ⟨content, hcontent⟩ := exists_content?_of_isFile hfile
  have htarget : ((((scratch.child "fmu").child "binaries").child job.platform.id).child
      (job.platform.libraryName name)).locationFrom w =
        [job.platform.libraryName name, job.platform.id, "binaries"] ++ treeAt s := by
    rw [locationFrom_child (isFileName_libraryName job.platform hname),
      locationFrom_child (isFileName_id job.platform),
      locationFrom_child (isFileName_of_length (by decide) (by decide)),
      locationFrom_tree hscratch]
    rfl
  have hf1 := hf.createDirectory hbinaries
  obtain ⟨content', hheld, hf2⟩ := hf1.move htarget hmove
  have hsame := held_of_content? hcontent
  rw [hf.here, ← held_createDirectories (createDirectories_of_perform (wrap_eq_ok hbinaries)),
    hheld, Option.some.injEq] at hsame
  subst hsame
  have hf3 : Holds w s (packedTable job name s (library.locationFrom w) content' v) f3 := by
    cases hkeep : job.keepSources with
    | true =>
      rw [hkeep, if_pos rfl] at hdrop
      subst hdrop
      refine ⟨hf2.here, fun way => ?_⟩
      rw [hf2.held]
      simp only [packedTable, hkeep, Bool.true_eq_false, false_and, if_false]
    | false =>
      rw [hkeep, if_neg Bool.false_ne_true] at hdrop
      refine ⟨(hf2.dropSources hscratch hdrop).here, fun way => ?_⟩
      rw [(hf2.dropSources hscratch hdrop).held]
      simp only [packedTable, hkeep, true_and]
  obtain ⟨files, x, hentries, hhere, hfind, hascending, hmem⟩ := hf3.publish hscratch hpublish
  exact ⟨content', files, x, hcontent, hentries, hhere, hfind, hascending, hmem⟩

/-- The texts of a model. -/
theorem render_of (m : StateSpace Float) {name : String} (hname : isName name = true)
    (hstep : Render.validStepSize step = true) (occasion : Occasion) :
    render m name step occasion = .ok ⟨⟨name, hname, occasion⟩,
      Render.textOf (Render.sourceLines m ⟨name, hname, occasion⟩ step),
      Render.textOf (Render.descriptorLines m ⟨name, hname, occasion⟩)⟩ := by
  have hid : Render.identify name occasion = .ok ⟨name, hname, occasion⟩ := by
    rw [Render.identify, Identity.make?, dif_pos hname]
  have hlayout : Render.checkLayout m m.layout = .ok () := if_pos rfl
  simp only [render, hid, Render.source, Render.descriptor, hlayout, hstep, bind, Except.bind]
  generalize Render.textOf (Render.sourceLines m ⟨name, hname, occasion⟩ step) = source
  generalize Render.textOf (Render.descriptorLines m ⟨name, hname, occasion⟩) = descriptor
  rfl

/-- Texts are put together for the names and the step sizes that are accepted only. -/
theorem accepted_of_render {name : String} {rendered : Rendered}
    (h : render m name step occasion = .ok rendered) :
    isName name = true ∧ Render.validStepSize step = true := by
  by_cases hname : isName name = true
  · have hid : Render.identify name occasion = .ok ⟨name, hname, occasion⟩ := by
      rw [Render.identify, Identity.make?, dif_pos hname]
    have hlayout : Render.checkLayout m m.layout = .ok () := if_pos rfl
    refine ⟨hname, ?_⟩
    by_contra hstep
    rw [Bool.not_eq_true] at hstep
    simp only [render, hid, Render.source, hlayout, hstep] at h
    cases h
  · have hid : Render.identify name occasion = .error (.badName name) := by
      rw [Render.identify, Identity.make?, dif_neg hname]
    rw [render, hid] at h
    cases h

theorem render_eq_ok {name : String} {rendered : Rendered}
    (h : render m name step occasion = .ok rendered) :
    rendered.identity.name = name ∧ rendered.identity.occasion = occasion ∧
      rendered.source = Render.textOf (Render.sourceLines m rendered.identity step) ∧
      rendered.descriptor = Render.textOf (Render.descriptorLines m rendered.identity) := by
  obtain ⟨hname, hstep⟩ := accepted_of_render h
  have hrendered := Except.ok.inj (h.symm.trans (render_of m hname hstep occasion))
  subst hrendered
  refine ⟨rfl, rfl, ?_, ?_⟩ <;> dsimp only

/-- If the library does not come from among the files that are packed, what is packed is what is to
be. -/
theorem packedTable_eq_some_iff {skeleton : Skeleton} {rendered : Rendered}
    {v : Location → Option Content} {source : Location} {library content : Content}
    {way : Location} (hopen : Skeleton.open? f₀ job.runtimeDirectory = .ok skeleton)
    (hv : ∀ way content, v way = some content ↔ LaidOut f₀ skeleton rendered way content)
    (hsource : ∀ way, way ++ treeAt s = source →
      job.keepSources = false ∧ isBelow way ["sources"] = true) :
    packedTable job rendered.identity.name s source library v way = some content ↔
      PacksAt f₀ job rendered library way content := by
  rw [packsAt_iff hopen, packedTable]
  by_cases hdropped : job.keepSources = false ∧ isBelow way ["sources"] = true
  · rw [if_pos hdropped]
    simp [hdropped.1, hdropped.2]
  · have hkept : job.keepSources = true ∨ ¬isBelow way ["sources"] = true := by
      rwa [not_and_or, Bool.not_eq_false] at hdropped
    rw [if_neg hdropped, and_iff_right hkept]
    by_cases hway :
        way = [job.platform.libraryName rendered.identity.name, job.platform.id, "binaries"]
    · have hnot : ¬LaidOut f₀ skeleton rendered way content := by
        intro h
        cases h <;> simp at hway
      rw [if_pos hway, Option.some.injEq, or_iff_left hnot, and_iff_right hway, eq_comm]
    · rw [if_neg hway, if_neg fun heq => hdropped (hsource way heq), hv]
      simp [hway]

/-- The files in an archive are those of a unit, in the order of their names. -/
structure Packed (f : Files) (job : Job) (rendered : Rendered) (library : Content)
    (files : List (String × Content)) : Prop where
  ascending : (files.map Prod.fst).Pairwise fun a b => Text.bytes a < Text.bytes b
  packed : ∀ name content, (name, content) ∈ files ↔ Packs f job rendered library name content

theorem not_packs_iff {scratch : Path} {name : String} {platform : Platform} {keep : Bool}
    {l : Location} (hscratch : scratch.locationFrom w = s) :
    ¬(requestFor scratch name platform).Packs keep w l ↔
      ∀ way, way ++ treeAt s = l → keep = false ∧ isBelow way ["sources"] = true := by
  have hsources : (requestFor scratch name platform).sources.locationFrom w =
      ["sources"] ++ treeAt s := locationFrom_sources hscratch
  rw [Toolchain.Request.Packs, tree_requestFor hscratch, hsources]
  constructor
  · rintro h way rfl
    rw [isBelow_iff, isBelow_iff, List.suffix_append_self_iff, ← isBelow_iff, ← isBelow_iff] at h
    have hb : isBelow (way ++ treeAt s) (treeAt s) = true :=
      isBelow_iff.2 (List.suffix_append way _)
    simpa [hb] using h
  · rintro h ⟨hb, hkept⟩
    obtain ⟨way, rfl⟩ := isBelow_iff.1 hb
    obtain ⟨hkeep, hway⟩ := h way rfl
    rw [isBelow_iff, List.suffix_append_self_iff, ← isBelow_iff] at hkept
    simp [hkeep, hway] at hkept

/-- What is found away from a scratch directory stays there when the directory is removed. -/
theorem find?_remove {scratch : Scratch} {output : Path}
    (h : output.Avoids f.here fun l => isBelow l (scratch.path.locationFrom f.here) = true) :
    (scratch.remove f).2.find? output = f.find? output := by
  rw [Scratch.remove, Action.change]
  cases hremove : f.removeDirectory scratch.path with
  | error e => rfl
  | ok g =>
    obtain ⟨hne, rfl⟩ := removeBelow_of_removeDirectory hremove
    exact find?_congr (agree_removeBelow f hne) h

/-- What is held below the tree of a unit, by the ways that lead there. -/
def heldIn (s : Location) (f : Files) (way : Location) : Option Content := f.held (way ++ treeAt s)

/-- How a build that has succeeded came to its archive: what it settled and what its toolchain
brought, what it packed, and how that is found. -/
structure Making (m : StateSpace Float) (job : Job) (t : Toolchain) (occasion : Occasion)
    (f g : Files) where
  destination : Destination
  skeleton : Skeleton
  rendered : Rendered
  scratch : Path
  /-- The files when the toolchain is asked for the library. -/
  prepared : Files
  /-- The files when it comes back with a path. -/
  compiled : Files
  path : Path
  library : Content
  files : List (String × Content)
  check : Destination.check f job.output = .ok destination
  opened : Skeleton.open? f job.runtimeDirectory = .ok skeleton
  texts : render m destination.name job.stepSize occasion = .ok rendered
  asks : Asks m job occasion f (requestFor scratch destination.name job.platform) prepared
  here : prepared.here = f.here
  laid : ∀ way content, heldIn (scratch.locationFrom f.here) prepared way = some content ↔
    LaidOut f skeleton rendered way content
  compile : t.compile (requestFor scratch destination.name job.platform) prepared =
    (.ok path, compiled)
  content : compiled.content? path = .ok library
  ascending : (files.map Prod.fst).Pairwise fun a b => Text.bytes a < Text.bytes b
  table : ∀ entry content, (entry, content) ∈ files ↔ ∃ way,
    packedTable job destination.name (scratch.locationFrom f.here) (path.locationFrom f.here)
      library (heldIn (scratch.locationFrom f.here) compiled) way = some content ∧
        entry = Archive.nameOf way
  found : ∃ x, g.find? job.output = .ok (job.output.locationFrom f.here, .file (.archive files) x)

/-- What the build reports. -/
def Making.report (x : Making m job t occasion f g) : Report where
  identifier := x.destination.name
  guid := x.rendered.identity.occasion.guid
  platform := job.platform
  nx := m.nx
  nu := m.nu
  ny := m.ny
  nr := m.layout.registerCount
  stepSize := job.stepSize
  toolchain := t.name
  archive := job.output
  entries := x.files.map Prod.fst
  milliseconds := 0

/-- A build that succeeds has come to an archive, and reports of it. -/
theorem exists_making {report : Report}
    (hhere : ∀ r prepared, Asks m job occasion f₀ r prepared →
      (t.compile r prepared).2.here = prepared.here)
    (h : build m job t occasion f₀ = (.ok report, g)) :
    ∃ x : Making m job t occasion f₀ g, report = x.report := by
  obtain ⟨destination, skeleton, rendered, scratch, prepared, path, compiled, entries, finished,
    hcheck, hopen, hrender, hprepare, hcompile, hfinish, rfl, rfl⟩ := exists_finish_of_build h
  have hasks : Asks m job occasion f₀ _ prepared :=
    ⟨destination, skeleton, rendered, scratch, hcheck, hopen, hrender, hprepare, rfl⟩
  have hsame := hhere _ _ hasks
  rw [hcompile] at hsame
  obtain ⟨hfile, hdirectory, hthere⟩ := Destination.check_eq_ok hcheck
  have houtput := not_isBelow_scratch hcheck f₀.here
  generalize hs : (Scratch.pathFor destination.directory destination.name).locationFrom f₀.here = s
    at houtput
  obtain ⟨hpath, hscratch, v, hholding, hv⟩ := holding_prepare hopen hs hprepare
  have hholds : Holds f₀.here s (heldIn s compiled) compiled :=
    ⟨hsame.trans hholding.holds.here, fun _ => rfl⟩
  obtain ⟨content, files, x, hcontent, rfl, hfinished, hfind, hascending, hmem⟩ :=
    hholds.finish hscratch.location destination.isName hfinish
  have havoids : job.output.Avoids f₀.here fun l => isBelow l s = true := by
    refine (avoids_output hfile).2
      ⟨avoids_of_isDirectory (hdirectory ▸ hthere) hscratch.new, ?_⟩
    rwa [← Destination.locationFrom_directoryOf hfile]
  rw [← hscratch.location] at hmem
  have hlaid : ∀ way content, heldIn (scratch.path.locationFrom f₀.here) prepared way =
      some content ↔ LaidOut f₀ skeleton rendered way content := by
    intro way content
    rw [hscratch.location, heldIn, hholding.holds.held, hv]
  exact ⟨{
    destination, skeleton, rendered, scratch := scratch.path, prepared, compiled, path,
    library := content, files, check := hcheck, opened := hopen, texts := hrender, asks := hasks,
    here := hholding.holds.here, laid := hlaid, compile := hcompile, content := hcontent,
    ascending := hascending, table := hmem,
    found := ⟨x, by rw [find?_remove (by rwa [hfinished, hscratch.location]), hfind]⟩ }, rfl⟩

theorem isFileName_of_packedTable {name : String} (hname : isName name = true)
    {source way : Location} {library content : Content}
    (h : packedTable job name s source library (heldIn s f) way = some content) :
    ∀ part ∈ way, isFileName part = true := by
  have hbinaries : isFileName "binaries" = true :=
    isFileName_of_length (by decide) (by decide)
  rw [packedTable] at h
  split at h
  · cases h
  · split at h
    · rename_i hway
      rw [hway]
      simp [isFileName_libraryName job.platform hname, isFileName_id,
        hbinaries]
    · split at h
      · cases h
      · obtain ⟨_, hget⟩ := held_eq_some_iff.1 h
        exact fun part hpart => f.isFileName_of_mem hget part (List.mem_append_left _ hpart)

/-- A way of file names has an entry of its own in the archive. -/
theorem mem_packedTable_iff {name : String} (hname : isName name = true)
    {source way : Location} {library content : Content} {files : List (String × Content)}
    (hmem : ∀ entry content, (entry, content) ∈ files ↔ ∃ way,
      packedTable job name s source library (heldIn s f) way = some content ∧
        entry = Archive.nameOf way)
    (hway : ∀ part ∈ way, isFileName part = true) :
    (Archive.nameOf way, content) ∈ files ↔
      packedTable job name s source library (heldIn s f) way = some content := by
  rw [hmem]
  constructor
  · rintro ⟨way', htable, heq⟩
    rwa [Archive.nameOf_injective hway (isFileName_of_packedTable hname htable) heq]
  · exact fun htable => ⟨way, htable, rfl⟩

/-- A toolchain that spares the tree leaves what is held there. -/
theorem heldIn_of_spares {scratch : Path} {name : String} {prepared compiled : Files}
    {r : Except PackageError Path}
    (hspares : t.Spares (requestFor scratch name job.platform) prepared)
    (hcompile : t.compile (requestFor scratch name job.platform) prepared = (r, compiled)) :
    heldIn (scratch.locationFrom prepared.here) compiled =
      heldIn (scratch.locationFrom prepared.here) prepared := by
  rw [Toolchain.Spares, hcompile, tree_requestFor rfl] at hspares
  exact funext ((⟨rfl, fun _ => rfl⟩ : Holds prepared.here (scratch.locationFrom prepared.here)
    (heldIn (scratch.locationFrom prepared.here) prepared) prepared).agree hspares).held

namespace Making

variable (x : Making m job t occasion f₀ g)

/-- The files of the unit are packed, if the toolchain spares the tree and comes back with none of
them. -/
theorem packed
    (hspares : ∀ r prepared, Asks m job occasion f₀ r prepared → t.Spares r prepared)
    (hapart : ∀ r prepared, Asks m job occasion f₀ r prepared →
      t.BringsApart job.keepSources r prepared) : Packed f₀ job x.rendered x.library x.files := by
  have hbrings := hapart _ _ x.asks _ _ x.compile (isFile_of_content? x.content)
  have htable := heldIn_of_spares (hspares _ _ x.asks) x.compile
  rw [x.here] at htable hbrings
  rw [not_packs_iff rfl] at hbrings
  refine ⟨x.ascending, fun entry content => ?_⟩
  rw [x.table, htable, packs_iff, ← (render_eq_ok x.texts).1]
  simp only [packedTable_eq_some_iff x.opened x.laid hbrings]

/-- If the toolchain spares the tree but takes the source for the library, no source is packed. -/
theorem not_mem_entries_of_source
    (hspares : ∀ r prepared, Asks m job occasion f₀ r prepared → t.Spares r prepared)
    (hsource : ∀ r prepared p compiled, Asks m job occasion f₀ r prepared →
      t.compile r prepared = (.ok p, compiled) → p = r.sources.child Source.fileName) :
    "sources/fmi2model.c" ∉ x.report.entries := by
  have htable := heldIn_of_spares (hspares _ _ x.asks) x.compile
  have hpath : x.path.locationFrom f₀.here =
      [Source.fileName, "sources"] ++ treeAt (x.scratch.locationFrom f₀.here) := by
    rw [hsource _ _ _ _ x.asks x.compile, requestFor,
      locationFrom_child (isFileName_of_length (by decide) (by decide)), locationFrom_sources rfl]
    rfl
  have hmem := x.table
  rw [x.here] at htable
  rw [htable, hpath] at hmem
  intro hentry
  obtain ⟨⟨entry, content⟩, hfile, hname⟩ := List.mem_map.1 hentry
  obtain ⟨way, hway, rfl⟩ := (hmem _ _).1 hfile
  rw [packedTable] at hway
  split at hway
  · cases hway
  · split at hway
    · rename_i hlibrary
      rw [hlibrary, nameOf_library] at hname
      have hchars := congrArg String.toList hname
      simp at hchars
    · split at hway
      · cases hway
      · rename_i hne
        cases (x.laid _ _).1 hway with
        | source => exact hne rfl
        | header =>
          rw [nameOf_header] at hname
          have hchars := congrArg String.toList hname
          simp at hchars
        | descriptor =>
          have hother : Archive.nameOf [Descriptor.fileName] ≠ "sources/fmi2model.c" := by decide
          exact hother hname

end Making

/-! ## Names in an archive -/

/-- The names of the directories that a unit is built in and below. -/
def scratchNames (name : String) : List String := ["." ++ name ++ ".fmu-build", "fmu", "build"]

theorem not_mem_scratchNames {name part : String} (hdirs : part ∉ ["fmu", "build"])
    (hdot : part.toList.head? ≠ some '.') : part ∉ scratchNames name := by
  rw [scratchNames, List.mem_cons, not_or]
  refine ⟨?_, hdirs⟩
  rintro rfl
  exact hdot (by simp)

theorem id_not_mem_scratchNames (platform : Platform) (name : String) :
    platform.id ∉ scratchNames name := by
  have hhead : platform.id.toList.head? ∈ [some 'w', some 'l', some 'd'] := by
    rw [Platform.id]
    cases platform.system <;> simp [OperatingSystem.name]
  refine not_mem_scratchNames (fun hmem => ?_) fun hdot => ?_
  · have hdirs : ∀ dir ∈ ["fmu", "build"], dir.toList.head? ∉ [some 'w', some 'l', some 'd'] := by
      decide
    exact hdirs _ hmem hhead
  · rw [hdot] at hhead
    simp at hhead

theorem libraryName_not_mem_scratchNames (platform : Platform) (name : String) :
    platform.libraryName name ∉ scratchNames name := by
  intro hmem
  rcases List.mem_cons.1 hmem with h | h
  · have hlength := congrArg String.length h
    have hextension : platform.system.libraryExtension.length ≤ 5 := by
      cases platform.system <;> decide
    have hending : ".fmu-build".length = 10 := rfl
    simp only [Platform.libraryName, String.length_append] at hlength
    omega
  · have hdirs : ∀ dir ∈ ["fmu", "build"], '.' ∉ dir.toList := by decide
    exact hdirs _ h (by simp [Platform.libraryName])

theorem isFileName_of_packsAt {rendered : Rendered} {library content : Content}
    {way : Location} (hname : isName rendered.identity.name = true)
    (h : PacksAt f job rendered library way content) : ∀ part ∈ way, isFileName part = true := by
  have hfixed : ∀ part ∈ ["modelDescription.xml", "binaries", "fmi2model.c", "sources", "include"],
      isFileName part = true := by
    intro part hpart
    refine isFileName_of_length ?_ ?_ <;>
    · revert part
      decide
  cases h with
  | descriptor => simp [hfixed]
  | library => simp [hfixed, isFileName_libraryName job.platform hname, isFileName_id]
  | source => simp [hfixed]
  | header _ proper => simp [hfixed, proper]

/-- Only the files of the skeleton can be named like a scratch directory. -/
theorem eq_header_of_scratchName {rendered : Rendered} {library content : Content}
    {entry part : String} (hname : isName rendered.identity.name = true)
    (h : Packs f job rendered library entry content) (hpart : part ∈ Text.pieces '/' entry)
    (hscratch : part ∈ scratchNames rendered.identity.name) :
    entry = "sources/include/" ++ part := by
  obtain ⟨way, hway, rfl⟩ := packs_iff.1 h
  have hne : way ≠ [] := by
    rintro rfl
    cases hway
  rw [Archive.pieces_nameOf (isFileName_of_packsAt hname hway) hne, List.mem_reverse] at hpart
  have hfixed : ∀ part ∈ ["modelDescription.xml", "binaries", "fmi2model.c", "sources", "include"],
      part ∉ ["fmu", "build"] ∧ part.toList.head? ≠ some '.' := by decide
  have hapart : ∀ part ∈ ["modelDescription.xml", "binaries", "fmi2model.c", "sources", "include"],
      part ∉ scratchNames rendered.identity.name := fun part hmem =>
    not_mem_scratchNames (hfixed part hmem).1 (hfixed part hmem).2
  cases hway with
  | descriptor =>
    rw [List.mem_singleton] at hpart
    exact absurd hscratch (hapart _ (by simp [hpart]))
  | library =>
    simp only [List.mem_cons, List.not_mem_nil, or_false] at hpart
    rcases hpart with rfl | rfl | rfl
    · exact absurd hscratch (libraryName_not_mem_scratchNames _ _)
    · exact absurd hscratch (id_not_mem_scratchNames _ _)
    · exact absurd hscratch (hapart _ (by simp))
  | source =>
    simp only [List.mem_cons, List.not_mem_nil, or_false] at hpart
    exact absurd hscratch (hapart _ (by rcases hpart with rfl | rfl <;> simp))
  | header =>
    simp only [List.mem_cons, List.not_mem_nil, or_false] at hpart
    rcases hpart with rfl | hpart
    · exact nameOf_header _
    · exact absurd hscratch (hapart _ (by rcases hpart with rfl | rfl <;> simp))

/-! ## The report -/

theorem keepSources_of_startsWith {rendered : Rendered} {library content : Content}
    {entry : String} (h : Packs f job rendered library entry content)
    (hstart : entry.startsWith "sources/" = true) : job.keepSources = true := by
  rw [String.startsWith_string_iff] at hstart
  cases h with
  | descriptor => exact absurd hstart (by decide)
  | library => simp at hstart
  | source keep => exact keep
  | header keep => exact keep

theorem Packed.any_startsWith {rendered : Rendered} {library : Content}
    {files : List (String × Content)} (h : Packed f job rendered library files) :
    (files.map Prod.fst).any (fun entry => entry.startsWith "sources/") = job.keepSources := by
  rw [Bool.eq_iff_iff, List.any_eq_true]
  constructor
  · rintro ⟨entry, hmem, hstart⟩
    obtain ⟨⟨_, content⟩, hfile, rfl⟩ := List.mem_map.1 hmem
    exact keepSources_of_startsWith ((h.packed _ _).1 hfile) hstart
  · intro hkeep
    have hmem := (h.packed _ _).2 (.source hkeep)
    refine ⟨"sources/fmi2model.c", List.mem_map.2 ⟨_, hmem, rfl⟩, ?_⟩
    rw [String.startsWith_string_iff]
    decide

/-- A unit of a model as a build has packed it, and what the build reports of it: `files` are in the
archive, `rendered` are the texts that are packed, and `library` is what the toolchain has left. -/
structure PacksUnit (m : StateSpace Float) (job : Job) (t : Toolchain) (occasion : Occasion)
    (f g : Files) (report : Report) (files : List (String × Content)) (rendered : Rendered)
    (library : Content) : Prop where
  identifier : job.output.stem? = some report.identifier
  texts : render m report.identifier job.stepSize occasion = .ok rendered
  left : Leaves m job t occasion f library
  archive : ∃ l x, g.find? job.output = .ok (l, .file (.archive files) x)
  entries : report.entries = files.map Prod.fst
  ascending : report.entries.Pairwise fun a b => Text.bytes a < Text.bytes b
  packed : ∀ name content, (name, content) ∈ files ↔ Packs f job rendered library name content
  named : rendered.identity.name = report.identifier
  /-- The directories that the unit was built in have left no trace in the names. -/
  apart : ∀ entry ∈ report.entries, ∀ part ∈ Text.pieces '/' entry,
    part ∈ scratchNames report.identifier → entry = "sources/include/" ++ part
  descriptorGuid : ∃ root, Xml.read? rendered.descriptor = some root ∧
    root.attribute? "guid" = some report.guid.text
  sourceGuid : Source.under "MODEL_GUID" (Source.macros rendered.source) =
    [["\"" ++ report.guid.text ++ "\""]]
  sourceName : Source.under "MODEL_IDENTIFIER" (Source.macros rendered.source) =
    [[report.identifier]]
  registers : ∃ d, Descriptor.interface? rendered.descriptor = some d ∧ d.entries.length = report.nr
  hasSources : report.hasSources = job.keepSources

/-- What a build is to pack if it succeeds. -/
def PacksIfOk (m : StateSpace Float) (job : Job) (t : Toolchain) (occasion : Occasion) (f : Files) :
    Except PackageError Report × Files → Prop
  | (.error _, _) => True
  | (.ok report, g) =>
    ∃ files rendered library, PacksUnit m job t occasion f g report files rendered library

theorem packsUnit_of_build {report : Report}
    (hspares : ∀ r prepared, Asks m job occasion f₀ r prepared → t.Spares r prepared)
    (hapart : ∀ r prepared, Asks m job occasion f₀ r prepared →
      t.BringsApart job.keepSources r prepared)
    (h : build m job t occasion f₀ = (.ok report, g)) :
    ∃ files rendered library, PacksUnit m job t occasion f₀ g report files rendered library := by
  obtain ⟨x, rfl⟩ := exists_making (fun r prepared hasks => (hspares r prepared hasks).here) h
  obtain ⟨hname, -, hsource, hdescriptor⟩ := render_eq_ok x.texts
  have hpacked := x.packed hspares hapart
  have hleaves : Leaves m job t occasion f₀ x.library :=
    ⟨_, x.prepared, x.path, x.compiled, x.asks, x.compile, x.content⟩
  obtain ⟨executable, hfind⟩ := x.found
  refine ⟨x.files, x.rendered, x.library, Destination.stem?_of_check x.check, x.texts, hleaves,
    ⟨_, executable, hfind⟩, rfl, hpacked.ascending, hpacked.packed, hname, ?_, ?_, ?_, ?_, ?_,
    hpacked.any_startsWith⟩
  · intro entry hentry part hpart hscratch
    obtain ⟨⟨_, content⟩, hmem, rfl⟩ := List.mem_map.1 hentry
    have hisName : isName x.rendered.identity.name = true := hname ▸ x.destination.isName
    exact eq_header_of_scratchName hisName ((hpacked.packed _ _).1 hmem) hpart (hname ▸ hscratch)
  · rw [hdescriptor]
    exact Descriptor.read?_descriptor m x.rendered.identity
  · rw [hsource]
    exact Source.under_MODEL_GUID m x.rendered.identity job.stepSize
  · rw [hsource, Source.under_MODEL_IDENTIFIER, hname]
    rfl
  · rw [hdescriptor]
    refine ⟨_, Descriptor.interface?_descriptor m x.rendered.identity, ?_⟩
    rw [Descriptor.interfaceOf, Layout.length_spread]
    rfl

end Package

/-- Files with a directory `runtime` that has the files of a skeleton, all of them empty. -/
def Files.furnished : Files where
  entries := (["runtime"], .directory) ::
    Package.Skeleton.required.map fun name => ([name, "runtime"], .file (.data .empty) false)
  here := []
  unique := by decide
  grounded := by
    rintro ⟨l, e⟩ h
    rcases List.mem_cons.1 h with h | h
    · cases h
      exact ⟨"runtime", [], rfl, .inl rfl⟩
    · obtain ⟨name, -, h⟩ := List.mem_map.1 h
      cases h
      exact ⟨name, ["runtime"], rfl, .inr (List.mem_cons_self ..)⟩
  proper := by
    have hlong : ∀ name ∈ "runtime" :: Package.Skeleton.required,
        3 ≤ name.length ∧ '/' ∉ name.toList := by decide
    have hproper : ∀ name ∈ "runtime" :: Package.Skeleton.required,
        Path.isFileName name = true := fun name h =>
      Path.isFileName_of_length (hlong name h).1 (hlong name h).2
    rintro ⟨l, e⟩ h name hname
    rcases List.mem_cons.1 h with h | h
    · cases h
      cases hname
      exact hproper _ (List.mem_cons_self ..)
    · obtain ⟨name', hrequired, h⟩ := List.mem_map.1 h
      cases h
      cases hname
      exact hproper _ (List.mem_cons_of_mem _ hrequired)

end LtiUnit
