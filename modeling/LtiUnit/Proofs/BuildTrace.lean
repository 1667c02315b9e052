import LtiUnit.Package.Build
import LtiUnit.Proofs.Destination
import LtiUnit.Proofs.FileNames
import LtiUnit.Proofs.OpenedSkeleton
import LtiUnit.Proofs.Scratch

/-!
# LtiUnit.Proofs.BuildTrace

What a build leaves behind, whatever goes wrong on the way: nothing if it fails, and an archive alone
if it succeeds (`triple_build`).

Every step of a build keeps to the scratch directory, because every path that it changes leads below
it, and so does a step that is cut short. The one exception is the last step, which puts the archive
in its place (`Published`).
-/

namespace LtiUnit

open LtiUnit.Files LtiUnit.Path LtiUnit.Action Toolchain.Request

/-- Whether a toolchain keeps to the directory that it is asked to work in. -/
structure Toolchain.Confined (t : Toolchain) : Prop where
  agree : ∀ r : Request, ∀ f, isName r.identifier = true →
    AgreeOutside (fun l => isBelow l (r.build.locationFrom f.here) = true) f (t.compile r f).2
  library : ∀ r : Request, ∀ f p g, isName r.identifier = true → t.compile r f = (.ok p, g) →
    isBelow (p.locationFrom f.here) (r.build.locationFrom f.here) = true

namespace Package

variable {f₀ f g : Files} {s : Location} {scratch tree : Path}

/-! ## The steps of a build -/

section Steps

variable (faults : Faults)

theorem stays_layOut (h : ScratchAt f₀ scratch s) (ht : Descends scratch tree)
    {skeleton : Skeleton} (hnames : ∀ name ∈ skeleton.names, isFileName name = true)
    (rendered : Rendered) : Stays f₀ s (layOut faults tree skeleton rendered) := by
  have hsources : Descends scratch (sourcesIn tree) :=
    ht.child (isFileName_of_length (by decide) (by decide))
  have hheaders : Descends scratch ((sourcesIn tree).child "include") :=
    hsources.child (isFileName_of_length (by decide) (by decide))
  have hunit : LeadsInside f₀ s ((sourcesIn tree).child Source.fileName) :=
    hsources.leadsInside h (isFileName_of_length (by decide) (by decide))
  have hdescriptor : LeadsInside f₀ s (tree.child Descriptor.fileName) :=
    ht.leadsInside h (isFileName_of_length (by decide) (by decide))
  refine stays_bind (stays_wrap (hsources.stays_createDirectories faults h)) fun _ =>
    stays_bind (stays_wrap (stays_write faults hunit _)) fun _ =>
      stays_bind ?_ fun _ => stays_wrap (stays_write faults hdescriptor _)
  refine stays_bind (stays_wrap (hheaders.stays_createDirectories faults h)) fun _ => ?_
  refine stays_iff_triple.2 (triple_forM fun name hname => stays_iff_triple.1 ?_)
  exact stays_wrap (stays_copy faults (hheaders.leadsInside h (hnames name hname)) _)

theorem stays_dropSources (h : ScratchAt f₀ scratch s) (ht : Descends scratch tree) :
    Stays f₀ s (dropSources faults tree) :=
  stays_wrap (stays_removeDirectory faults
    (ht.leadsInside h (isFileName_of_length (by decide) (by decide))))

theorem triple_compile {t : Toolchain} (ht : t.Confined) {r : Toolchain.Request}
    (hname : isName r.identifier = true) (hbuild : LeadsInside f₀ s r.build) :
    Triple (Working f₀ s) (t.compile r) (fun p f => Working f₀ s f ∧ LeadsInside f₀ s p)
      (Working f₀ s) := by
  intro f hf
  have hagree := ht.agree r f hname
  have hlibrary := ht.library r f
  rw [hf.agree.here] at hagree hlibrary
  have hworking := hf.change hagree fun l hl => hbuild.below hl
  revert hworking hlibrary
  rcases t.compile r f with ⟨e | p, g⟩
  · exact fun _ => id
  · exact fun hlibrary hworking => ⟨hworking, hbuild.below (hlibrary p g hname rfl)⟩

theorem stays_addLibrary (h : ScratchAt f₀ scratch s) {build : Path} (htree : Descends scratch tree)
    (hbuild : Descends scratch build) (hinside : LeadsInside f₀ s build) {t : Toolchain}
    (ht : t.Confined) {name : String} (hname : isName name = true) (platform : Platform) :
    Stays f₀ s (addLibrary faults t tree build name platform) := by
  have hbinaries : Descends scratch ((tree.child "binaries").child platform.id) :=
    (htree.child (isFileName_of_length (by decide) (by decide))).child (isFileName_id platform)
  refine stays_bind (stays_wrap (hbuild.stays_createDirectories faults h)) fun _ => ?_
  refine stays_iff_triple.2 (triple_bind (triple_compile ht hname hinside) fun library => ?_)
  refine triple_of_fact fun hlibrary => stays_iff_triple.1 (stays_bind stays_look fun found => ?_)
  have hrest : Stays f₀ s (do
      createDirectory faults ((tree.child "binaries").child platform.id)
      wrap (PackageError.files .moving library) (perform faults
        (.move library (((tree.child "binaries").child platform.id).child
          (platform.libraryName name))))) :=
    stays_bind (stays_wrap (hbinaries.stays_createDirectories faults h)) fun _ =>
      stays_wrap (stays_move faults hlibrary
        (hbinaries.leadsInside h (isFileName_libraryName platform hname)))
  dsimp only
  split
  · exact stays_bind stays_throw fun _ => hrest
  · exact hrest

/-- Whether an archive with some files stands at a location. -/
def Archived (l : Location) (files : List (String × Content)) (f : Files) : Prop :=
  ∃ executable, f.get? l = some (.file (.archive files) executable)

theorem triple_writeArchive {archive : Path} (harchive : LeadsInside f₀ s archive)
    (files : List (String × Content)) :
    Triple (Working f₀ s) (perform faults (.write archive (.archive files)))
      (fun _ f => Working f₀ s f ∧ Archived (archive.locationFrom f₀.here) files f)
      (Working f₀ s) := by
  refine triple_perform faults (c := .write archive (.archive files))
    (triple_change (g := (·.write archive (.archive files))) (fun f g hf hw => ?_) fun _ => id) ?_
  · have hput := write_eq_ok hw
    refine ⟨hf.change_at harchive hput.agree, ?_⟩
    rw [← hf.agree.here]
    exact hput.there
  · intro f g hf hleft
    cases hleft with
    | unchanged => exact hf
    | written hw => exact hf.change_at harchive (write_eq_ok hw).agree

/-- By the files that are still to be added, with those that the archive holds by then. -/
theorem triple_addFiles {archive : Path} (harchive : LeadsInside f₀ s archive) (root : Path)
    (held more : List (String × Content)) :
    Triple (fun f => Working f₀ s f ∧ Archived (archive.locationFrom f₀.here) held f)
      (addFiles faults root archive held more)
      (fun _ f => Working f₀ s f ∧ Archived (archive.locationFrom f₀.here) (held ++ more) f)
      (Working f₀ s) := by
  induction more generalizing held with
  | nil =>
    rw [List.append_nil]
    exact triple_pure fun _ => id
  | cons file more ih =>
    have hrest := ih (held ++ [file])
    rw [List.append_assoc, List.singleton_append] at hrest
    refine triple_bind (R := fun _ => Working f₀ s)
      (triple_read faults (fun _ _ hf _ => hf.1) fun _ => And.left) fun _ => ?_
    exact triple_bind (triple_wrap (triple_writeArchive faults harchive _)) fun _ => hrest

theorem triple_pack {archive : Path} (harchive : LeadsInside f₀ s archive) (root : Path) :
    Triple (Working f₀ s) (packUnder faults root archive)
      (fun entries f => Working f₀ s f ∧ ∃ files, entries = files.map Prod.fst ∧
        Archived (archive.locationFrom f₀.here) files f)
      (Working f₀ s) := by
  refine triple_bind (R := fun _ => Working f₀ s)
    (triple_read faults (fun _ _ hf _ => hf) fun _ => id) fun d => ?_
  refine triple_bind (stays_iff_triple.1 stays_look) fun names => ?_
  refine triple_bind
    (triple_forM fun name _ => triple_read faults (fun _ _ hf _ => hf) fun _ => id) fun _ => ?_
  refine triple_bind (stays_iff_triple.1 stays_look) fun files => ?_
  refine triple_bind (triple_wrap (triple_writeArchive faults harchive [])) fun _ => ?_
  refine triple_bind (triple_addFiles faults harchive root [] files) fun _ => ?_
  exact triple_pure fun f hf => ⟨hf.1, files, rfl, hf.2⟩

end Steps

/-! ## The archive in its place -/

/-- The files once the archive stands at `l`, with the scratch directory still there. -/
structure Published (f₀ : Files) (s : Location) (output : Path) (l : Location)
    (files : List (String × Content)) (g : Files) : Prop where
  agree : AgreeOutside (fun k => isBelow k s = true ∨ k = l) f₀ g
  there : g.get? s = some .directory
  free : f₀.get? l ≠ some .directory
  archive : Archived l files g
  /-- The output is a name that some files during the build have a directory for. -/
  follow : ∃ (f : Files) (name : String) (d : Location) (proper : isFileName name = true),
    f.here = f₀.here ∧ l = name :: d ∧ f.follow output = .ok (.within name d false proper)

theorem Published.keeps {output : Path} {l : Location} {files : List (String × Content)}
    (hg : Published f₀ s output l files g) (hnew : f₀.get? s = none) : Keeps f₀ g :=
  hg.agree.keeps fun d hdirty hd => by
    rcases hdirty with hb | rfl
    · rw [f₀.get?_eq_none_of_new hnew hb] at hd
      cases hd
    · exact absurd hd hg.free

theorem published_of_move {archive output : Path} {files : List (String × Content)}
    (harchive : LeadsInside f₀ s archive)
    (houtput : ¬isBelow (output.locationFrom f₀.here) s = true) (hf : Working f₀ s f)
    (harchived : Archived (archive.locationFrom f₀.here) files f)
    (hmove : f.move archive output = .ok g) :
    Published f₀ s output (output.locationFrom f₀.here) files g := by
  obtain ⟨content, executable', name, d, proper, hsource, hfollow, hfree, htarget, hagree⟩ :=
    move_eq_ok hmove
  have hl : name :: d = output.locationFrom f₀.here := by
    rw [← hf.agree.here]
    exact location_of_follow hfollow
  rw [hf.agree.here] at hsource hagree
  rw [← hl] at houtput ⊢
  obtain ⟨_, harchived⟩ := harchived
  cases hsource.symm.trans harchived
  refine ⟨?_, ?_, ?_, ⟨_, htarget⟩, f, name, d, proper, hf.agree.here, rfl, hfollow⟩
  · refine (hf.agree.mono fun _ => .inl).trans (hagree.mono fun k hk => hk.imp_left ?_)
    rintro rfl
    exact harchive.1
  · rw [hagree.get? s (not_or.2 ⟨fun h => harchive.2 h.symm, ?_⟩), hf.there]
    rintro rfl
    exact houtput (isBelow_refl _)
  · rwa [hf.agree.get? _ houtput] at hfree

theorem triple_publish (faults : Faults) {archive output : Path}
    (harchive : LeadsInside f₀ s archive)
    (houtput : ¬isBelow (output.locationFrom f₀.here) s = true) (tree : Path) :
    Triple (Working f₀ s) (publish faults tree archive output)
      (fun entries g => ∃ files, entries = files.map Prod.fst ∧
        Published f₀ s output (output.locationFrom f₀.here) files g)
      (Working f₀ s) := by
  refine triple_bind (triple_pack faults harchive tree) fun entries => ?_
  refine triple_bind (R := fun _ g => ∃ files, entries = files.map Prod.fst ∧
    Published f₀ s output (output.locationFrom f₀.here) files g)
    (triple_wrap (triple_perform faults (c := .move archive output)
      (triple_change (g := (·.move archive output)) ?_ fun _ => And.left) ?_))
    fun _ => triple_pure fun _ => id
  · rintro f g ⟨hf, files, hentries, harchived⟩ hmove
    exact ⟨files, hentries, published_of_move harchive houtput hf harchived hmove⟩
  · intro f g hf hleft
    cases hleft with
    | unchanged => exact hf.1

/-! ## Creating and removing the scratch directory -/

/-- Where there was nothing below `s`, taking away what is there leaves no difference. -/
theorem agree_removeBelow_of_new {dirty : Location → Prop} (hnew : f₀.get? s = none)
    (hg : AgreeOutside (fun k => isBelow k s = true ∨ dirty k) f₀ g) :
    AgreeOutside dirty f₀ (g.removeBelow s) := by
  have hs : s ≠ [] := by
    rintro rfl
    cases hnew
  refine ⟨hg.here, fun k hk => ?_⟩
  rw [get?_removeBelow g hs]
  split
  · rename_i hb
    rw [f₀.get?_eq_none_of_new hnew hb]
  · rename_i hb
    exact hg.get? k (not_or.2 ⟨hb, hk⟩)

theorem triple_create (faults : Faults) {directory : Path} {name : String}
    (hname : isName name = true)
    (hs : (Scratch.pathFor directory name).locationFrom f₀.here = s) :
    Triple (· = f₀) (Scratch.createUnder faults directory name)
      (fun x f => (Working f₀ s f) ∧ x.path = Scratch.pathFor directory name ∧
        ScratchAt f₀ x.path s) (· = f₀) := by
  refine triple_bind
    (R := fun _ f => Working f₀ s f ∧ ScratchAt f₀ (Scratch.pathFor directory name) s)
    (triple_wrap (triple_perform faults (c := .createDirectory (Scratch.pathFor directory name))
      (triple_change (g := (·.createDirectory (Scratch.pathFor directory name))) ?_ fun _ => id)
      ?_)) fun _ => triple_pure fun f hf => ⟨hf.1, rfl, hf.2⟩
  · rintro f g rfl hcreate
    obtain ⟨last, d, slashed, proper, hfollow, hnew, hagree, hthere⟩ :=
      createDirectory_eq_ok hcreate
    have hl : last :: d = s := by
      rw [← hs]
      exact location_of_follow hfollow
    rw [hl] at hnew hagree hthere
    refine ⟨⟨hagree.mono ?_, hthere⟩, hnew,
      endsInName_child _ (isFileName_around hname "." (by decide) (by decide)), last, d, slashed,
      proper, hl.symm, hfollow⟩
    rintro k rfl
    exact isBelow_refl k
  · intro f g hf hleft
    cases hleft with
    | unchanged => exact hf

/-- Work in a scratch directory leaves nothing of it, whatever the work comes to. -/
theorem triple_use {α : Type} {create : Action PackageError Scratch} {path : Path}
    (hcreate : Triple (· = f₀) create
      (fun x f => Working f₀ s f ∧ x.path = path ∧ ScratchAt f₀ x.path s) (· = f₀))
    {work : Scratch → Action PackageError α} {Q : α → Files → Prop}
    (hwork : ∀ x, x.path = path → ScratchAt f₀ x.path s →
      Triple (Working f₀ s) (work x) (fun r g => Keeps f₀ g ∧ g.get? s = some .directory ∧
        Q r (g.removeBelow s)) (Working f₀ s)) :
    Triple (· = f₀) (Scratch.use create work) Q (AgreeOutside (fun _ => False) f₀) := by
  refine triple_bind (hcreate.mono (fun _ => id) (fun _ _ => id) ?_) fun x => ?_
  · rintro f rfl
    exact .refl f
  · refine triple_of_fact fun ⟨hpath, hscratch⟩ => ?_
    have hremove {g : Files} (hk : Keeps f₀ g) (hthere : g.get? s = some .directory) :
        (x.remove g).2 = g.removeBelow s := by
      simp only [Scratch.remove, Action.change, hscratch.removeDirectory hk hthere]
    refine triple_andFinally (hwork x hpath hscratch) ?_ ?_
    · rintro r g ⟨hk, hthere, hQ⟩
      rwa [hremove hk hthere]
    · intro g hg
      rw [hremove (hg.keeps hscratch.new) hg.there]
      exact agree_removeBelow_of_new hscratch.new (hg.agree.mono fun _ => .inl)

/-- Whether an archive with some entries stands at its place, and nothing else differs. -/
def StandsAlone (f : Files) (output : Path) (entries : List String) (g : Files) : Prop :=
  ∃ l files executable, g.find? output = .ok (l, .file (.archive files) executable) ∧
    entries = files.map Prod.fst ∧ AgreeOutside (· = l) f g

theorem Published.agree_removeBelow {output : Path} {l : Location}
    {files : List (String × Content)} (hg : Published f₀ s output l files g)
    (hnew : f₀.get? s = none) : AgreeOutside (· = l) f₀ (g.removeBelow s) :=
  agree_removeBelow_of_new hnew hg.agree

/-- The archive is found at its place when the scratch directory is gone. -/
theorem Published.find?_output {output : Path} {l : Location} {files : List (String × Content)}
    (hg : Published f₀ s output l files g) (hnew : f₀.get? s = none)
    (hl : ¬isBelow l s = true) {whole : String} (hname : output.fileName? = some whole)
    (hdir : f₀.isDirectory (Destination.directoryOf output) = true) :
    ∃ executable, (g.removeBelow s).find? output = .ok (l, .file (.archive files) executable) := by
  have hk : Keeps f₀ (g.removeBelow s) :=
    (hg.agree_removeBelow hnew).keeps fun d hdl hd => absurd (hdl ▸ hd) hg.free
  obtain ⟨f, name, d, proper, hhere, rfl, hfollow⟩ := hg.follow
  obtain ⟨executable, harchive⟩ := hg.archive
  have hs : s ≠ [] := by
    rintro rfl
    cases hnew
  have hfile : (g.removeBelow s).get? (name :: d) = some (.file (.archive files) executable) := by
    rw [get?_removeBelow g hs, if_neg hl, harchive]
  refine ⟨executable, ?_⟩
  have hfollow' := Destination.follow_of_keeps hname hdir hk hhere hfollow
  simp only [find?, hfollow', hfile, bind, Except.bind]
  rfl

theorem Published.standsAlone {output : Path} {l : Location} {files : List (String × Content)}
    (hg : Published f₀ s output l files g) (hnew : f₀.get? s = none)
    (hl : ¬isBelow l s = true) {whole : String} (hname : output.fileName? = some whole)
    (hdir : f₀.isDirectory (Destination.directoryOf output) = true) :
    StandsAlone f₀ output (files.map Prod.fst) (g.removeBelow s) := by
  obtain ⟨executable, hfind⟩ := hg.find?_output hnew hl hname hdir
  exact ⟨l, files, executable, hfind, rfl, hg.agree_removeBelow hnew⟩

theorem locationFrom_pathFor {name : String} (h : isName name = true) (directory : Path)
    (w : Location) : (Scratch.pathFor directory name).locationFrom w =
      ("." ++ name ++ ".fmu-build") :: directory.locationFrom w :=
  locationFrom_child (isFileName_around h "." (by decide) (by decide)) w

/-- An archive is not put into the scratch directory that is made for it. -/
theorem not_isBelow_scratch {output : Path} {destination : Destination} {f : Files}
    (h : Destination.check f output = .ok destination) (w : Location) :
    ¬isBelow (output.locationFrom w)
      ((Scratch.pathFor destination.directory destination.name).locationFrom w) = true := by
  obtain ⟨hfile, hdirectory, -⟩ := Destination.check_eq_ok h
  rw [locationFrom_pathFor destination.isName, Destination.locationFrom_directoryOf hfile,
    hdirectory]
  intro hb
  have hhead := (List.cons.inj ((isBelow_iff.1 hb).eq_of_length rfl)).1
  have hlen := congrArg String.length hhead
  simp only [String.length_append] at hlen
  have h1 : ".".length = 1 := rfl
  have h2 : ".fmu-build".length = 10 := rfl
  have h3 : Destination.ending.length = 3 := rfl
  omega

/-- The work that a build does in its scratch directory comes to the archive in its place, or to
nothing outside the scratch directory. -/
theorem triple_inScratch (faults : Faults) {t : Toolchain} (ht : t.Confined) {job : Job}
    {destination : Destination} (hcheck : Destination.check f₀ job.output = .ok destination)
    (hscratch : ScratchAt f₀ scratch s)
    (houtput : ¬isBelow (job.output.locationFrom f₀.here) s = true) {skeleton : Skeleton}
    (hnames : ∀ name ∈ skeleton.names, isFileName name = true) (rendered : Rendered) :
    Triple (Working f₀ s)
      (do
        let tree := scratch.child "fmu"
        layOut faults tree skeleton rendered
        addLibrary faults t tree (scratch.child "build") destination.name job.platform
        if !job.keepSources then dropSources faults tree
        publish faults tree (scratch.child (destination.name ++ ".zip")) job.output)
      (fun entries g => Keeps f₀ g ∧ g.get? s = some .directory ∧
        StandsAlone f₀ job.output entries (g.removeBelow s)) (Working f₀ s) := by
  obtain ⟨hfile, hdirectory, hthere⟩ := Destination.check_eq_ok hcheck
  have htree : Descends scratch (scratch.child "fmu") :=
    .child .self (isFileName_of_length (by decide) (by decide))
  have hbuild : isFileName "build" = true := isFileName_of_length (by decide) (by decide)
  have hzip : isFileName ("" ++ destination.name ++ ".zip") = true :=
    isFileName_around destination.isName "" (by decide) (by decide)
  rw [String.empty_append] at hzip
  have hpublish : Triple (Working f₀ s)
      (publish faults (scratch.child "fmu") (scratch.child (destination.name ++ ".zip")) job.output)
      (fun entries g => Keeps f₀ g ∧ g.get? s = some .directory ∧
        StandsAlone f₀ job.output entries (g.removeBelow s)) (Working f₀ s) := by
    refine (triple_publish faults (Descends.self.leadsInside hscratch hzip) houtput _).mono
      (fun _ => id) ?_ (fun _ => id)
    rintro entries g ⟨files, rfl, hg⟩
    exact ⟨hg.keeps hscratch.new, hg.there,
      hg.standsAlone hscratch.new houtput hfile (hdirectory ▸ hthere)⟩
  refine triple_bind
    (stays_iff_triple.1 (stays_layOut faults hscratch htree hnames rendered)) fun _ => ?_
  refine triple_bind (stays_iff_triple.1 (stays_addLibrary faults hscratch htree
    (.child .self hbuild) (Descends.self.leadsInside hscratch hbuild) ht destination.isName
    job.platform)) fun _ => ?_
  dsimp only
  split
  · exact triple_bind (stays_iff_triple.1 (stays_dropSources faults hscratch htree))
      fun _ => hpublish
  · exact hpublish

/-- A build leaves its archive at its place if it succeeds, and if it fails, the files as they were:
only its scratch directory is changed on the way, and that is removed again. -/
theorem triple_build (faults : Faults) {t : Toolchain} (ht : t.Confined)
    (m : Model.StateSpace Float) (job : Job) (occasion : Occasion) (f₀ : Files) :
    Triple (· = f₀) (buildUnder faults m job t occasion)
      (fun report g => StandsAlone f₀ job.output report.entries g)
      (AgreeOutside (fun _ => False) f₀) := by
  have hsame : ∀ f, f = f₀ → AgreeOutside (fun _ => False) f₀ f := by
    rintro f rfl
    exact .refl f
  refine triple_bind (R := fun d f => f = f₀ ∧ Destination.check f₀ job.output = .ok d)
    (triple_look (by rintro f d rfl h; exact ⟨rfl, h⟩) hsame) fun destination => ?_
  refine triple_of_fact fun hcheck => ?_
  refine triple_bind
    (R := fun skeleton f => f = f₀ ∧ ∀ name ∈ skeleton.names, isFileName name = true)
    (triple_read faults ?_ hsame) fun skeleton => triple_of_fact fun hnames => ?_
  · rintro f skeleton rfl hopen
    exact ⟨rfl, isFileName_of_open? hopen⟩
  refine triple_bind (R := fun _ f => f = f₀) (triple_look (fun _ _ h _ => h) hsame)
    fun rendered => ?_
  have houtput := not_isBelow_scratch hcheck f₀.here
  generalize hs : (Scratch.pathFor destination.directory destination.name).locationFrom f₀.here = s
    at houtput
  refine triple_bind (R := fun entries g => StandsAlone f₀ job.output entries g)
    (triple_use (triple_wrap (triple_create faults destination.isName hs))
      fun scratch _ hscratch => ?_)
    fun entries => triple_pure fun _ => id
  exact triple_inScratch faults ht hcheck hscratch houtput hnames rendered

end Package

/-- A toolchain that leaves an empty file for a library. -/
def Toolchain.hollow : Toolchain where
  name := "hollow"
  compile r := do
    Action.wrap (.files .writing r.library) (Action.change (·.write r.library (.data .empty)))
    return r.library

theorem Toolchain.hollow_confined : Toolchain.hollow.Confined where
  agree r f hname := by
    simp only [hollow, bind_apply, wrap, Action.change]
    cases hw : f.write r.library (.data .empty) with
    | error e => exact .refl f
    | ok g =>
      refine (write_eq_ok hw).agree.mono ?_
      rintro l rfl
      rw [locationFrom_library hname]
      exact isBelow_cons _ (isBelow_refl _)
  library r f p g hname h := by
    have hp : p = r.library := by
      simp only [hollow, bind_apply, wrap, Action.change] at h
      cases hw : f.write r.library (.data .empty) with
      | error e =>
        rw [hw] at h
        cases h
      | ok g =>
        rw [hw] at h
        cases h
        rfl
    rw [hp, locationFrom_library hname]
    exact isBelow_cons _ (isBelow_refl _)

/-- A model without states, inputs and outputs. -/
def Model.StateSpace.void : Model.StateSpace Float :=
  ⟨⟨0, [], by simp⟩, ⟨0, [], by simp⟩, ⟨0, [], by simp⟩, ⟨0, [], by simp⟩, [], [],
    rfl, rfl, rfl, rfl, rfl, rfl, rfl, rfl, rfl, rfl, rfl, rfl, rfl⟩

end LtiUnit
