import LtiUnit.Proofs.ArchiveNames
import LtiUnit.Proofs.BuildTrace
import LtiUnit.Proofs.CarriedIdentity
import LtiUnit.Proofs.CompilerPaths
import LtiUnit.Proofs.Faults

/-!
# LtiUnit.Proofs.Packing

What a build packs when it succeeds.

The files that a unit is laid out in are followed from step to step as a table from the ways below
the tree to what is held there (`Holds`). Up to the call of the toolchain all that changes is in the
scratch directory (`Holding`). A toolchain that spares the tree (`Toolchain.Spares`) does not change
the table, whatever it does elsewhere, and from then on the table is all that is followed.
-/

namespace LtiUnit

open LtiUnit.Files LtiUnit.Path LtiUnit.Action Toolchain.Request

/-! ## What is asked of a toolchain -/

namespace Toolchain

/-- The tree of a unit that a library is asked for. Its sources lie in it. -/
def Request.tree (r : Request) (w : Location) : Location := (r.sources.locationFrom w).tail

/-- Whether what lies at a location is packed: it is in the tree, and not among the sources if these
are left out. -/
def Request.Packs (r : Request) (keep : Bool) (w l : Location) : Prop :=
  isBelow l (r.tree w) = true ∧ (keep = true ∨ ¬isBelow l (r.sources.locationFrom w) = true)

/-- Whether a toolchain, asked for a library, leaves the tree of the unit as it is. -/
def Spares (t : Toolchain) (r : Request) (f : Files) : Prop :=
  AgreeOutside (fun l => ¬isBelow l (r.tree f.here) = true) f (t.compile r f).2

/-- Whether a file that a toolchain comes back with, asked for a library, is none that is to be
packed itself. -/
def BringsApart (t : Toolchain) (keep : Bool) (r : Request) (f : Files) : Prop :=
  ∀ p g, t.compile r f = (.ok p, g) → g.isFile p = true →
    ¬r.Packs keep f.here (p.locationFrom f.here)

/-- Whether a toolchain, asked for a library, writes below the directory that it is asked to work in
only, and comes back with no file that is to be packed itself. -/
structure Produces (t : Toolchain) (keep : Bool) (r : Request) (f : Files) : Prop where
  agree : AgreeOutside (fun l => isBelow l (r.build.locationFrom f.here) = true) f
    (t.compile r f).2
  apart : t.BringsApart keep r f

end Toolchain

namespace Package

variable {f₀ f g : Files} {s w : Location} {scratch p : Path} {v : Location → Option Content}
  {u : Unit} {keep : Bool}

/-- The directory below a scratch directory in which a unit is laid out. -/
def treeAt (s : Location) : Location := "fmu" :: s

theorem inside_tree (way : Location) : Inside (way ++ treeAt s) s := by
  have hb : isBelow (way ++ treeAt s) s = true :=
    isBelow_iff.2 ((List.suffix_cons "fmu" s).trans (List.suffix_append way _))
  refine ⟨hb, ?_⟩
  intro h
  have := congrArg List.length h
  simp only [treeAt, List.length_append, List.length_cons] at this
  omega

theorem not_isBelow_build (way : Location) : ¬isBelow (way ++ treeAt s) ("build" :: s) = true := by
  intro hb
  have hsame : "build" :: s <:+ treeAt s :=
    List.suffix_of_suffix_length_le (isBelow_iff.1 hb) (List.suffix_append way _) (Nat.le_refl _)
  have := (List.cons.inj (hsame.eq_of_length rfl)).1
  revert this
  decide

theorem isFileName_fmu : isFileName "fmu" = true := isFileName_of_length (by decide) (by decide)

theorem isFileName_sources : isFileName "sources" = true :=
  isFileName_of_length (by decide) (by decide)

theorem isFileName_build : isFileName "build" = true :=
  isFileName_of_length (by decide) (by decide)

theorem locationFrom_tree (h : scratch.locationFrom w = s) :
    (scratch.child "fmu").locationFrom w = treeAt s := by
  rw [locationFrom_child isFileName_fmu, h]
  rfl

theorem locationFrom_sources (h : scratch.locationFrom w = s) :
    (sourcesIn (scratch.child "fmu")).locationFrom w = ["sources"] ++ treeAt s := by
  rw [sourcesIn, locationFrom_child isFileName_sources, locationFrom_tree h]
  rfl

section Requests

variable {t : Toolchain} {name : String} {platform : Platform}

theorem tree_requestFor (h : scratch.locationFrom w = s) :
    (requestFor scratch name platform).tree w = treeAt s := by
  rw [Toolchain.Request.tree, requestFor, locationFrom_sources h]
  rfl

theorem build_requestFor (h : scratch.locationFrom w = s) :
    (requestFor scratch name platform).build.locationFrom w = "build" :: s := by
  rw [requestFor, locationFrom_child isFileName_build, h]

/-- The directory that a toolchain works in lies beside the tree. -/
theorem not_isBelow_tree (h : scratch.locationFrom w = s) {l : Location}
    (hl : isBelow l ((requestFor scratch name platform).build.locationFrom w) = true) :
    ¬isBelow l ((requestFor scratch name platform).tree w) = true := by
  rw [build_requestFor h] at hl
  rw [tree_requestFor h]
  intro hb
  obtain ⟨way, rfl⟩ := isBelow_iff.1 hb
  exact not_isBelow_build way hl

theorem spares_of_produces (ht : t.Produces keep (requestFor scratch name platform) f) :
    t.Spares (requestFor scratch name platform) f :=
  ht.agree.mono fun _ => not_isBelow_tree rfl

/-- A toolchain that is confined does, for a build, what is asked of it. -/
theorem produces_of_confined (ht : t.Confined) (hname : isName name = true) (keep : Bool)
    (f : Files) : t.Produces keep (requestFor scratch name platform) f where
  agree := ht.agree _ f hname
  apart p g h _ hpacks := not_isBelow_tree rfl (ht.library _ f p g hname h) hpacks.1

end Requests

/-! ## Tables of what is held -/

/-- The files below the tree of the unit are these, by the ways that lead to them. -/
structure Holds (w s : Location) (v : Location → Option Content) (f : Files) : Prop where
  here : f.here = w
  held : ∀ way, f.held (way ++ treeAt s) = v way

namespace Holds

theorem agree (hf : Holds w s v f)
    (h : AgreeOutside (fun l => ¬isBelow l (treeAt s) = true) f g) : Holds w s v g where
  here := h.here.trans hf.here
  held way := by
    have hb : isBelow (way ++ treeAt s) (treeAt s) = true :=
      isBelow_iff.2 (List.suffix_append way _)
    rw [h.held (not_not.2 hb), hf.held]

theorem createDirectory (hf : Holds w s v f)
    (h : createDirectory .never p f = (.ok u, g)) : Holds w s v g where
  here := (here_createDirectories (createDirectories_of_perform (wrap_eq_ok h))).trans hf.here
  held way :=
    (held_createDirectories (createDirectories_of_perform (wrap_eq_ok h)) _).trans (hf.held way)

theorem putsFile (hf : Holds w s v f) {way : Location} {content : Content}
    (h : PutsFile f g (way ++ treeAt s) content) :
    Holds w s (Function.update v way (some content)) g where
  here := h.agree.here.trans hf.here
  held way' := by
    rw [h.held, Function.update_apply]
    split
    · rename_i heq
      rw [if_pos (List.append_cancel_right heq)]
    · rename_i hne
      rw [if_neg fun heq => hne (by rw [heq]), hf.held]

/-- A file is moved into the tree, wherever it was. -/
theorem move (hf : Holds w s v f) {source : Path} {way : Location}
    (hp : p.locationFrom w = way ++ treeAt s) (h : f.move source p = .ok g) :
    ∃ content, f.held (source.locationFrom w) = some content ∧
      Holds w s (fun way' => if way' = way then some content
        else if way' ++ treeAt s = source.locationFrom w then none else v way') g := by
  obtain ⟨content, hsource, hheld⟩ := held_move h
  obtain ⟨_, _, _, _, _, _, -, -, -, hagree⟩ := move_eq_ok h
  rw [hf.here] at hsource hheld
  refine ⟨content, hsource, hagree.here.trans hf.here, fun way' => ?_⟩
  rw [hheld, hp, hf.held]
  simp only [List.append_left_inj]

theorem dropSources (hf : Holds w s v f) (hscratch : scratch.locationFrom w = s)
    (h : dropSources .never (scratch.child "fmu") f = (.ok u, g)) :
    Holds w s (fun way => if isBelow way ["sources"] = true then none else v way) g := by
  have hremove := removeDirectory_of_perform (wrap_eq_ok h)
  refine ⟨(removeDirectory_eq_ok hremove).here.trans hf.here, fun way => ?_⟩
  have hsuffix : isBelow (way ++ treeAt s) (["sources"] ++ treeAt s) = isBelow way ["sources"] := by
    rw [Bool.eq_iff_iff, isBelow_iff, isBelow_iff]
    exact List.suffix_append_self_iff
  rw [held_removeDirectory hremove, hf.here, locationFrom_sources hscratch, hsuffix, hf.held]

end Holds

/-- The same while all that has changed is in the scratch directory. -/
structure Holding (f₀ : Files) (s : Location) (v : Location → Option Content) (f : Files) :
    Prop where
  working : Working f₀ s f
  holds : Holds f₀.here s v f

theorem Holding.createDirectory (hf : Holding f₀ s v f) (hscratch : ScratchAt f₀ scratch s)
    (hp : Descends scratch p) (h : createDirectory .never p f = (.ok u, g)) :
    Holding f₀ s v g := by
  have hworking := stays_wrap (g := PackageError.files .creating p)
    (hp.stays_createDirectories .never hscratch) f hf.working
  rw [Package.createDirectory] at h
  rw [h] at hworking
  exact ⟨hworking, hf.holds.createDirectory h⟩

theorem Holding.putsFile (hf : Holding f₀ s v f) {way : Location} {content : Content}
    (h : PutsFile f g (way ++ treeAt s) content) :
    Holding f₀ s (Function.update v way (some content)) g where
  working := hf.working.change h.agree fun _ hl => hl ▸ inside_tree way
  holds := hf.holds.putsFile h

theorem Holding.writeText (hf : Holding f₀ s v f) (way : Location)
    (hp : p.locationFrom f₀.here = way ++ treeAt s) {text : String}
    (h : writeText .never p text f = (.ok u, g)) :
    Holding f₀ s (Function.update v way (some (.ofText text))) g := by
  have hput := write_eq_ok (write_of_perform (wrap_eq_ok h))
  rw [hf.working.agree.here, hp] at hput
  exact hf.putsFile hput

/-! ## The skeleton -/

/-- A file that was there before the scratch directory does not lie below it. -/
theorem not_isBelow_of_held (hnew : f₀.get? s = none) {l : Location} {content : Content}
    (h : f₀.held l = some content) : ¬isBelow l s = true := by
  intro hb
  rw [held_of_none (f₀.get?_eq_none_of_new hnew hb)] at h
  cases h

theorem Holding.copy (hf : Holding f₀ s v f) (hnew : f₀.get? s = none) {source : Path}
    (hsource : f₀.isFile source = true) {way : Location}
    (hp : p.locationFrom f₀.here = way ++ treeAt s)
    (h : f.copy source p = .ok g) :
    ∃ content, f₀.content? source = .ok content ∧
      Holding f₀ s (Function.update v way (some content)) g := by
  obtain ⟨content, hcontent⟩ := exists_content?_of_isFile hsource
  have hheld := held_of_content? hcontent
  have hapart := not_isBelow_of_held hnew hheld
  rw [← hf.working.agree.here] at hp hheld hapart
  have hne : source.locationFrom f.here ≠ p.locationFrom f.here := by
    rw [hp]
    intro heq
    exact hapart (heq ▸ (inside_tree way).1)
  obtain ⟨content', hheld', hput⟩ := putsFile_of_copy h hne
  rw [hf.working.agree.held hapart, hheld, Option.some.injEq] at hheld'
  subst hheld'
  rw [hp] at hput
  exact ⟨content, hcontent, hf.putsFile hput⟩

/-- After some files of a directory have been copied into one below the tree, each is there, and
nothing else has changed. -/
theorem Holding.copies (hf : Holding f₀ s v f) (hnew : f₀.get? s = none) {directory : Path}
    {names : List String} (hnames : ∀ name ∈ names, isFileName name = true ∧
      f₀.isFile (directory.child name) = true)
    (way : Location) (hp : p.locationFrom f₀.here = way ++ treeAt s)
    {w : String → FileError → PackageError}
    (h : (names.forM fun name => Action.wrap (w name)
      (perform .never (.copy (directory.child name) (p.child name)))) f = (.ok u, g)) :
    ∃ v', Holding f₀ s v' g ∧
      (∀ name ∈ names, ∃ content, f₀.content? (directory.child name) = .ok content ∧
        v' (name :: way) = some content) ∧
      ∀ way', (∀ name ∈ names, way' ≠ name :: way) → v' way' = v way' := by
  induction names generalizing f v with
  | nil =>
    obtain ⟨-, rfl⟩ := pure_eq_ok h
    exact ⟨v, hf, by simp, fun _ _ => rfl⟩
  | cons name names ih =>
    obtain ⟨hname, hrest⟩ := List.forall_mem_cons.1 hnames
    obtain ⟨_, f', hcopy, h⟩ := bind_eq_ok_iff.1 h
    have hchild : (p.child name).locationFrom f₀.here = (name :: way) ++ treeAt s := by
      rw [locationFrom_child hname.1, hp]
      rfl
    obtain ⟨content, hcontent, hf'⟩ :=
      hf.copy hnew hname.2 hchild (copy_of_perform (wrap_eq_ok hcopy))
    obtain ⟨v', hv', hcopied, hother⟩ := ih hf' hrest h
    refine ⟨v', hv', List.forall_mem_cons.2 ⟨⟨content, hcontent, ?_⟩, hcopied⟩, ?_⟩
    · by_cases hagain : name ∈ names
      · obtain ⟨content', hcontent', hv''⟩ := hcopied name hagain
        cases hcontent.symm.trans hcontent'
        exact hv''
      · have hne : ∀ name' ∈ names, name :: way ≠ name' :: way := by
          intro name' hmem heq
          exact hagain ((List.cons.inj heq).1 ▸ hmem)
        rw [hother _ hne, Function.update_self]
    · intro way' hway'
      obtain ⟨hhead, htail⟩ := List.forall_mem_cons.1 hway'
      rw [hother way' htail, Function.update_of_ne hhead]

/-- What is laid out for the toolchain: the source, the skeleton and the descriptor. -/
inductive LaidOut (f₀ : Files) (skeleton : Skeleton) (rendered : Rendered) :
    Location → Content → Prop
  | source : LaidOut f₀ skeleton rendered [Source.fileName, "sources"] (.ofText rendered.source)
  | header {name : String} {content : Content} : name ∈ skeleton.names →
    f₀.content? (skeleton.directory.child name) = .ok content →
    LaidOut f₀ skeleton rendered [name, "include", "sources"] content
  | descriptor : LaidOut f₀ skeleton rendered [Descriptor.fileName] (.ofText rendered.descriptor)

/-- The table of what is laid out, the skeleton having been copied after the source was written and
before the descriptor. -/
theorem laidOut_iff {v : Location → Option Content} {skeleton : Skeleton} {rendered : Rendered}
    (hcopied : ∀ name ∈ skeleton.names, ∃ content,
      f₀.content? (skeleton.directory.child name) = .ok content ∧
        v [name, "include", "sources"] = some content)
    (hother : ∀ way, (∀ name ∈ skeleton.names, way ≠ [name, "include", "sources"]) →
      v way = Function.update (fun _ => none) [Source.fileName, "sources"]
        (some (.ofText rendered.source)) way) (way : Location) (content : Content) :
    Function.update v [Descriptor.fileName] (some (.ofText rendered.descriptor)) way =
      some content ↔ LaidOut f₀ skeleton rendered way content := by
  constructor
  · intro hway
    by_cases hd : way = [Descriptor.fileName]
    · rw [hd, Function.update_self, Option.some.injEq] at hway
      rw [hd, ← hway]
      exact .descriptor
    rw [Function.update_of_ne hd] at hway
    by_cases hheader : ∃ name ∈ skeleton.names, way = [name, "include", "sources"]
    · obtain ⟨name, hname, rfl⟩ := hheader
      obtain ⟨content', hcontent', hv⟩ := hcopied name hname
      cases hway.symm.trans hv
      exact .header hname hcontent'
    rw [hother way fun name hname heq => hheader ⟨name, hname, heq⟩] at hway
    by_cases hs : way = [Source.fileName, "sources"]
    · rw [hs, Function.update_self, Option.some.injEq] at hway
      rw [hs, ← hway]
      exact .source
    · rw [Function.update_of_ne hs] at hway
      cases hway
  · intro hway
    cases hway with
    | source =>
      rw [Function.update_of_ne (by simp), hother _ (by simp), Function.update_self]
    | @header name content hname hcontent =>
      obtain ⟨content', hcontent', hv⟩ := hcopied name hname
      cases hcontent.symm.trans hcontent'
      rw [Function.update_of_ne (by simp), hv]
    | descriptor => rw [Function.update_self]

theorem holding_layOut (hf : Holding f₀ s (fun _ => none) f) (hscratch : ScratchAt f₀ scratch s)
    {skeleton : Skeleton} (hnames : ∀ name ∈ skeleton.names, isFileName name = true ∧
      f₀.isFile (skeleton.directory.child name) = true) {rendered : Rendered}
    (h : layOut .never (scratch.child "fmu") skeleton rendered f = (.ok u, g)) :
    ∃ v, Holding f₀ s v g ∧
      ∀ way content, v way = some content ↔ LaidOut f₀ skeleton rendered way content := by
  have hinclude : isFileName "include" = true := isFileName_of_length (by decide) (by decide)
  have hunit : isFileName Source.fileName = true := isFileName_of_length (by decide) (by decide)
  have hdescriptor : isFileName Descriptor.fileName = true :=
    isFileName_of_length (by decide) (by decide)
  have htree := locationFrom_tree hscratch.location
  have hsources := locationFrom_sources hscratch.location
  have hbelow : Descends scratch (sourcesIn (scratch.child "fmu")) :=
    .child (.child .self isFileName_fmu) isFileName_sources
  obtain ⟨_, f1, h1, h⟩ := bind_eq_ok_iff.1 h
  obtain ⟨_, f2, h2, h⟩ := bind_eq_ok_iff.1 h
  obtain ⟨_, f3, h3, h4⟩ := bind_eq_ok_iff.1 h
  obtain ⟨_, f2', h2', h3⟩ := bind_eq_ok_iff.1 h3
  have hf1 := hf.createDirectory hscratch hbelow h1
  have hf2 := hf1.writeText [Source.fileName, "sources"]
    (by rw [locationFrom_child hunit, hsources]; rfl) h2
  have hf2' := hf2.createDirectory hscratch (hbelow.child hinclude) h2'
  obtain ⟨v, hf3, hcopied, hother⟩ := hf2'.copies hscratch.new hnames
    ["include", "sources"]
    (by rw [locationFrom_child hinclude, hsources]; rfl) h3
  have hf4 := hf3.writeText [Descriptor.fileName]
    (by rw [locationFrom_child hdescriptor, htree]; rfl) h4
  exact ⟨_, hf4, laidOut_iff hcopied hother⟩

/-! ## The archive -/

/-- What an archive of a unit holds, by the names of its entries. -/
inductive Packs (f : Files) (job : Job) (rendered : Rendered) (library : Content) :
    String → Content → Prop
  | descriptor : Packs f job rendered library "modelDescription.xml" (.ofText rendered.descriptor)
  | library : Packs f job rendered library
    ("binaries/" ++ job.platform.id ++ "/" ++ job.platform.libraryName rendered.identity.name)
    library
  | source : job.keepSources = true →
    Packs f job rendered library "sources/fmi2model.c" (.ofText rendered.source)
  | header {name : String} {content : Content} : job.keepSources = true →
    isFileName name = true → f.content? (job.runtimeDirectory.child name) = .ok content →
    Packs f job rendered library ("sources/include/" ++ name) content

/-- The same by the ways to the files. -/
inductive PacksAt (f : Files) (job : Job) (rendered : Rendered) (library : Content) :
    Location → Content → Prop
  | descriptor : PacksAt f job rendered library ["modelDescription.xml"]
    (.ofText rendered.descriptor)
  | library : PacksAt f job rendered library
    [job.platform.libraryName rendered.identity.name, job.platform.id, "binaries"] library
  | source : job.keepSources = true →
    PacksAt f job rendered library ["fmi2model.c", "sources"] (.ofText rendered.source)
  | header {name : String} {content : Content} : job.keepSources = true →
    isFileName name = true → f.content? (job.runtimeDirectory.child name) = .ok content →
    PacksAt f job rendered library [name, "include", "sources"] content

theorem nameOf_descriptor : Archive.nameOf ["modelDescription.xml"] = "modelDescription.xml" := rfl

theorem nameOf_library (id library : String) :
    Archive.nameOf [library, id, "binaries"] = "binaries/" ++ id ++ "/" ++ library := by
  simp [Archive.nameOf, Text.separated, String.append_assoc]

theorem nameOf_source : Archive.nameOf ["fmi2model.c", "sources"] = "sources/fmi2model.c" := by
  decide

theorem nameOf_header (name : String) :
    Archive.nameOf [name, "include", "sources"] = "sources/include/" ++ name := by
  have hfirst : "sources/" ++ "include/" = "sources/include/" := by decide
  rw [← hfirst, String.append_assoc]
  simp [Archive.nameOf, Text.separated]

theorem packs_iff {job : Job} {rendered : Rendered} {library content : Content} {name : String} :
    Packs f job rendered library name content ↔
      ∃ way, PacksAt f job rendered library way content ∧ name = Archive.nameOf way := by
  constructor
  · intro h
    cases h with
    | descriptor => exact ⟨_, .descriptor, nameOf_descriptor.symm⟩
    | library => exact ⟨_, .library, (nameOf_library ..).symm⟩
    | source keep => exact ⟨_, .source keep, nameOf_source.symm⟩
    | header keep proper there => exact ⟨_, .header keep proper there, (nameOf_header _).symm⟩
  · rintro ⟨way, h, rfl⟩
    cases h with
    | descriptor =>
      rw [nameOf_descriptor]
      exact .descriptor
    | library =>
      rw [nameOf_library]
      exact .library
    | source keep =>
      rw [nameOf_source]
      exact .source keep
    | header keep proper there =>
      rw [nameOf_header]
      exact .header keep proper there

/-- The files that are packed are those that were laid out, except for the sources if they are left
out, and the library. -/
theorem packsAt_iff {job : Job} {skeleton : Skeleton} {rendered : Rendered}
    {library content : Content} {way : Location}
    (hskeleton : Skeleton.open? f job.runtimeDirectory = .ok skeleton) :
    PacksAt f job rendered library way content ↔
      (job.keepSources = true ∨ ¬isBelow way ["sources"] = true) ∧
        (way = [job.platform.libraryName rendered.identity.name, job.platform.id, "binaries"] ∧
            content = library ∨
          LaidOut f skeleton rendered way content) := by
  obtain ⟨hdirectory, hnames⟩ := mem_names_of_open? hskeleton
  have hapart : ∀ {way : Location} {name : String}, name ≠ "sources" →
      way.getLast? = some name → ¬isBelow way ["sources"] = true := by
    intro way name hne hlast hb
    obtain ⟨before, rfl⟩ := isBelow_iff.1 hb
    rw [List.getLast?_concat, Option.some.injEq] at hlast
    exact hne hlast.symm
  constructor
  · intro h
    cases h with
    | descriptor =>
      have hne : "modelDescription.xml" ≠ "sources" := by decide
      exact ⟨.inr (hapart hne rfl), .inr .descriptor⟩
    | library =>
      have hne : "binaries" ≠ "sources" := by decide
      exact ⟨.inr (hapart hne rfl), .inl ⟨rfl, rfl⟩⟩
    | source keep => exact ⟨.inl keep, .inr .source⟩
    | header keep proper there =>
      have hfile := isFile_of_content? there
      exact ⟨.inl keep, .inr (.header ((hnames _).2 ⟨proper, hfile⟩) (hdirectory ▸ there))⟩
  · rintro ⟨hkeep, ⟨rfl, rfl⟩ | h⟩
    · exact .library
    · cases h with
      | descriptor => exact .descriptor
      | source => exact .source (hkeep.resolve_right fun hb => hb (by decide))
      | @header name _ hname hcontent =>
        rw [hdirectory] at hcontent
        have hb : isBelow [name, "include", "sources"] ["sources"] = true :=
          isBelow_iff.2 ⟨[name, "include"], rfl⟩
        exact .header (hkeep.resolve_right fun h => h hb) ((hnames _).1 hname).1 hcontent

theorem location_of_pack {root archive : Path} {entries : List String}
    (h : pack root archive f = (.ok entries, g)) :
    entries = (Archive.ofDirectory f (root.locationFrom f.here)).map Prod.fst ∧
      f.write archive (.archive (Archive.ofDirectory f (root.locationFrom f.here))) = .ok g := by
  rw [pack_eq] at h
  obtain ⟨d, f1, h1, h⟩ := bind_eq_ok_iff.1 h
  obtain ⟨hd, rfl⟩ := look_eq_ok (wrap_eq_ok h1)
  obtain ⟨files, f2, h2, h⟩ := bind_eq_ok_iff.1 h
  obtain ⟨hfiles, rfl⟩ := look_eq_ok h2
  cases hfiles
  obtain ⟨_, f3, h3, h4⟩ := bind_eq_ok_iff.1 h
  obtain ⟨rfl, rfl⟩ := pure_eq_ok h4
  rw [← location_of_directory? hd]
  exact ⟨rfl, change_eq_ok (wrap_eq_ok h3)⟩

/-- A file that has been moved is found where it was moved to. -/
theorem find?_of_move {source target : Path} (h : f.move source target = .ok g) :
    ∃ content x, f.held (source.locationFrom f.here) = some content ∧
      g.find? target = .ok (target.locationFrom f.here, .file content x) := by
  obtain ⟨content, x, name, d, proper, hsource, hfollow, hfree, htarget, hagree⟩ := move_eq_ok h
  have hl : name :: d = target.locationFrom f.here := location_of_follow hfollow
  have hkeeps : Keeps f g := hagree.keeps fun l hl hd => by
    rcases hl with rfl | rfl
    · rw [hsource] at hd
      cases hd
    · exact absurd hd hfree
  exact ⟨content, x, held_eq_some_iff.2 ⟨x, hsource⟩,
    hl ▸ find?_of_file (hkeeps.follow hfollow) htarget⟩

/-- What is below the tree is packed and published under the output. -/
theorem Holds.publish (hf : Holds w s v f) (hscratch : scratch.locationFrom w = s)
    {archive output : Path} {entries : List String}
    (h : publish .never (scratch.child "fmu") archive output f = (.ok entries, g)) :
    ∃ files x, entries = files.map Prod.fst ∧ g.here = w ∧
      g.find? output = .ok (output.locationFrom w, .file (.archive files) x) ∧
      (files.map Prod.fst).Pairwise (fun a b => Text.bytes a < Text.bytes b) ∧
      ∀ entry content, (entry, content) ∈ files ↔
        ∃ way, v way = some content ∧ entry = Archive.nameOf way := by
  obtain ⟨entries', f1, h1, h⟩ := bind_eq_ok_iff.1 h
  obtain ⟨_, f2, h2, h3⟩ := bind_eq_ok_iff.1 h
  obtain ⟨rfl, rfl⟩ := pure_eq_ok h3
  obtain ⟨hentries, hwrite⟩ := location_of_pack h1
  rw [hf.here, locationFrom_tree hscratch] at hentries hwrite
  have hmove := move_of_perform (wrap_eq_ok h2)
  have hput := write_eq_ok hwrite
  obtain ⟨x, hthere⟩ := hput.there
  obtain ⟨content, x', harchive, hfind⟩ := find?_of_move hmove
  rw [hput.agree.here, held_eq_some_iff.2 ⟨x, hthere⟩, Option.some.injEq] at harchive
  rw [hput.agree.here, hf.here, ← harchive] at hfind
  obtain ⟨_, _, _, _, _, _, -, -, -, hagree⟩ := move_eq_ok hmove
  refine ⟨_, x', hentries, ?_, hfind, Archive.ascending_ofDirectory f _, fun entry content => ?_⟩
  · rw [hagree.here, hput.agree.here, hf.here]
  · rw [Archive.mem_ofDirectory_iff]
    simp only [hf.held]

end Package
end LtiUnit
