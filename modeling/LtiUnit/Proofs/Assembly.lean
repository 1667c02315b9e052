import LtiUnit.Proofs.CompilerPaths
import LtiUnit.Proofs.PackedUnit
import LtiUnit.Proofs.Progress

/-!
# LtiUnit.Proofs.Assembly

What a build does in its scratch directory before it moves the archive to its place
(`assemble`), and that all of it succeeds once the toolchain has left a library
(`exists_assembled`): the directory is new, so nothing is in the way of what is put there.
-/

namespace LtiUnit
namespace Package

open LtiUnit.Files LtiUnit.Path LtiUnit.Action

variable {f₀ f g : Files} {s way : Location} {scratch p q : Path} {name name' : String}

/-- The work of a build in its scratch directory, up to the archive. -/
def assemble (t : Toolchain) (job : Job) (name : String) (skeleton : Skeleton)
    (rendered : Rendered) (scratch : Path) : Action PackageError (List String) := do
  let tree := scratch.child "fmu"
  layOut .never tree skeleton rendered
  addLibrary .never t tree (scratch.child "build") name job.platform
  if !job.keepSources then dropSources .never tree
  pack tree (scratch.child (name ++ ".zip"))

/-! ## Ways down from a path -/

/-- Whether a path goes down from another one by names that directories can have. -/
inductive DescendsBy (p : Path) : Location → Path → Prop where
  | self : DescendsBy p [] p
  | child {way : Location} {q : Path} {name : String} : DescendsBy p way q → Nameable name →
    DescendsBy p (name :: way) (q.child name)

namespace DescendsBy

theorem locationFrom_eq (h : DescendsBy p way q) (w : Location) :
    q.locationFrom w = way ++ p.locationFrom w := by
  induction h with
  | self => rfl
  | child _ hname ih => rw [locationFrom_child hname.proper, ih, List.cons_append]

/-- Since directories lie in directories, one that is there can be reached. -/
theorem isDirectory (h : DescendsBy p way q) (hp : f.isDirectory p = true)
    (hthere : f.get? (way ++ p.locationFrom f.here) = some .directory) :
    f.isDirectory q = true := by
  induction h with
  | self => exact hp
  | child hq hname ih =>
    refine isDirectory_child (ih (f.get?_parent hthere)) hname ?_
    rw [hq.locationFrom_eq]
    exact hthere

end DescendsBy

/-! ## What has been put into a scratch directory -/

/-- The files while a build works at `s`: some directories are there by now, and away from the
places that have been touched there is nothing. -/
structure Site (f₀ : Files) (s : Location) (rooms : List Location) (touched : Location → Prop)
    (f : Files) : Prop where
  working : Working f₀ s f
  there : ∀ way ∈ rooms, f.get? (way ++ s) = some .directory
  untouched : ∀ way, way ≠ [] → ¬touched way → f.get? (way ++ s) = none

theorem inside_append (hne : way ≠ []) : Inside (way ++ s) s := by
  cases way with
  | nil => exact absurd rfl hne
  | cons name way => exact inside_cons (isBelow_iff.2 (List.suffix_append way s)) name

theorem ScratchAt.isDirectory (h : ScratchAt f₀ scratch s) (hf : Working f₀ s f) :
    f.isDirectory scratch = true := by
  obtain ⟨name, d, slashed, proper, rfl, hfollow⟩ := h.follow
  rw [Files.isDirectory, find?_of_directory ((hf.keeps h.new).follow hfollow) hf.there]

namespace Site

variable {rooms rooms' : List Location} {touched touched' : Location → Prop}

theorem mono (hf : Site f₀ s rooms touched f) (hrooms : rooms' ⊆ rooms)
    (htouched : ∀ way, touched way → touched' way) : Site f₀ s rooms' touched' f where
  working := hf.working
  there way hway := hf.there way (hrooms hway)
  untouched way hne hway := hf.untouched way hne (mt (htouched way) hway)

theorem change (hf : Site f₀ s rooms touched f) {dirty : Location → Prop}
    (hagree : AgreeOutside (fun l => ∃ way, dirty way ∧ l = way ++ s) f g) (hs : ¬dirty [])
    (hthere : ∀ way ∈ rooms', g.get? (way ++ s) = some .directory) :
    Site f₀ s rooms' (fun way => dirty way ∨ touched way) g where
  working := hf.working.change hagree fun l hl => by
    obtain ⟨way, hdirty, rfl⟩ := hl
    refine inside_append ?_
    rintro rfl
    exact hs hdirty
  there := hthere
  untouched way hne hway := by
    obtain ⟨hdirty, htouched⟩ := not_or.1 hway
    rw [hagree.get? _ fun hl => ?_, hf.untouched way hne htouched]
    obtain ⟨way', hdirty', heq⟩ := hl
    exact hdirty (List.append_cancel_right heq ▸ hdirty')

theorem room (hf : Site f₀ s rooms touched f) (h : ScratchAt f₀ scratch s)
    (hq : DescendsBy scratch way q) (hroom : way ∈ rooms) :
    f.isDirectory q = true ∧ q.locationFrom f.here = way ++ s := by
  have hlocation : q.locationFrom f.here = way ++ s := by
    rw [hf.working.agree.here, hq.locationFrom_eq, h.location]
  refine ⟨hq.isDirectory (h.isDirectory hf.working) ?_, hlocation⟩
  rw [hf.working.agree.here, h.location]
  exact hf.there way hroom

theorem addsDirectories (hf : Site f₀ s rooms touched f) {new : List Location}
    (h : AddsDirectories f g (new.map (· ++ s))) :
    Site f₀ s (new ++ rooms) (fun way => way ∈ new ∨ touched way) g := by
  refine hf.change (h.agree.mono fun l hl => ?_) (fun hnil => ?_) fun way hway => ?_
  · obtain ⟨way, hway, rfl⟩ := List.mem_map.1 hl
    exact ⟨way, hway, rfl⟩
  · have habsent := h.absent _ (List.mem_map_of_mem hnil)
    rw [List.nil_append, hf.working.there] at habsent
    cases habsent
  · rcases List.mem_append.1 hway with hnew | hroom
    · exact h.there _ (List.mem_map_of_mem hnew)
    · exact h.keeps.directory _ (hf.there way hroom)

theorem putsFile (hf : Site f₀ s rooms touched f) {content : Content}
    (h : PutsFile f g (way ++ s) content) :
    Site f₀ s rooms (fun way' => way' = way ∨ touched way') g := by
  refine hf.change (h.agree.mono fun l hl => ⟨way, rfl, hl⟩) (fun hnil => ?_) fun way' hroom => ?_
  · have hfree := h.free
    rw [← hnil] at hfree
    exact hfree hf.working.there
  · have hthere := hf.there way' hroom
    rw [h.agree.get? _ fun heq => h.free (heq ▸ hthere), hthere]

/-! ### Single steps -/

theorem createDirectory (hf : Site f₀ s rooms touched f) (h : ScratchAt f₀ scratch s)
    (hq : DescendsBy scratch way q) (hroom : way ∈ rooms) (hname : Nameable name)
    (hnew : ¬touched (name :: way)) :
    ∃ g, createDirectory .never (q.child name) f = (.ok (), g) ∧
      Site f₀ s ([name :: way] ++ rooms) (fun way' => way' ∈ [name :: way] ∨ touched way') g := by
  obtain ⟨hd, hlocation⟩ := hf.room h hq hroom
  obtain ⟨g, hg, hadds⟩ := createDirectories_child hd hname (by
    rw [hlocation]
    exact hf.untouched _ (List.cons_ne_nil _ _) hnew)
  rw [hlocation] at hadds
  exact ⟨g, wrap_of_ok hg, hf.addsDirectories hadds⟩

theorem createDirectories (hf : Site f₀ s rooms touched f) (h : ScratchAt f₀ scratch s)
    (hq : DescendsBy scratch way q) (hroom : way ∈ rooms) (hname : Nameable name)
    (hname' : Nameable name') (hnew : ¬touched (name :: way)) :
    ∃ g, Package.createDirectory .never ((q.child name).child name') f = (.ok (), g) ∧
      AddsDirectories f g ([name :: way, name' :: name :: way].map (· ++ s)) := by
  obtain ⟨hd, hlocation⟩ := hf.room h hq hroom
  obtain ⟨g, hg, hadds⟩ := createDirectories_child_child hd hname hname' (by
    rw [hlocation]
    exact hf.untouched _ (List.cons_ne_nil _ _) hnew)
  rw [hlocation] at hadds
  exact ⟨g, wrap_of_ok hg, hadds⟩

theorem writeText (hf : Site f₀ s rooms touched f) (h : ScratchAt f₀ scratch s)
    (hq : DescendsBy scratch way q) (hroom : way ∈ rooms) (hname : Nameable name)
    (hnew : ¬touched (name :: way)) (text : String) :
    ∃ g, writeText .never (q.child name) text f = (.ok (), g) ∧
      Site f₀ s rooms (fun way' => way' = name :: way ∨ touched way') g := by
  obtain ⟨hd, hlocation⟩ := hf.room h hq hroom
  have hnone := hf.untouched (name :: way) (List.cons_ne_nil _ _) hnew
  obtain ⟨g, hg⟩ := write_child hd hname (by
    rw [hlocation, ← List.cons_append, hnone]
    simp) (.ofText text)
  have hput := write_eq_ok hg
  rw [locationFrom_child hname.proper, hlocation, ← List.cons_append] at hput
  exact ⟨g, wrap_of_ok (perform_write hg), hf.putsFile hput⟩

/-- A file that lies below the scratch directory is moved to a new place there. -/
theorem move (hf : Site f₀ s rooms touched f) (h : ScratchAt f₀ scratch s)
    (hq : DescendsBy scratch way q) (hroom : way ∈ rooms) (hname : Nameable name)
    (hnew : ¬touched (name :: way)) (hfile : f.isFile p = true) {source : Location}
    (hsource : p.locationFrom f.here = source ++ s) :
    ∃ g, f.move p (q.child name) = .ok g ∧
      Site f₀ s rooms (fun way' => (way' = source ∨ way' = name :: way) ∨ touched way') g := by
  obtain ⟨hd, hlocation⟩ := hf.room h hq hroom
  have hnone := hf.untouched (name :: way) (List.cons_ne_nil _ _) hnew
  have hfree : f.get? (name :: q.locationFrom f.here) ≠ some .directory := by
    rw [hlocation, ← List.cons_append, hnone]
    simp
  obtain ⟨g, hmove⟩ := move_within hfile (follow_nameable hd hname) hfree
  obtain ⟨content, executable, last, d, proper, hat, hfollow, -, -, hagree⟩ := move_eq_ok hmove
  cases (follow_nameable hd hname).symm.trans hfollow
  rw [hsource] at hat
  rw [hsource, hlocation, ← List.cons_append] at hagree
  -- neither end of the move is a directory, so none goes
  have hapart : ∀ way', f.get? (way' ++ s) = some .directory →
      ¬(way' = source ∨ way' = name :: way) := by
    rintro way' hthere (rfl | rfl)
    · rw [hthere] at hat
      cases hat
    · rw [hthere] at hnone
      cases hnone
  refine ⟨g, hmove, hf.change (hagree.mono fun l hl => ?_) (hapart [] hf.working.there)
    fun way' hroom' => ?_⟩
  · rcases hl with rfl | rfl
    · exact ⟨source, .inl rfl, rfl⟩
    · exact ⟨name :: way, .inr rfl, rfl⟩
  · have hthere := hf.there way' hroom'
    rw [hagree.get? _ fun hl => hapart way' hthere ?_, hthere]
    exact hl.imp List.append_cancel_right List.append_cancel_right

/-- The files of a skeleton are still there, since they are not below the scratch directory. -/
theorem isFile_source (hf : Site f₀ s rooms touched f) (hnew : f₀.get? s = none)
    (hsource : f₀.isFile p = true) : f.isFile p = true := by
  obtain ⟨content, hcontent⟩ := exists_content?_of_isFile hsource
  have hapart := not_isBelow_of_held hnew (held_of_content? hcontent)
  exact isFile_of_keeps hsource (hf.working.keeps hnew) (hf.working.agree.get? _ hapart)

/-- Files are copied into a directory that nothing but them has been put into. -/
theorem copies (hf : Site f₀ s rooms touched f) (h : ScratchAt f₀ scratch s)
    (hq : DescendsBy scratch way q) (hroom : way ∈ rooms)
    (hfree : ∀ name, f.get? (name :: way ++ s) ≠ some .directory)
    (htouched : ∀ name, touched (name :: way)) {directory : Path} {names : List String}
    (hnames : ∀ name ∈ names, Nameable name ∧ f₀.isFile (directory.child name) = true)
    (w : String → FileError → PackageError) :
    ∃ g, (names.forM fun name => Action.wrap (w name)
        (perform .never (.copy (directory.child name) (q.child name)))) f = (.ok (), g) ∧
      Site f₀ s rooms touched g := by
  induction names generalizing f with
  | nil => exact ⟨f, rfl, hf⟩
  | cons name names ih =>
    obtain ⟨⟨hname, hfile⟩, hrest⟩ := List.forall_mem_cons.1 hnames
    obtain ⟨hd, hlocation⟩ := hf.room h hq hroom
    obtain ⟨f', hcopy⟩ := copy_child (hf.isFile_source h.new hfile) hd hname (by
      rw [hlocation]
      exact hfree name)
    obtain ⟨content, hput⟩ := copy_eq_ok hcopy
    rw [locationFrom_child hname.proper, hlocation, ← List.cons_append] at hput
    have hf' : Site f₀ s rooms touched f' := by
      refine (hf.putsFile hput).mono (fun _ => id) fun way' hway' => ?_
      rcases hway' with rfl | hway'
      · exact htouched name
      · exact hway'
    have hfree' : ∀ name', f'.get? (name' :: way ++ s) ≠ some .directory := by
      intro name'
      by_cases heq : name' :: way ++ s = name :: way ++ s
      · obtain ⟨executable, hthere⟩ := hput.there
        rw [heq, hthere]
        simp
      · rw [hput.agree.get? _ heq]
        exact hfree name'
    obtain ⟨g, hg, hsite⟩ := ih hf' hfree' hrest
    exact ⟨g, bind_eq_ok_iff.2 ⟨_, _, wrap_of_ok (perform_copy hcopy), hg⟩, hsite⟩

end Site

/-! ## The stages of a build -/

theorem nameable_tree : Nameable "fmu" :=
  ⟨isFileName_of_length (by decide) (by decide), by decide, by decide⟩

theorem nameable_sources : Nameable "sources" :=
  ⟨isFileName_of_length (by decide) (by decide), by decide, by decide⟩

theorem nameable_build : Nameable "build" :=
  ⟨isFileName_of_length (by decide) (by decide), by decide, by decide⟩

/-- Where the texts of a unit are laid out. -/
def LaysAt (way : Location) : Prop :=
  way = [Descriptor.fileName, "fmu"] ∨ way = ["fmu"] ∨ isBelow way ["sources", "fmu"] = true

instance (way : Location) : Decidable (LaysAt way) := inferInstanceAs (Decidable (_ ∨ _))

theorem site_create {directory : Path} (hname : isName name = true)
    (hs : (Scratch.pathFor directory name).locationFrom f₀.here = s) {scratch : Scratch}
    (h : Scratch.create directory name f₀ = (.ok scratch, f)) :
    Site f₀ s [[]] (fun _ => False) f ∧ ScratchAt f₀ scratch.path s ∧
      Nameable ("." ++ name ++ ".fmu-build") := by
  obtain ⟨hworking, hpath, hscratch⟩ := (triple_create .never hname hs).of_ok rfl h
  obtain ⟨_, f', hcreate, hpure⟩ := bind_eq_ok_iff.1 h
  obtain ⟨-, rfl⟩ := pure_eq_ok hpure
  obtain ⟨last, d, slashed, proper, hfollow, hnew, hagree, -⟩ :=
    createDirectory_eq_ok (createDirectory_of_perform (wrap_eq_ok hcreate))
  have hlocation : last :: d = s := by
    rw [← hs]
    exact location_of_follow hfollow
  rw [hlocation] at hagree
  refine ⟨⟨hworking, fun way hway => ?_, fun way hne _ => ?_⟩, hscratch,
    nameable_of_follow (isFileName_around hname "." (by decide) (by decide)) hfollow⟩
  · rw [List.mem_singleton.1 hway]
    exact hworking.there
  · rw [hagree.get? _ (inside_append hne).2]
    exact f₀.get?_eq_none_of_new hscratch.new (inside_append hne).1

theorem Site.layOut (hf : Site f₀ s [[]] (fun _ => False) f) (h : ScratchAt f₀ scratch s)
    {skeleton : Skeleton} (hnames : ∀ name ∈ skeleton.names, Nameable name ∧
      f₀.isFile (skeleton.directory.child name) = true) (rendered : Rendered) :
    ∃ g, layOut .never (scratch.child "fmu") skeleton rendered f = (.ok (), g) ∧
      Site f₀ s [["sources", "fmu"], ["fmu"], []] LaysAt g := by
  have hinclude : Nameable "include" :=
    ⟨isFileName_of_length (by decide) (by decide), by decide, by decide⟩
  have hunit : Nameable Source.fileName :=
    ⟨isFileName_of_length (by decide) (by decide), by decide, by decide⟩
  have hdescriptor : Nameable Descriptor.fileName :=
    ⟨isFileName_of_length (by decide) (by decide), by decide, by decide⟩
  have htree : DescendsBy scratch ["fmu"] (scratch.child "fmu") := .child .self nameable_tree
  have hsources := htree.child nameable_sources
  obtain ⟨f1, h1, hadds⟩ := hf.createDirectories h .self (by simp) nameable_tree nameable_sources id
  have hf1 := hf.addsDirectories hadds
  obtain ⟨f2, h2, hf2⟩ := hf1.writeText h hsources (by simp) hunit (by simp) rendered.source
  obtain ⟨f3, h3, hf3⟩ := hf2.createDirectory h hsources (by simp) hinclude
    (by simp [Source.fileName])
  have hfree : ∀ name, f3.get? (name :: ["include", "sources", "fmu"] ++ s) ≠ some .directory := by
    intro name
    rw [hf3.untouched _ (List.cons_ne_nil _ _) (by simp)]
    simp
  have hlaid : Site f₀ s [["include", "sources", "fmu"], ["fmu"], ["sources", "fmu"], []]
      (fun way => way = ["fmu"] ∨ isBelow way ["sources", "fmu"] = true) f3 := by
    refine hf3.mono (by simp) fun way hway => ?_
    simp only [List.mem_cons, List.not_mem_nil, or_false] at hway
    rcases hway with rfl | rfl | rfl | rfl
    · exact .inr (by decide)
    · exact .inr (by decide)
    · exact .inl rfl
    · exact .inr (by decide)
  obtain ⟨f4, h4, hf4⟩ := hlaid.copies h (hsources.child hinclude) (by simp) hfree
    (fun name => .inr (isBelow_cons name (by decide))) hnames
    fun name => .files .copying (skeleton.directory.child name)
  obtain ⟨f5, h5, hf5⟩ := hf4.writeText h htree (by simp) hdescriptor (by decide)
    rendered.descriptor
  have hinstall : skeleton.install ((sourcesIn (scratch.child "fmu")).child "include") f2 =
      (.ok (), f4) := bind_eq_ok_iff.2 ⟨_, _, h3, h4⟩
  exact ⟨f5, bind_eq_ok_iff.2 ⟨_, _, h1, bind_eq_ok_iff.2 ⟨_, _, h2,
    bind_eq_ok_iff.2 ⟨_, _, hinstall, h5⟩⟩⟩, hf5.mono (by simp) fun way => id⟩

/-- Where a build works before it packs what it has built. -/
def WorksAt (way : Location) : Prop :=
  isBelow way ["fmu"] = true ∨ isBelow way ["build"] = true

theorem LaysAt.worksAt (h : LaysAt way) : WorksAt way := by
  rcases h with rfl | rfl | h
  · exact .inl (by decide)
  · exact .inl (by decide)
  · exact .inl (isBelow_trans h (by decide))

/-- Where something has been put by the time that the toolchain has returned. -/
def CompilesAt (way : Location) : Prop := isBelow way ["build"] = true ∨ LaysAt way

instance (way : Location) : Decidable (CompilesAt way) := inferInstanceAs (Decidable (_ ∨ _))

theorem CompilesAt.worksAt (h : CompilesAt way) : WorksAt way := by
  rcases h with h | h
  · exact .inr h
  · exact h.worksAt

/-- The files when the toolchain is called. -/
abbrev Site.Prepared (f₀ : Files) (s : Location) (f : Files) : Prop :=
  Site f₀ s [["build"], ["sources", "fmu"], ["fmu"], []] (fun way => way = ["build"] ∨ LaysAt way) f

/-- The files when the toolchain has returned. -/
abbrev Site.Compiled (f₀ : Files) (s : Location) (f : Files) : Prop :=
  Site f₀ s [["sources", "fmu"], ["fmu"], []] CompilesAt f

/-- The directory for the toolchain is created beside the tree. -/
theorem Site.createBuild (hf : Site f₀ s [["sources", "fmu"], ["fmu"], []] LaysAt f)
    (h : ScratchAt f₀ scratch s) :
    ∃ g, Package.createDirectory .never (scratch.child "build") f = (.ok (), g) ∧
      Site.Prepared f₀ s g := by
  obtain ⟨g, hg, hsite⟩ := hf.createDirectory h .self (by simp) nameable_build
    (by decide)
  refine ⟨g, hg, hsite.mono (by simp) fun way hway => ?_⟩
  simpa using hway

namespace Site.Prepared

theorem compiled (hf : Site.Prepared f₀ s f) : Site.Compiled f₀ s f :=
  hf.mono (by simp) fun _ hway => by
    rcases hway with rfl | hway
    · exact .inl (isBelow_refl _)
    · exact .inr hway

/-- The toolchain gets an empty directory. -/
theorem build_empty (hf : Site.Prepared f₀ s f) (h : ScratchAt f₀ scratch s) :
    f.isDirectory (scratch.child "build") = true ∧
      ∀ name, f.get? (name :: (scratch.child "build").locationFrom f.here) = none := by
  obtain ⟨hd, hlocation⟩ := hf.room h (.child .self nameable_build) (by simp)
  refine ⟨hd, fun name => ?_⟩
  rw [hlocation, ← List.cons_append]
  exact hf.untouched _ (List.cons_ne_nil _ _)
    (by simp [LaysAt, isBelow_iff, List.suffix_cons_iff])

/-- A confined toolchain leaves everything as it is that is not below its directory. -/
theorem compile {t : Toolchain} (ht : t.Confined) (hf : Site.Prepared f₀ s f)
    {r : Toolchain.Request} (hname : isName r.identifier = true)
    (hbuild : r.build.locationFrom f₀.here = "build" :: s) (h : t.compile r f = (.ok p, g)) :
    Site.Compiled f₀ s g ∧ ∃ way, p.locationFrom g.here = way ++ s := by
  have hagree := ht.agree r f hname
  have hlibrary := ht.library r f p g hname h
  rw [h] at hagree
  rw [hf.working.agree.here, hbuild] at hagree hlibrary
  have hsame (way : Location) (hway : ¬isBelow way ["build"] = true) :
      g.get? (way ++ s) = f.get? (way ++ s) := by
    refine hagree.get? _ fun hb => hway ?_
    rw [← List.singleton_append, isBelow_iff] at hb
    exact isBelow_iff.2 (List.suffix_append_self_iff.1 hb)
  have hsite : Site f₀ s [["sources", "fmu"], ["fmu"], []]
      (fun way => isBelow way ["build"] = true ∨ way = ["build"] ∨ LaysAt way) g := by
    refine hf.change (hagree.mono fun l hl => ?_) (by decide) fun way hway => ?_
    · obtain ⟨front, rfl⟩ := isBelow_iff.1 hl
      exact ⟨front ++ ["build"], isBelow_iff.2 (List.suffix_append _ _), by simp⟩
    · rw [hsame way, hf.there way (List.mem_cons_of_mem _ hway)]
      simp only [List.mem_cons, List.not_mem_nil, or_false] at hway
      rcases hway with rfl | rfl | rfl <;> decide
  refine ⟨hsite.mono (fun _ => id) fun way hway => ?_, ?_⟩
  · rcases hway with hway | rfl | hway
    · exact .inl hway
    · exact .inl (isBelow_refl _)
    · exact .inr hway
  · obtain ⟨front, hfront⟩ := isBelow_iff.1 hlibrary
    refine ⟨front ++ ["build"], ?_⟩
    rw [hagree.here, hf.working.agree.here, ← hfront]
    simp

end Site.Prepared

theorem AddsDirectories.isFile {new : List Location} (h : AddsDirectories f g new)
    (hfile : f.isFile p = true) : g.isFile p = true := by
  refine isFile_of_keeps hfile h.keeps (h.agree.get? _ fun hmem => ?_)
  obtain ⟨_, _, _, _, _, hfollow, hget⟩ := within_of_isFile hfile
  have hlocation := location_of_follow hfollow
  rw [Spot.location] at hlocation
  rw [hlocation, h.absent _ hmem] at hget
  cases hget

/-- A library is put in its place, wherever in the scratch directory it has been left. -/
theorem Site.Compiled.addLibrary (hf : Site.Compiled f₀ s f) (h : ScratchAt f₀ scratch s)
    {platform : Platform} (hid : Nameable platform.id)
    (hlibrary : Nameable (platform.libraryName name)) (hfile : f.isFile p = true)
    {source : Location} (hsource : p.locationFrom f.here = source ++ s) :
    ∃ f1 g, Package.createDirectory .never
        (((scratch.child "fmu").child "binaries").child platform.id) f = (.ok (), f1) ∧
      f1.move p ((((scratch.child "fmu").child "binaries").child platform.id).child
        (platform.libraryName name)) = .ok g ∧
      Site f₀ s [["sources", "fmu"], ["fmu"], []] WorksAt g := by
  have hbinaries : Nameable "binaries" :=
    ⟨isFileName_of_length (by decide) (by decide), by decide, by decide⟩
  have htree : DescendsBy scratch ["fmu"] (scratch.child "fmu") := .child .self nameable_tree
  -- a file is where something has been put
  have hworks : WorksAt source := by
    obtain ⟨content, hcontent⟩ := exists_content?_of_isFile hfile
    have hheld := held_of_content? hcontent
    rw [hsource] at hheld
    by_contra hnot
    by_cases hnil : source = []
    · rw [hnil, List.nil_append, held_of_directory hf.working.there] at hheld
      cases hheld
    · rw [held_of_none (hf.untouched source hnil (mt CompilesAt.worksAt hnot))] at hheld
      cases hheld
  obtain ⟨f1, h1, hadds⟩ := hf.createDirectories h htree (by simp) hbinaries hid (by decide)
  have hf1 := hf.addsDirectories hadds
  have hhere : f1.here = f.here := hadds.agree.here
  obtain ⟨g, hmove, hf2⟩ := hf1.move h ((htree.child hbinaries).child hid) (by simp) hlibrary
    (by simp [CompilesAt, LaysAt, isBelow_iff, List.suffix_cons_iff])
    (AddsDirectories.isFile hadds hfile) (hhere ▸ hsource)
  refine ⟨f1, g, h1, hmove, hf2.mono (by simp) fun way hway => ?_⟩
  have hbelow (front : Location) : WorksAt (front ++ ["fmu"]) :=
    .inl (isBelow_iff.2 (List.suffix_append front _))
  rcases hway with (rfl | rfl) | hway | hway
  · exact hworks
  · exact hbelow [platform.libraryName name, platform.id, "binaries"]
  · rcases List.mem_cons.1 hway with rfl | hway
    · exact hbelow ["binaries"]
    · rw [List.mem_singleton.1 hway]
      exact hbelow [platform.id, "binaries"]
  · exact hway.worksAt

/-- The sources are taken away, and the tree stays. -/
theorem Site.dropSources (hf : Site f₀ s [["sources", "fmu"], ["fmu"], []] WorksAt f)
    (h : ScratchAt f₀ scratch s) :
    ∃ g, dropSources .never (scratch.child "fmu") f = (.ok (), g) ∧
      Site f₀ s [["fmu"], []] WorksAt g := by
  have htree : DescendsBy scratch ["fmu"] (scratch.child "fmu") := .child .self nameable_tree
  obtain ⟨hd, hlocation⟩ := hf.room h htree (by simp)
  obtain ⟨g, hremove⟩ :
      ∃ g, f.removeDirectory (sourcesIn (scratch.child "fmu")) = .ok g := by
    refine ⟨_, removeDirectory_of_directory (follow_nameable hd nameable_sources) ?_⟩
    rw [hlocation]
    exact hf.there ["sources", "fmu"] (by simp)
  have hagree := removeDirectory_eq_ok hremove
  rw [sourcesIn, locationFrom_child nameable_sources.proper, hlocation] at hagree
  refine ⟨g, wrap_of_ok (perform_removeDirectory hremove), ?_⟩
  have hsite : Site f₀ s [["fmu"], []]
      (fun way => isBelow way ["sources", "fmu"] = true ∨ WorksAt way) g := by
    refine hf.change (hagree.mono fun l hl => ?_) (by decide) fun way hway => ?_
    · obtain ⟨front, rfl⟩ := isBelow_iff.1 hl
      exact ⟨front ++ ["sources", "fmu"], isBelow_iff.2 (List.suffix_append _ _), by simp⟩
    · rw [hagree.get? _ fun hb => ?_, hf.there way (List.mem_cons_of_mem _ hway)]
      have hshort := (isBelow_iff.1 hb).length_le
      simp only [List.mem_cons, List.not_mem_nil, or_false] at hway
      rcases hway with rfl | rfl
      all_goals
        simp only [List.length_append, List.length_cons, List.length_nil] at hshort
        omega
  refine hsite.mono (fun _ => id) fun way hway => ?_
  rcases hway with hb | hway
  · exact .inl (isBelow_trans hb (by decide))
  · exact hway

/-- What is below the tree is packed, whatever it is. -/
theorem Site.pack (hf : Site f₀ s [["fmu"], []] WorksAt f) (h : ScratchAt f₀ scratch s)
    (hzip : Nameable (name ++ ".zip")) :
    ∃ files g, pack (scratch.child "fmu") (scratch.child (name ++ ".zip")) f =
        (.ok (files.map Prod.fst), g) ∧ Working f₀ s g ∧
      Archived ((scratch.child (name ++ ".zip")).locationFrom f₀.here) files g := by
  have htree : DescendsBy scratch ["fmu"] (scratch.child "fmu") := .child .self nameable_tree
  obtain ⟨hd, -⟩ := hf.room h htree (by simp)
  obtain ⟨hscratch, hlocation⟩ := hf.room h .self (by simp)
  have hnew : ¬WorksAt [name ++ ".zip"] := by
    have hdot : '.' ∈ (name ++ ".zip").toList := by simp
    have hother : ∀ dir ∈ ["fmu", "build"], dir ≠ name ++ ".zip" := by
      rintro dir hdir rfl
      revert hdot
      simp only [List.mem_cons, List.not_mem_nil, or_false] at hdir
      rcases hdir with hdir | hdir
      · rw [hdir]; decide
      · rw [hdir]; decide
    simp only [WorksAt, isBelow_iff, List.suffix_cons_iff]
    simp [hother "fmu" (by simp), hother "build" (by simp)]
  have hnone := hf.untouched [name ++ ".zip"] (List.cons_ne_nil _ _) hnew
  generalize hfiles :
    Archive.ofDirectory f ((scratch.child "fmu").locationFrom f.here) = files
  obtain ⟨g, hwrite⟩ := write_child hscratch hzip (by
    rw [hlocation, ← List.cons_append, hnone]
    simp) (.archive files)
  have hfound : Action.wrap (PackageError.files .reading (scratch.child "fmu"))
      (look (·.directory? (scratch.child "fmu"))) f =
        (.ok ((scratch.child "fmu").locationFrom f.here), f) :=
    wrap_of_ok (look_of_ok (directory?_of_isDirectory hd))
  have hput := write_eq_ok hwrite
  have hinside : LeadsInside f₀ s (scratch.child (name ++ ".zip")) :=
    Descends.self.leadsInside h hzip.proper
  refine ⟨files, g, ?_, hf.working.change_at hinside hput.agree, ?_⟩
  · rw [pack_eq]
    refine bind_eq_ok_iff.2 ⟨_, _, hfound, bind_eq_ok_iff.2 ⟨files, f, ?_, ?_⟩⟩
    · exact look_of_ok (congrArg Except.ok hfiles)
    · exact bind_eq_ok_iff.2 ⟨_, _, wrap_of_ok (change_of_ok hwrite), rfl⟩
  · rw [← hf.working.agree.here]
    exact hput.there

/-! ## The whole work -/

/-- A name that is shorter than that of the scratch directory fits as well. -/
theorem nameable_after {after : String} (hname : isName name = true)
    (hscratch : Nameable ("." ++ name ++ ".fmu-build"))
    (hproper : '/' ∉ after.toList ∧ 3 ≤ after.length) (hzero : '\x00' ∉ after.toList)
    (hshort : after.utf8ByteSize ≤ 11) : Nameable (name ++ after) where
  proper := by
    have h : isFileName ("" ++ name ++ after) = true :=
      isFileName_around hname "" (by decide) hproper
    rwa [String.empty_append] at h
  nonzero := by
    rw [String.toList_append, List.mem_append, not_or]
    exact ⟨fun hc => absurd (isNameRest_of_mem hname hc) (by decide), hzero⟩
  fits := by
    have hfits := hscratch.fits
    have hdot : ".".utf8ByteSize = 1 := by decide
    have hending : ".fmu-build".utf8ByteSize = 10 := by decide
    simp only [String.utf8ByteSize_append] at hfits ⊢
    omega

theorem nameable_library {platform : Platform} (hname : isName name = true)
    (hscratch : Nameable ("." ++ name ++ ".fmu-build")) :
    Nameable (platform.libraryName name) := by
  rw [Platform.libraryName, String.append_assoc]
  cases platform.system <;>
    exact nameable_after hname hscratch (by decide) (by decide) (by decide)

/-- A scratch directory is created where there is none. -/
theorem exists_created {directory : Path} (hd : f.isDirectory directory = true)
    (hname : Nameable ("." ++ name ++ ".fmu-build"))
    (hnew : f.get? (("." ++ name ++ ".fmu-build") :: directory.locationFrom f.here) = none) :
    ∃ scratch created, Scratch.create directory name f = (.ok scratch, created) := by
  obtain ⟨g, hg⟩ := createDirectory_child hd hname hnew
  exact ⟨⟨_⟩, g, bind_eq_ok_iff.2 ⟨_, _, wrap_of_ok (perform_createDirectory hg), rfl⟩⟩

section

variable {destination : Destination} {skeleton : Skeleton} {directory : Path} {scratch : Scratch}

/-- Once the scratch directory is there, the sources are laid out in it without fail. -/
theorem exists_prepared (hopen : Skeleton.open? f₀ directory = .ok skeleton) (rendered : Rendered)
    (hs : (Scratch.pathFor destination.directory destination.name).locationFrom f₀.here = s)
    (hcreate : Scratch.create destination.directory destination.name f₀ = (.ok scratch, f)) :
    ScratchAt f₀ scratch.path s ∧
      ∃ prepared, prepare destination skeleton rendered f₀ = (.ok scratch, prepared) ∧
        Site.Prepared f₀ s prepared := by
  obtain ⟨hf, hscratch, -⟩ := site_create destination.isName hs hcreate
  obtain ⟨f1, h1, hf1⟩ := hf.layOut hscratch (nameable_of_open? hopen) rendered
  obtain ⟨f2, h2, hf2⟩ := hf1.createBuild hscratch
  exact ⟨hscratch, f2, bind_eq_ok_iff.2 ⟨_, _, hcreate, bind_eq_ok_iff.2 ⟨_, _, h1,
    bind_eq_ok_iff.2 ⟨_, _, h2, rfl⟩⟩⟩, hf2⟩

/-- Once the toolchain has left a library in the scratch directory, the unit is packed without
fail. -/
theorem exists_assembled {t : Toolchain} {job : Job} {rendered : Rendered}
    {prepared compiled : Files} {library : Path} (hid : Nameable job.platform.id)
    (hs : (Scratch.pathFor destination.directory destination.name).locationFrom f₀.here = s)
    (hcreate : Scratch.create destination.directory destination.name f₀ = (.ok scratch, f))
    (hprepare : prepare destination skeleton rendered f₀ = (.ok scratch, prepared))
    (hcompile : t.compile (requestFor scratch.path destination.name job.platform) prepared =
      (.ok library, compiled))
    (hcompiled : Site.Compiled f₀ s compiled) (hfile : compiled.isFile library = true)
    (hlibrary : ∃ way, library.locationFrom compiled.here = way ++ s) :
    ∃ files g, assemble t job destination.name skeleton rendered scratch.path f =
        (.ok (files.map Prod.fst), g) ∧ Working f₀ s g ∧
      Archived ((scratch.path.child (destination.name ++ ".zip")).locationFrom f₀.here) files g := by
  obtain ⟨-, hscratch, hname⟩ := site_create destination.isName hs hcreate
  obtain ⟨_, _, hcreate', hrest⟩ := bind_eq_ok_iff.1 hprepare
  cases hcreate.symm.trans hcreate'
  obtain ⟨_, f1, h1, hrest⟩ := bind_eq_ok_iff.1 hrest
  obtain ⟨_, _, hbuild, hpure⟩ := bind_eq_ok_iff.1 hrest
  obtain ⟨-, rfl⟩ := pure_eq_ok hpure
  obtain ⟨source, hsource⟩ := hlibrary
  obtain ⟨f2, f3, hbinaries, hmove, hf3⟩ := hcompiled.addLibrary hscratch hid
    (nameable_library destination.isName hname) hfile hsource
  have h2 : addLibrary .never t (scratch.path.child "fmu") (scratch.path.child "build")
      destination.name job.platform f1 = (.ok (), f3) := by
    refine bind_eq_ok_iff.2 ⟨_, _, hbuild, bind_eq_ok_iff.2 ⟨_, _, hcompile, ?_⟩⟩
    refine bind_eq_ok_iff.2 ⟨_, _, look_of_ok rfl, ?_⟩
    simp only [hfile, Bool.not_true, Bool.false_eq_true, if_false]
    exact bind_eq_ok_iff.2 ⟨_, _, hbinaries, wrap_of_ok (perform_move hmove)⟩
  have hzip : Nameable (destination.name ++ ".zip") :=
    nameable_after destination.isName hname (by decide) (by decide) (by decide)
  cases hkeep : job.keepSources with
  | true =>
    obtain ⟨files, g, h4, hg⟩ := (hf3.mono (by simp) fun _ => id).pack hscratch hzip
    refine ⟨files, g, bind_eq_ok_iff.2 ⟨_, _, h1, bind_eq_ok_iff.2 ⟨_, _, h2, ?_⟩⟩, hg⟩
    simp only [hkeep, Bool.not_true, Bool.false_eq_true, if_false]
    exact h4
  | false =>
    obtain ⟨f4, h4, hf4⟩ := hf3.dropSources hscratch
    obtain ⟨files, g, h5, hg⟩ := hf4.pack hscratch hzip
    refine ⟨files, g, bind_eq_ok_iff.2 ⟨_, _, h1, bind_eq_ok_iff.2 ⟨_, _, h2, ?_⟩⟩, hg⟩
    simp only [hkeep, Bool.not_false, if_true]
    exact bind_eq_ok_iff.2 ⟨_, _, h4, h5⟩

end

end Package
end LtiUnit
