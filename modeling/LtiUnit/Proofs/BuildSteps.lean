import LtiUnit.Package.Build
import LtiUnit.Proofs.DiscreetSteps
import LtiUnit.Proofs.FileNames

/-!
# LtiUnit.Proofs.BuildSteps

The work that a build does in its scratch directory, step by step. Taken without a break it is that
of `LtiUnit.Package.Build` (`run_work`), and it is discreet if the toolchain is
(`AtScratch.discreet_work`).
-/

namespace LtiUnit

open LtiUnit.Files LtiUnit.Path LtiUnit.Package

/-- A toolchain that can be left off between its steps. -/
structure Stepwise.Toolchain where
  name : String
  compile : Toolchain.Request → Stepwise PackageError Path

namespace Stepwise

def Toolchain.run (t : Stepwise.Toolchain) : LtiUnit.Toolchain where
  name := t.name
  compile r := (t.compile r).run

def createDirectory (p : Path) : Stepwise PackageError Unit :=
  (createDirectories p).wrap (.files .creating p)

def writeText (p : Path) (s : String) : Stepwise PackageError Unit :=
  (write p (.ofText s)).wrap (.files .writing p)

def install (s : Skeleton) (target : Path) : Stepwise PackageError Unit := do
  (createDirectories target).wrap (.files .creating target)
  s.names.forM fun name =>
    let file := s.directory.child name
    (copy file (target.child name)).wrap (.files .copying file)

def layOut (tree : Path) (skeleton : Skeleton) (rendered : Rendered) :
    Stepwise PackageError Unit := do
  let sources := sourcesIn tree
  createDirectory sources
  writeText (sources.child Source.fileName) rendered.source
  install skeleton (sources.child "include")
  writeText (tree.child Descriptor.fileName) rendered.descriptor

def addLibrary (toolchain : Stepwise.Toolchain) (tree build : Path) (name : String)
    (platform : Platform) : Stepwise PackageError Unit := do
  createDirectory build
  let library ← toolchain.compile ⟨sourcesIn tree, build, name, platform⟩
  if !(← once (Action.look fun f => .ok (f.isFile library))) then
    done (.error (.noLibrary library))
  let binaries := (tree.child "binaries").child platform.id
  createDirectory binaries
  (once (Action.change (·.move library (binaries.child (platform.libraryName name))))).wrap
    (.files .moving library)

def dropSources (tree : Path) : Stepwise PackageError Unit :=
  (removeDirectory (sourcesIn tree)).wrap (.files .removing (sourcesIn tree))

/-- What a build does before it packs its tree. -/
def work (toolchain : Stepwise.Toolchain) (scratch : Path) (name : String) (skeleton : Skeleton)
    (rendered : Rendered) (platform : Platform) (keepSources : Bool) :
    Stepwise PackageError Unit := do
  let tree := scratch.child "fmu"
  layOut tree skeleton rendered
  addLibrary toolchain tree (scratch.child "build") name platform
  if !keepSources then dropSources tree

/-! ## Without a break -/

theorem run_createDirectory (p : Path) :
    (createDirectory p).run = Package.createDirectory .never p := by
  rw [createDirectory, run_wrap, run_createDirectories]
  rfl

theorem run_writeText (p : Path) (s : String) :
    (writeText p s).run = Package.writeText .never p s := by
  rw [writeText, run_wrap, run_write]
  rfl

theorem run_install (s : Skeleton) (target : Path) :
    (install s target).run = s.installUnder .never target := by
  simp only [install, run_bind, run_wrap, run_createDirectories, run_forM, run_copy]
  rfl

theorem run_layOut (tree : Path) (skeleton : Skeleton) (rendered : Rendered) :
    (layOut tree skeleton rendered).run = Package.layOut .never tree skeleton rendered := by
  simp only [layOut, run_bind, run_createDirectory, run_writeText, run_install, Package.layOut]

theorem run_addLibrary (toolchain : Stepwise.Toolchain) (tree build : Path) (name : String)
    (platform : Platform) :
    (addLibrary toolchain tree build name platform).run =
      Package.addLibrary .never toolchain.run tree build name platform := by
  simp only [addLibrary, run_bind, run_createDirectory, run_once, Package.addLibrary,
    Toolchain.run]
  refine bind_congr fun _ => bind_congr fun library => bind_congr fun found => ?_
  split
  · rfl
  · simp only [run_bind, run_createDirectory, run_wrap, run_once]
    rfl

theorem run_dropSources (tree : Path) :
    (dropSources tree).run = Package.dropSources .never tree := by
  rw [dropSources, run_wrap, run_removeDirectory]
  rfl

theorem run_work (toolchain : Stepwise.Toolchain) (scratch : Path) (name : String)
    (skeleton : Skeleton) (rendered : Rendered) (platform : Platform) (keepSources : Bool) :
    (work toolchain scratch name skeleton rendered platform keepSources).run = (do
      let tree := scratch.child "fmu"
      Package.layOut .never tree skeleton rendered
      Package.addLibrary .never toolchain.run tree (scratch.child "build") name platform
      if !keepSources then Package.dropSources .never tree) := by
  simp only [work, run_bind, run_layOut, run_addLibrary]
  refine bind_congr fun _ => bind_congr fun _ => ?_
  split
  · exact run_dropSources _
  · rfl

end Stepwise

/-! ## Discretion -/

/-- Whether a toolchain changes nothing but what lies in the directory that it works in, leaves the
library there, and does not look into scratch trees that its paths keep out of. -/
structure Stepwise.Toolchain.Discreet (t : Stepwise.Toolchain) (here : Location)
    (trees : Location → Prop) : Prop where
  compile : ∀ r : Toolchain.Request, isName r.identifier = true →
    ∀ b : Bounds, b.here = here → b.Clear r.sources → b.Clear r.build →
      (∀ l, isBelow l (r.build.locationFrom here) = true → b.own l) →
        (∀ l, b.others l → trees l) → (t.compile r).Discreet b (Descends r.build)

/-- Whether a scratch directory is one's own. -/
structure Bounds.AtScratch (b : Bounds) (scratch : Path) : Prop where
  clear : b.Clear scratch
  own : ∀ l, Inside l (scratch.locationFrom b.here) → b.own l
  there : ∀ f, b.Holds f → f.ensureDirectory scratch = .ok f
  named : scratch.EndsInName

namespace Bounds.AtScratch

open Stepwise

variable {b : Bounds} {scratch p : Path} {name : String}

theorem isBelow_location (hp : Descends scratch p) (w : Location) :
    isBelow (p.locationFrom w) (scratch.locationFrom w) = true := by
  induction hp with
  | self => exact isBelow_refl _
  | child _ hname ih =>
    rw [locationFrom_child hname]
    exact isBelow_cons _ ih

theorem own_child (h : b.AtScratch scratch) (hp : Descends scratch p)
    (hname : isFileName name = true) : b.own ((p.child name).locationFrom b.here) := by
  rw [locationFrom_child hname]
  exact h.own _ (inside_cons (isBelow_location hp b.here) name)

theorem clear_of_descends (h : b.AtScratch scratch) (hp : Descends scratch p) : b.Clear p := by
  induction hp with
  | self => exact h.clear
  | child hq hname ih =>
    intro t ht
    refine (avoids_child hname).2 ⟨ih t ht, ?_⟩
    rw [← locationFrom_child hname]
    exact b.apart _ t (h.own_child hq hname) ht

theorem leads_child (h : b.AtScratch scratch) (hp : Descends scratch p)
    (hname : isFileName name = true) : b.Leads (p.child name) :=
  ⟨h.clear_of_descends (hp.child hname), h.own_child hp hname⟩

/-- What goes down from a directory inside the scratch directory leads to one's own. -/
theorem leads (h : b.AtScratch scratch) {d : Path} (hd : Descends scratch d)
    (hname : isFileName name = true) (hp : Descends (d.child name) p) : b.Leads p := by
  cases hp with
  | self => exact h.leads_child hd hname
  | child hq hname' => exact h.leads_child ((hd.child hname).trans hq) hname'

theorem discreet_createDirectories (h : b.AtScratch scratch) (hp : Descends scratch p) :
    (createDirectories p).Discreet b fun _ => True := by
  obtain ⟨inner, heq, hinner⟩ := hp.ancestors h.named
  obtain ⟨parents, hparents⟩ := ancestors_eq_cons scratch
  rw [createDirectories, heq, hparents]
  refine discreet_createAll (fun q hq => ?_) h.clear h.there
  obtain ⟨d, name, hd, hname, rfl⟩ := hinner q hq
  exact h.leads_child hd hname

theorem discreet_createDirectory (h : b.AtScratch scratch) (hp : Descends scratch p) :
    (Stepwise.createDirectory p).Discreet b fun _ => True :=
  discreet_wrap (h.discreet_createDirectories hp) _

theorem discreet_writeText (h : b.AtScratch scratch) (hp : Descends scratch p)
    (hname : isFileName name = true) (s : String) :
    (Stepwise.writeText (p.child name) s).Discreet b fun _ => True :=
  discreet_wrap (discreet_write (h.leads_child hp hname) _) _

variable {tree : Path} {skeleton : Skeleton}

theorem discreet_install (h : b.AtScratch scratch) (hp : Descends scratch p)
    (hproper : ∀ name ∈ skeleton.names, isFileName name = true)
    (hclear : ∀ name ∈ skeleton.names, b.Clear (skeleton.directory.child name)) :
    (install skeleton p).Discreet b fun _ => True := by
  refine discreet_bind (R := fun _ => True)
    (discreet_wrap (h.discreet_createDirectories hp) _) fun _ _ => ?_
  refine discreet_forM fun name hname => discreet_wrap ?_ _
  exact discreet_copy (hclear name hname) (h.leads_child hp (hproper name hname))

theorem discreet_layOut (h : b.AtScratch scratch) (ht : Descends scratch tree)
    (hproper : ∀ name ∈ skeleton.names, isFileName name = true)
    (hclear : ∀ name ∈ skeleton.names, b.Clear (skeleton.directory.child name))
    (rendered : Rendered) : (Stepwise.layOut tree skeleton rendered).Discreet b fun _ => True := by
  have hsources : Descends scratch (sourcesIn tree) :=
    ht.child (isFileName_of_length (by decide) (by decide))
  have hheaders : Descends scratch ((sourcesIn tree).child "include") :=
    hsources.child (isFileName_of_length (by decide) (by decide))
  refine discreet_bind (h.discreet_createDirectory hsources) fun _ _ => ?_
  refine discreet_bind (h.discreet_writeText hsources
    (isFileName_of_length (by decide) (by decide)) _) fun _ _ => ?_
  refine discreet_bind (h.discreet_install hheaders hproper hclear) fun _ _ => ?_
  exact h.discreet_writeText ht (isFileName_of_length (by decide) (by decide)) _

theorem discreet_dropSources (h : b.AtScratch scratch) (ht : Descends scratch tree) :
    (Stepwise.dropSources tree).Discreet b fun _ => True := by
  have hsources : isFileName "sources" = true := isFileName_of_length (by decide) (by decide)
  refine discreet_wrap (discreet_removeDirectory (h.clear_of_descends (ht.child hsources))
    fun l hl => h.own l ?_) _
  rw [locationFrom_child hsources] at hl
  exact (inside_cons (isBelow_location ht b.here) _).below hl

theorem discreet_addLibrary (h : b.AtScratch scratch) (ht : Descends scratch tree)
    {d : Path} (hd : Descends scratch d) (hname : isFileName name = true)
    {toolchain : Stepwise.Toolchain} {identifier : String} (hid : isName identifier = true)
    (platform : Platform)
    (hcompile : (toolchain.compile ⟨sourcesIn tree, d.child name, identifier, platform⟩).Discreet b
      (Descends (d.child name))) :
    (Stepwise.addLibrary toolchain tree (d.child name) identifier platform).Discreet b
      fun _ => True := by
  have hbinaries : Descends scratch ((tree.child "binaries").child platform.id) :=
    (ht.child (isFileName_of_length (by decide) (by decide))).child (isFileName_id platform)
  refine discreet_bind (h.discreet_createDirectory (hd.child hname)) fun _ _ => ?_
  refine discreet_bind hcompile fun library hlibrary => ?_
  have hleads := h.leads hd hname hlibrary
  refine discreet_bind (R := fun _ => True)
    (discreet_once (Action.discreet_isFile hleads.clear) fun _ _ _ _ => trivial) fun found _ => ?_
  have hrest : (do
      Stepwise.createDirectory ((tree.child "binaries").child platform.id)
      (once (Action.change (·.move library (((tree.child "binaries").child platform.id).child
        (platform.libraryName identifier))))).wrap (PackageError.files .moving library) :
          Stepwise PackageError Unit).Discreet b fun _ => True := by
    refine discreet_bind (h.discreet_createDirectory hbinaries) fun _ _ => discreet_wrap ?_ _
    refine discreet_once (Action.discreet_move hleads ?_) fun _ _ _ _ => trivial
    exact h.leads_child hbinaries (isFileName_libraryName platform hid)
  dsimp only
  split
  · exact .error
  · exact hrest

theorem discreet_work (h : b.AtScratch scratch)
    (hproper : ∀ name ∈ skeleton.names, isFileName name = true)
    (hclear : ∀ name ∈ skeleton.names, b.Clear (skeleton.directory.child name))
    {toolchain : Stepwise.Toolchain} {identifier : String} (hid : isName identifier = true)
    {platform : Platform}
    (hcompile : (toolchain.compile ⟨sourcesIn (scratch.child "fmu"), scratch.child "build",
      identifier, platform⟩).Discreet b (Descends (scratch.child "build")))
    (rendered : Rendered) (keepSources : Bool) :
    (work toolchain scratch identifier skeleton rendered platform keepSources).Discreet b
      fun _ => True := by
  have htree : Descends scratch (scratch.child "fmu") :=
    .child .self (isFileName_of_length (by decide) (by decide))
  have hbuild : isFileName "build" = true := isFileName_of_length (by decide) (by decide)
  refine discreet_bind (h.discreet_layOut htree hproper hclear rendered) fun _ _ => ?_
  refine discreet_bind (h.discreet_addLibrary htree .self hbuild hid platform hcompile)
    fun _ _ => ?_
  split
  · exact h.discreet_dropSources htree
  · exact .ok trivial

end Bounds.AtScratch
end LtiUnit
