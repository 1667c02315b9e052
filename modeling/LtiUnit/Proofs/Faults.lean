import LtiUnit.Package.Build
import LtiUnit.Proofs.Progress

/-!
# LtiUnit.Proofs.Faults

Builds on a system on which things may go wrong, compared with builds where nothing does.

Where nothing goes wrong, nobody is denied anything (`enter_never`), and an archive that is filled
file by file comes to one that is written at once (`pack_eq`). Where things may go wrong, a course
of actions that succeeds has met no fault, so it comes to what it comes to without any
(`Action.Follows`, `follows_buildUnder`).
-/

namespace LtiUnit

open LtiUnit.Files LtiUnit.Path LtiUnit.Action

/-! ## Changes that are made -/

namespace Action

variable {faults : Faults} {c : Change} {f g : Files} {p q : Path} {content : Content} {u : Unit}

/-- A change that succeeds has been made. -/
theorem perform_eq_ok (h : perform faults c f = (.ok u, g)) : c.make f = (.ok u, g) := by
  unfold perform at h
  split at h
  · cases h
  · exact h

theorem createDirectory_of_perform (h : perform faults (.createDirectory p) f = (.ok u, g)) :
    f.createDirectory p = .ok g := change_eq_ok (q := (·.createDirectory p)) (perform_eq_ok h)

theorem createDirectories_of_perform (h : perform faults (.createDirectories p) f = (.ok u, g)) :
    createDirectories p f = (.ok u, g) := perform_eq_ok h

theorem write_of_perform (h : perform faults (.write p content) f = (.ok u, g)) :
    f.write p content = .ok g := change_eq_ok (q := (·.write p content)) (perform_eq_ok h)

theorem copy_of_perform (h : perform faults (.copy p q) f = (.ok u, g)) : f.copy p q = .ok g :=
  change_eq_ok (q := (·.copy p q)) (perform_eq_ok h)

theorem move_of_perform (h : perform faults (.move p q) f = (.ok u, g)) : f.move p q = .ok g :=
  change_eq_ok (q := (·.move p q)) (perform_eq_ok h)

theorem removeDirectory_of_perform (h : perform faults (.removeDirectory p) f = (.ok u, g)) :
    f.removeDirectory p = .ok g := change_eq_ok (q := (·.removeDirectory p)) (perform_eq_ok h)

theorem perform_createDirectory (h : f.createDirectory p = .ok g) :
    perform .never (.createDirectory p) f = (.ok (), g) :=
  change_of_ok (q := (·.createDirectory p)) h

theorem perform_write (h : f.write p content = .ok g) :
    perform .never (.write p content) f = (.ok (), g) := change_of_ok (q := (·.write p content)) h

theorem perform_copy (h : f.copy p q = .ok g) : perform .never (.copy p q) f = (.ok (), g) :=
  change_of_ok (q := (·.copy p q)) h

theorem perform_move (h : f.move p q = .ok g) : perform .never (.move p q) f = (.ok (), g) :=
  change_of_ok (q := (·.move p q)) h

theorem perform_removeDirectory (h : f.removeDirectory p = .ok g) :
    perform .never (.removeDirectory p) f = (.ok (), g) :=
  change_of_ok (q := (·.removeDirectory p)) h

end Action

/-! ## Nobody is denied anything -/

namespace Files

variable {f g : Files} {p : Path} {d : Location} {e : FileError}

theorem not_isDenial_of_named {name : String} (h : named name d = .error e) :
    e.isDenial = false := by
  unfold named at h
  split at h
  · cases h
    rfl
  · cases h

theorem not_isDenial_of_step {segment : String} (h : f.step d segment = .error e) :
    e.isDenial = false := by
  unfold step at h
  split at h
  · cases h
  · split at h
    · cases h
    · cases hn : named segment d with
      | error e' =>
        rw [hn] at h
        cases h
        exact not_isDenial_of_named hn
      | ok l =>
        simp only [hn, bind, Except.bind] at h
        split at h
        · cases h
        · cases h
          rfl
        · cases h
          rfl

theorem not_isDenial_of_walk {segments : List String} (h : f.walk d segments = .error e) :
    e.isDenial = false := by
  induction segments generalizing d with
  | nil => cases h
  | cons segment segments ih =>
    rw [walk, List.foldlM_cons] at h
    cases hs : f.step d segment with
    | error e' =>
      rw [hs] at h
      cases h
      exact not_isDenial_of_step hs
    | ok d' =>
      rw [hs] at h
      exact ih h

theorem not_isDenial_of_start (h : f.start p = .error e) : e.isDenial = false := by
  unfold start at h
  split at h
  · cases h
  · split at h
    · cases h
    · cases h
      rfl

theorem not_isDenial_of_follow (h : f.follow p = .error e) : e.isDenial = false := by
  unfold follow at h
  split at h
  · cases h
    rfl
  · split at h
    · cases h
      rfl
    · cases hstart : f.start p with
      | error e' =>
        rw [hstart] at h
        cases h
        exact not_isDenial_of_start hstart
      | ok d =>
        simp only [hstart, bind, Except.bind] at h
        split at h
        · cases h
        · rename_i last before _
          cases hwalk : f.walk d before.reverse with
          | error e' =>
            rw [hwalk] at h
            cases h
            exact not_isDenial_of_walk hwalk
          | ok d' =>
            simp only [hwalk] at h
            split at h
            · cases hn : named last d' with
              | error e' =>
                rw [hn] at h
                cases h
                exact not_isDenial_of_named hn
              | ok l =>
                rw [hn] at h
                cases h
            · split at h
              · cases h
              · cases h

theorem not_isDenial_of_createDirectory (h : f.createDirectory p = .error e) :
    e.isDenial = false := by
  unfold createDirectory at h
  cases hf : f.follow p with
  | error e' =>
    rw [hf] at h
    cases h
    exact not_isDenial_of_follow hf
  | ok spot =>
    simp only [hf, bind, Except.bind] at h
    split at h
    · cases h
      rfl
    · split at h
      · split at h
        · cases h
        · cases h
          rfl
      · cases h
        rfl

end Files

namespace Package

/-- Where nothing goes wrong, a scratch directory is never denied. -/
theorem enter_never (output : Path) (destination : Destination) :
    enter .never output destination =
      Scratch.create destination.directory destination.name := by
  funext f
  simp only [enter, Scratch.create, Scratch.createUnder, bind_apply, wrap, perform_never,
    Change.make, Action.change]
  cases hcreate : f.createDirectory (Scratch.pathFor destination.directory destination.name) with
  | ok g => rfl
  | error e =>
    have hdenied := not_isDenial_of_createDirectory hcreate
    by_cases hexists : e = .exists
    · simp only [hexists, if_true]
      rfl
    · simp only [hexists, if_false, atDestination, hdenied, Bool.false_eq_true]

end Package

theorem Package.openUnder_never (directory : Path) :
    Package.Skeleton.openUnder .never directory = look (Package.Skeleton.open? · directory) := rfl

/-! ## Writing again -/

namespace Files

variable {f g : Files} {p : Path} {name : String} {d : Location} {content content' : Content}

theorem setFile_setFile (f : Files) (name : String) (d : Location) (content content' : Content)
    (executable executable' : Bool) (proper : isFileName name = true)
    (within : f.get? d = some .directory) (free : f.get? (name :: d) ≠ some .directory)
    (within' : (f.setFile name d content executable proper within free).get? d = some .directory)
    (free' : (f.setFile name d content executable proper within free).get? (name :: d) ≠
      some .directory) :
    (f.setFile name d content executable proper within free).setFile name d content' executable'
        proper within' free' = f.setFile name d content' executable' proper within free := by
  refine eq_of_entries ?_ rfl
  simp [setFile, List.filter_filter]

theorem write_eq_setFile {proper : isFileName name = true}
    (h : f.follow p = .ok (.within name d false proper))
    (hfree : f.get? (name :: d) ≠ some .directory) (content : Content) :
    f.write p content = .ok (f.setFile name d content ((f.executable? p).getD false) proper
      (directory_of_within h) hfree) := by
  have hwithin := directory_of_within h
  have hd : d ≠ name :: d := fun heq => absurd (congrArg List.length heq) (by simp)
  have hwithin' (executable : Bool) :
      (f.setFile name d (.data .empty) executable proper hwithin hfree).get? d =
        some .directory := by
    rw [get?_setFile, if_neg hd, hwithin]
  have hfree' (executable : Bool) :
      (f.setFile name d (.data .empty) executable proper hwithin hfree).get? (name :: d) ≠
        some .directory := by
    rw [get?_setFile, if_pos rfl]
    simp
  simp only [write, writeAs, create, h, bind, Except.bind, dif_pos hwithin, dif_pos hfree]
  simp only [pure, Except.pure, fill, dif_pos proper, dif_pos (hwithin' _), dif_pos (hfree' _),
    setFile_setFile]

theorem within_of_write (h : f.write p content = .ok g) : ∃ name d proper,
    f.follow p = .ok (.within name d false proper) ∧ f.get? (name :: d) ≠ some .directory := by
  cases hf : f.follow p with
  | error e => simp [write, writeAs, create, hf, bind, Except.bind] at h
  | ok spot =>
    simp only [write, writeAs, create, hf, bind, Except.bind] at h
    split at h
    · cases h
    · rename_i x hx
      split at hx
      · cases hx
      · cases hx
      · split at hx
        · split at hx
          · rename_i hfree
            exact ⟨_, _, _, rfl, hfree⟩
          · cases hx
        · cases hx

/-- A file that has been written can be written with anything else, and then nothing is left of what
was written before. -/
theorem write_write (h : f.write p content = .ok g) (content' : Content) :
    ∃ g', g.write p content' = .ok g' ∧ f.write p content' = .ok g' := by
  obtain ⟨name, d, proper, hfollow, hfree⟩ := within_of_write h
  have hg := (write_eq_setFile hfollow hfree content).symm.trans h
  rw [Except.ok.injEq] at hg
  have hget : g.get? (name :: d) = some (.file content ((f.executable? p).getD false)) := by
    rw [← hg, get?_setFile, if_pos rfl]
  have hfollow' : g.follow p = .ok (.within name d false proper) := by
    have hkeeps : Keeps f g := (write_eq_ok h).agree.keeps fun l hl hdir => by
      have hl' := location_of_follow hfollow
      rw [Spot.location] at hl'
      exact absurd (hl' ▸ hl ▸ hdir) hfree
    exact hkeeps.follow hfollow
  have hmode : g.executable? p = some ((f.executable? p).getD false) := by
    rw [executable?, find?_of_file hfollow' hget]
  have hfree' : g.get? (name :: d) ≠ some .directory := by
    rw [hget]
    simp
  refine ⟨_, ?_, write_eq_setFile hfollow hfree content'⟩
  rw [write_eq_setFile hfollow' hfree' content', hmode, Option.getD_some]
  subst hg
  rw [setFile_setFile]

/-- Whether a file can be written does not depend on what it is to hold. -/
theorem write_eq_error {e : FileError} (h : f.write p content = .error e) (content' : Content) :
    f.write p content' = .error e := by
  simp only [write, writeAs, bind, Except.bind] at h ⊢
  cases hcreate : f.create p ((f.executable? p).getD false) with
  | error e' =>
    rw [hcreate] at h
    exact h
  | ok x =>
    rw [hcreate] at h
    cases h

end Files

/-! ## Filling an archive -/

namespace Package

variable {f g : Files} {root archive : Path}

theorem addFiles_never (root : Path) {held : List (String × Content)}
    (h : f.write archive (.archive held) = .ok g) (more : List (String × Content)) :
    ∃ g', f.write archive (.archive (held ++ more)) = .ok g' ∧
      addFiles .never root archive held more g = (.ok (), g') := by
  induction more generalizing held g with
  | nil => exact ⟨g, by rw [List.append_nil, h], rfl⟩
  | cons file more ih =>
    obtain ⟨g1, hg1, hf1⟩ := write_write h (.archive (held ++ [file]))
    obtain ⟨g2, hg2, hadd⟩ := ih hf1
    rw [List.append_assoc, List.singleton_append] at hg2
    exact ⟨g2, hg2, bind_eq_ok_iff.2 ⟨(), g, rfl,
      bind_eq_ok_iff.2 ⟨(), g1, wrap_of_ok (perform_write hg1), hadd⟩⟩⟩

theorem readAll_never (root : Path) (names : List String) :
    readAll .never root names = pure () := by
  induction names with
  | nil => rfl
  | cons name names ih => exact ih

/-- Where nothing goes wrong, an archive comes to what it comes to if it is written at once. -/
theorem pack_eq (root archive : Path) :
    pack root archive = do
      let d ← wrap (.files .reading root) (look (·.directory? root))
      let files ← look fun f => .ok (Archive.ofDirectory f d)
      wrap (.files .creating archive) (Action.change (·.write archive (.archive files)))
      return files.map Prod.fst := by
  have hroot : Action.read .never root (PackageError.files .reading root) (fun f =>
      (f.directory? root).mapError (PackageError.files .reading root)) =
        wrap (.files .reading root) (look (·.directory? root)) := by
    funext f
    simp only [read_never, look, wrap]
    cases f.directory? root <;> rfl
  have hread (d : Location) : (do
      let names ← look fun f => .ok (Archive.directoriesBelow f d)
      readAll .never root names) = (pure () : Action PackageError Unit) := by
    funext f
    simp only [readAll_never]
    rfl
  rw [pack, packUnder, hroot]
  refine bind_congr fun d => ?_
  rw [← bind_assoc, hread, pure_bind]
  refine bind_congr fun files => ?_
  funext f
  simp only [perform_never, Change.make, bind_apply, wrap, Action.change]
  cases hcreate : f.write archive (.archive []) with
  | error e => rw [write_eq_error hcreate]
  | ok g =>
    obtain ⟨g', hwrite, hadd⟩ := addFiles_never root hcreate files
    rw [List.nil_append] at hwrite
    simp only [hadd, hwrite]

end Package

/-! ## Courses that succeed -/

namespace Action

variable {ε δ α β : Type} {act act' : Action ε α}

/-- Whether a course that succeeds comes to what another one comes to. -/
def Follows (act act' : Action ε α) : Prop := ∀ f x g, act f = (.ok x, g) → act' f = (.ok x, g)

namespace Follows

theorem refl (act : Action ε α) : act.Follows act := fun _ _ _ h => h

theorem bind {next next' : α → Action ε β} (h : act.Follows act')
    (hnext : ∀ x, (next x).Follows (next' x)) : (act >>= next).Follows (act' >>= next') := by
  intro f y g hy
  obtain ⟨x, f', hact, hrest⟩ := bind_eq_ok_iff.1 hy
  exact bind_eq_ok_iff.2 ⟨x, f', h f x f' hact, hnext x f' y g hrest⟩

theorem wrap {act act' : Action δ α} {w : δ → ε} (h : act.Follows act') :
    (act.wrap w).Follows (act'.wrap w) :=
  fun f x g hx => wrap_of_ok (h f x g (wrap_eq_ok hx))

theorem forM {act act' : β → Action ε Unit} (h : ∀ x, (act x).Follows (act' x)) (xs : List β) :
    (xs.forM act).Follows (xs.forM act') := by
  induction xs with
  | nil => exact refl _
  | cons x xs ih => exact (h x).bind fun _ => ih

theorem andFinally {last : Action δ Unit} (h : act.Follows act') :
    (act.andFinally last).Follows (act'.andFinally last) := by
  intro f x g hx
  obtain ⟨f', hact, rfl⟩ := andFinally_eq_ok hx
  simp only [Action.andFinally, h f x f' hact]

end Follows

theorem follows_perform (faults : Faults) (c : Change) :
    (perform faults c).Follows (perform .never c) := fun _ _ _ h => perform_eq_ok h

theorem follows_read (faults : Faults) (p : Path) (w : FileError → ε)
    (q : Files → Except ε α) : (read faults p w q).Follows (read .never p w q) := by
  intro f x g h
  unfold read at h
  split at h
  · cases h
  · exact h

end Action

namespace Package

open Model (StateSpace)

variable (faults : Faults)

theorem follows_layOut (tree : Path) (skeleton : Skeleton) (rendered : Rendered) :
    (layOut faults tree skeleton rendered).Follows (layOut .never tree skeleton rendered) := by
  have hinstall (target : Path) :
      (skeleton.installUnder faults target).Follows (skeleton.installUnder .never target) :=
    (follows_perform faults _).wrap.bind fun _ =>
      .forM (fun _ => (follows_perform faults _).wrap) skeleton.names
  exact (follows_perform faults _).wrap.bind fun _ => (follows_perform faults _).wrap.bind fun _ =>
    (hinstall _).bind fun _ => (follows_perform faults _).wrap

theorem follows_addLibrary (t : Toolchain) (tree build : Path) (name : String)
    (platform : Platform) : (addLibrary faults t tree build name platform).Follows
      (addLibrary .never t tree build name platform) := by
  have hmove (binaries library : Path) : (do
      createDirectory faults binaries
      wrap (PackageError.files .moving library) (perform faults
        (.move library (binaries.child (platform.libraryName name))))).Follows (do
      createDirectory .never binaries
      wrap (PackageError.files .moving library) (perform .never
        (.move library (binaries.child (platform.libraryName name))))) :=
    (follows_perform faults _).wrap.bind fun _ => (follows_perform faults _).wrap
  refine (follows_perform faults _).wrap.bind fun _ => (Follows.refl _).bind fun library =>
    (Follows.refl _).bind fun found => ?_
  cases found with
  | true => exact hmove _ library
  | false => exact (Follows.refl _).bind fun _ => hmove _ library

theorem follows_dropSources (tree : Path) :
    (dropSources faults tree).Follows (dropSources .never tree) := (follows_perform faults _).wrap

theorem follows_addFiles (root archive : Path) (held more : List (String × Content)) :
    (addFiles faults root archive held more).Follows
      (addFiles .never root archive held more) := by
  induction more generalizing held with
  | nil => exact .refl _
  | cons file more ih =>
    exact (follows_read faults _ _ _).bind fun _ => (follows_perform faults _).wrap.bind fun _ =>
      ih _

theorem follows_readAll (root : Path) (names : List String) :
    (readAll faults root names).Follows (readAll .never root names) :=
  .forM (fun _ => follows_read faults _ _ _) names

theorem follows_publish (tree archive output : Path) :
    (publish faults tree archive output).Follows (publish .never tree archive output) := by
  have hpack : (packUnder faults tree archive).Follows (packUnder .never tree archive) :=
    (follows_read faults _ _ _).bind fun _ => (Follows.refl _).bind fun _ =>
      (follows_readAll faults _ _).bind fun _ => (Follows.refl _).bind fun _ =>
        (follows_perform faults _).wrap.bind fun _ =>
          (follows_addFiles faults _ _ _ _).bind fun _ => .refl _
  exact hpack.bind fun _ => (follows_perform faults _).wrap.bind fun _ => .refl _

theorem follows_enter (output : Path) (destination : Destination) :
    (enter faults output destination).Follows (enter .never output destination) :=
  ((follows_perform faults _).wrap.bind fun _ => .refl _).wrap

theorem follows_buildUnder (m : StateSpace Float) (job : Job) (t : Toolchain)
    (occasion : Occasion) :
    (buildUnder faults m job t occasion).Follows (build m job t occasion) := by
  refine (Follows.refl _).bind fun destination => (follows_read faults _ _ _).bind fun skeleton =>
    (Follows.refl _).bind fun rendered => Follows.bind ?_ fun _ => .refl _
  refine (follows_enter faults _ _).bind fun scratch => .andFinally ?_
  refine (follows_layOut faults _ _ _).bind fun _ =>
    (follows_addLibrary faults _ _ _ _ _).bind fun _ => ?_
  cases job.keepSources with
  | true => exact follows_publish faults _ _ _
  | false => exact (follows_dropSources faults _).bind fun _ => follows_publish faults _ _ _

end Package
end LtiUnit
