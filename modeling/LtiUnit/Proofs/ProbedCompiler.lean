import LtiUnit.Machine.Start
import LtiUnit.Proofs.Progress

/-!
# LtiUnit.Proofs.ProbedCompiler

Which file is executed when a compiler is probed, and which one when it compiles. A probe is started
in the directory of the caller and a compilation in the one to work in, so what a name stands for
may differ.

* `Machine.started?` — where the file is that a machine executes for an invocation, if there is one
  (`Machine.start_of_started?_eq_some`, `Machine.start_of_started?_eq_none`).
* `Machine.start_eq_notFound_iff` — when a program is reported as not found.
* `Compiler.probed_compiler_compiles` — a name that is fixed stands for one file in both cases; a
  relative path does so only if it leads to one place from both directories.
* `Compiler.started?_compile_eq_none` — in an empty directory, most relative paths stand for none.
-/

namespace LtiUnit

/-! ## Paths from the root -/

namespace Files

variable {f : Files} {p : Path}

theorem step_seenFrom (f : Files) (w : Location) : (f.seenFrom w).step = f.step := by
  funext d segment
  simp only [step, get?_seenFrom]

/-- What an absolute path leads to is the same from every directory. -/
theorem find?_seenFrom (habs : p.isAbsolute = true) (w : Location) :
    (f.seenFrom w).find? p = f.find? p := by
  have hstart : (f.seenFrom w).start p = f.start p := by
    rw [start, start, if_pos habs, if_pos habs]
  have hfollow : (f.seenFrom w).follow p = f.follow p := by
    simp only [follow, walk, hstart, step_seenFrom]
  simp only [find?, hfollow, get?_seenFrom]

theorem find?_of_directory?_eq_ok {d : Location} (h : f.directory? p = .ok d) :
    f.find? p = .ok (d, .directory) := by
  unfold directory? at h
  cases hfind : f.find? p with
  | error e => simp [hfind, bind, Except.bind] at h
  | ok found =>
    obtain ⟨l, e⟩ := found
    cases e with
    | directory => simpa [hfind, bind, Except.bind, pure, Except.pure] using h
    | file content executable => simp [hfind, bind, Except.bind, throw, throwThe,
        MonadExceptOf.throw] at h

end Files

namespace Machine

open Toolchain (Invocation)

variable {m : Machine} {f : Files} {p : Path} {program : String}

theorem executable_seenFrom (habs : p.isAbsolute = true) (w : Location) :
    executable (f.seenFrom w) p = executable f p := by
  rw [executable, executable, Files.find?_seenFrom habs]

theorem search_seenFrom (hslash : '/' ∉ program.toList) {directories : List Path}
    (habs : ∀ d ∈ directories, d.isAbsolute = true) (w : Location) (e : FileError) :
    search (f.seenFrom w) program e directories = search f program e directories := by
  induction directories generalizing e with
  | nil => rfl
  | cons d more ih =>
    rw [List.forall_mem_cons] at habs
    have hchild : (d.child program).isAbsolute = true := by
      rw [Path.isAbsolute_child hslash, habs.1]
    simp only [search, executable_seenFrom hchild, ih habs.2]

/-- The name of a program does not count from the directory that it is started in: it is an
absolute path, or a bare name that is looked for in absolute directories only. -/
def Fixed (m : Machine) (program : String) : Prop :=
  if program.contains '/' then (Path.ofText program).isAbsolute = true
  else ∀ d ∈ m.searched, d.isAbsolute = true

instance (m : Machine) (program : String) : Decidable (m.Fixed program) :=
  inferInstanceAs (Decidable (ite _ _ _))

theorem locate_seenFrom (h : m.Fixed program) (w : Location) :
    m.locate (f.seenFrom w) program = m.locate f program := by
  unfold Fixed at h
  unfold locate
  split
  · rename_i hslash
    rw [if_pos hslash] at h
    rw [executable_seenFrom h]
  · rename_i hslash
    rw [if_neg hslash] at h
    rw [search_seenFrom (by simpa using hslash) h]

/-- What can be executed is a file, and marked so. -/
theorem find?_of_executable {c : Content} (h : executable f p = .ok c) :
    ∃ l, f.find? p = .ok (l, .file c true) := by
  unfold executable at h
  cases hfind : f.find? p with
  | error e => simp [hfind, bind, Except.bind] at h
  | ok found =>
    obtain ⟨l, entry⟩ := found
    simp only [hfind, bind, Except.bind] at h
    split at h
    · rename_i heq
      cases h
      cases heq
      exact ⟨l, rfl⟩
    · cases h

theorem search_eq_ok {e : FileError} {directories : List Path}
    (h : search f program e directories = .ok p) :
    (∃ d ∈ directories, p = d.child program) ∧ ∃ c, executable f p = .ok c := by
  induction directories generalizing e with
  | nil => cases h
  | cons d more ih =>
    unfold search at h
    dsimp only at h
    split at h
    · rename_i c hc
      cases h
      exact ⟨⟨d, List.mem_cons_self .., rfl⟩, c, hc⟩
    · split at h
      · obtain ⟨⟨d', hd', hp⟩, hc⟩ := ih h
        exact ⟨⟨d', List.mem_cons_of_mem _ hd', hp⟩, hc⟩
      · cases h

theorem locate_eq_ok (h : m.locate f program = .ok p) :
    (if program.contains '/' then p = .ofText program else ∃ d ∈ m.searched, p = d.child program) ∧
      ∃ c, executable f p = .ok c := by
  unfold locate at h
  split at h
  · rename_i hslash
    cases hc : executable f (.ofText program) with
    | error e => simp [hc, Except.map] at h
    | ok c =>
      simp only [hc, Except.map, Except.ok.injEq] at h
      subst h
      exact ⟨by rw [if_pos hslash], c, hc⟩
  · rename_i hslash
    split at h
    · cases h
    · obtain ⟨hd, hc⟩ := search_eq_ok h
      exact ⟨by rwa [if_neg hslash], hc⟩

/-- The file that a fixed name stands for has an absolute path. -/
theorem isAbsolute_of_locate (hfixed : m.Fixed program) (h : m.locate f program = .ok p) :
    p.isAbsolute = true := by
  have hp := (locate_eq_ok h).1
  unfold Fixed at hfixed
  split at hp
  · rename_i hslash
    rw [if_pos hslash] at hfixed
    rw [hp, hfixed]
  · rename_i hslash
    rw [if_neg hslash] at hfixed
    obtain ⟨d, hd, rfl⟩ := hp
    rw [Path.isAbsolute_child (by simpa using hslash), hfixed d hd]

/-! ## The file that is started -/

end Machine

/-- All that a system takes as texts when a program is started. -/
def Toolchain.Invocation.texts (i : Toolchain.Invocation) : List String :=
  i.program :: i.args ++ (i.directory.map Path.text).toList

/-- The directory that a program is started in. -/
def Toolchain.Invocation.place (i : Toolchain.Invocation) (f : Files) : Except FileError Location :=
  match i.directory with
  | some d => f.directory? d
  | none => .ok f.here

namespace Machine

open Toolchain (Invocation)

variable {m : Machine} {f : Files} {p : Path} {program : String} {i : Invocation}

/-- Where the file is that a program stands for. -/
def fileOf (m : Machine) (f : Files) (program : String) : Option Location :=
  match m.locate f program with
  | .ok p => (f.find? p).toOption.map Prod.fst
  | .error _ => none

/-- Where the file is that is executed when a program is started. Nothing is executed if a text
holds a zero character, if there is no directory to start in, or if there is no such file. -/
def started? (m : Machine) (i : Invocation) (f : Files) : Option Location :=
  if i.texts.any (·.contains '\x00') then none
  else
    match i.place f with
    | .ok d => m.fileOf (f.seenFrom d) i.program
    | .error _ => none

theorem fileOf_eq_some_iff {l : Location} :
    m.fileOf f program = some l ↔
      ∃ p c, m.locate f program = .ok p ∧ f.find? p = .ok (l, .file c true) := by
  unfold fileOf
  cases hp : m.locate f program with
  | error e => simp
  | ok p =>
    obtain ⟨-, c, hc⟩ := locate_eq_ok hp
    obtain ⟨l', hl'⟩ := find?_of_executable hc
    constructor
    · intro h
      simp only [hl', Except.toOption, Option.map_some, Option.some.injEq] at h
      exact ⟨p, c, rfl, h ▸ hl'⟩
    · rintro ⟨q, c', hq, hl⟩
      cases hq
      simp [hl, Except.toOption]

theorem fileOf_eq_none_iff : m.fileOf f program = none ↔ ∃ e, m.locate f program = .error e := by
  cases hp : m.locate f program with
  | error e => simp [fileOf, hp]
  | ok p =>
    obtain ⟨-, c, hc⟩ := locate_eq_ok hp
    obtain ⟨l, hl⟩ := find?_of_executable hc
    simp [fileOf, hp, hl, Except.toOption]

/-- A fixed name stands for one file from every directory. -/
theorem fileOf_seenFrom (h : m.Fixed program) (w : Location) :
    m.fileOf (f.seenFrom w) program = m.fileOf f program := by
  unfold fileOf
  rw [locate_seenFrom h]
  cases hp : m.locate f program with
  | error e => rfl
  | ok p => simp only [Files.find?_seenFrom (isAbsolute_of_locate h hp)]

/-- A name with a slash stands for the file that it leads to as a path. -/
theorem location_of_fileOf {l : Location} (hslash : program.contains '/' = true)
    (h : m.fileOf f program = some l) :
    l = (Path.ofText program).locationFrom f.here ∧ ∃ c, f.get? l = some (.file c true) := by
  obtain ⟨p, c, hp, hl⟩ := fileOf_eq_some_iff.1 h
  have hpath := (locate_eq_ok hp).1
  rw [if_pos hslash] at hpath
  subst hpath
  obtain ⟨hloc, hfile⟩ := Files.location_of_find? hl
  exact ⟨hloc, c, hfile⟩

/-- A name with a slash stands for one file from two directories, or for none from both, exactly if
it stands for none from both, or for some file from either and the path leads to one place. -/
theorem fileOf_eq_iff (hslash : program.contains '/' = true) (w w' : Location) :
    m.fileOf (f.seenFrom w) program = m.fileOf (f.seenFrom w') program ↔
      (m.fileOf (f.seenFrom w) program = none ∧ m.fileOf (f.seenFrom w') program = none) ∨
        ((m.fileOf (f.seenFrom w) program).isSome ∧ (m.fileOf (f.seenFrom w') program).isSome ∧
          (Path.ofText program).SameFrom w w') := by
  rw [← Path.locationFrom_eq_iff]
  cases hw : m.fileOf (f.seenFrom w) program with
  | none => simpa using eq_comm
  | some l =>
    cases hw' : m.fileOf (f.seenFrom w') program with
    | none => simp
    | some l' =>
      have hl := (location_of_fileOf hslash hw).1
      have hl' := (location_of_fileOf hslash hw').1
      simp [hl, hl', Files.seenFrom]

/-- From an empty directory, a relative path that does not lead up stands for no file. -/
theorem fileOf_eq_none_of_empty {d : Location} (hdir : f.get? d = some .directory)
    (hempty : f.names d = []) (hslash : program.contains '/' = true)
    (hrelative : (Path.ofText program).isAbsolute = false)
    (hclimb : (Path.ofText program).climb = 0) : m.fileOf (f.seenFrom d) program = none := by
  obtain ⟨down, hdown⟩ := Path.exists_locationFrom_eq hrelative
  rw [Option.eq_none_iff_forall_ne_some]
  intro l hl
  obtain ⟨hloc, c, hfile⟩ := location_of_fileOf hslash hl
  rw [hdown, hclimb, List.drop_zero] at hloc
  rw [Files.get?_seenFrom, hloc] at hfile
  rcases List.eq_nil_or_concat' down with rfl | ⟨before, name, rfl⟩
  · cases hdir.symm.trans hfile
  · have hnone : f.get? (name :: d) = none := by
      rw [← Option.not_isSome_iff_eq_none, ← Files.mem_names_iff, hempty]
      exact List.not_mem_nil
    have hbelow : Files.isBelow (before ++ [name] ++ d) (name :: d) = true :=
      Files.isBelow_iff.2 ⟨before, by simp⟩
    cases (f.get?_eq_none_of_new hnone hbelow).symm.trans hfile

theorem call_eq (m : Machine) (n : Nat) (program : String) (args : List String) (f : Files) :
    call m (n + 1) (program :: args) f =
      match m.locate f program with
      | .ok p => execute m n p args f
      | .error e => (.error e, f) := by
  unfold call
  rfl

theorem start_eq (m : Machine) (i : Invocation) (f : Files) :
    m.start i f =
      if i.texts.any (·.contains '\x00') then (.error .zeroInCommand, f)
      else
        match i.place f with
        | .error e => (.error e, f)
        | .ok d =>
          ((call m depth (i.program :: i.args) (f.seenFrom d)).1,
            (call m depth (i.program :: i.args) (f.seenFrom d)).2.seenFrom f.here) :=
  rfl

/-- If nothing is executed, nothing changes. -/
theorem start_of_started?_eq_none (h : m.started? i f = none) :
    ∃ e, m.start i f = (.error e, f) := by
  unfold started? at h
  rw [start_eq]
  split at h
  · rename_i hzero
    exact ⟨.zeroInCommand, if_pos hzero⟩
  · rename_i hzero
    rw [if_neg hzero]
    cases hplace : i.place f with
    | error e => exact ⟨e, rfl⟩
    | ok d =>
      simp only [hplace, fileOf_eq_none_iff] at h
      obtain ⟨e, he⟩ := h
      exact ⟨e, by simp only [depth, call_eq, he]; rfl⟩

/-- If a file is executed, it is one that is there and marked so, and what comes of it is what the
program does in its place. -/
theorem start_of_started?_eq_some {l : Location} (h : m.started? i f = some l) :
    ∃ d p c, i.place f = .ok d ∧ (f.seenFrom d).find? p = .ok (l, .file c true) ∧
      m.start i f = ((execute m (depth - 1) p i.args (f.seenFrom d)).1,
        (execute m (depth - 1) p i.args (f.seenFrom d)).2.seenFrom f.here) := by
  unfold started? at h
  split at h
  · cases h
  · rename_i hzero
    cases hplace : i.place f with
    | error e => simp [hplace] at h
    | ok d =>
      simp only [hplace, fileOf_eq_some_iff] at h
      obtain ⟨p, c, hp, hl⟩ := h
      refine ⟨d, p, c, rfl, hl, ?_⟩
      rw [start_eq, if_neg hzero]
      simp only [hplace, depth, call_eq, hp]

/-! ## Programs that are not there -/

/-- A file is not there, or it is a script whose program is not there, looking at most `n` files
far. -/
def Missing (f : Files) : Nat → Path → Prop
  | 0, _ => False
  | n + 1, p => executable f p = .error .notFound ∨
    ∃ bytes program argument, executable f p = .ok (.data bytes) ∧
      interpreter? bytes = some (program, argument) ∧ Missing f n (.ofText program)

/-- A script always ends with an outcome. -/
theorem runScript_eq_ok (outside : Shell.Outside) (name text : String) (args : List String)
    (f : Files) : ∃ o, (Shell.runScript outside name text args f).1 = .ok o := by
  unfold Shell.runScript
  split <;> exact ⟨_, rfl⟩

/-- A shell that runs never ends as a program that is not there. -/
theorem runShell_ne_notFound (outside : Shell.Outside) (args : List String) (f : Files) :
    (runShell outside args f).1 ≠ .error .notFound := by
  unfold runShell
  split
  · rename_i text more
    obtain ⟨o, ho⟩ := runScript_eq_ok outside (more.headD Shell.shellName) text (more.drop 1) f
    rw [ho]
    simp
  · split
    · simp
    · rename_i path more _
      dsimp only
      split
      · rename_i bytes _
        obtain ⟨o, ho⟩ := runScript_eq_ok outside path (Text.ofBytes bytes) more f
        rw [ho]
        simp
      · simp
      · simp

theorem execute_eq_notFound_iff (m : Machine) (n : Nat) (p : Path) (args : List String)
    (f : Files) : (execute m n p args f).1 = .error .notFound ↔ Missing f n p := by
  induction n generalizing p args with
  | zero =>
    have hdeep : execute m 0 p args f = (.error .noProgram, f) := by
      unfold execute
      rfl
    rw [hdeep, Missing]
    simp
  | succ n ih =>
    rw [execute, Missing]
    cases hc : executable f p with
    | error e => simp [hc]
    | ok c =>
      cases c with
      | program name =>
        have hrun := runShell_ne_notFound (call m n) args f
        by_cases hshell : name = Shell.shellName
        · simp [hc, ← hshell, hrun]
        · cases hutility : Shell.utility? name with
          | none => simp [hc, hshell, hutility]
          | some program => simp [hc, hshell, hutility]
      | archive files => simp [hc]
      | data bytes =>
        cases hscript : interpreter? bytes with
        | none => simp [hc, hscript]
        | some found =>
          obtain ⟨program, argument⟩ := found
          simp [hc, hscript, ih]

/-- If a file is a script, its program has an absolute path, and so on for that program, looking at
most `n` files far. -/
def ScriptsFixed (f : Files) : Nat → Path → Prop
  | 0, _ => True
  | n + 1, p => ∀ bytes program argument, executable f p = .ok (.data bytes) →
    interpreter? bytes = some (program, argument) →
      (Path.ofText program).isAbsolute = true ∧ ScriptsFixed f n (.ofText program)

theorem missing_seenFrom {n : Nat} (habs : p.isAbsolute = true) (hscripts : ScriptsFixed f n p)
    (w : Location) : Missing (f.seenFrom w) n p ↔ Missing f n p := by
  induction n generalizing p with
  | zero => rfl
  | succ n ih =>
    rw [Missing, Missing, executable_seenFrom habs]
    refine or_congr_right (exists_congr fun bytes => exists_congr fun program =>
      exists_congr fun argument => and_congr_right fun hc => and_congr_right fun hscript => ?_)
    obtain ⟨hprogram, hmore⟩ := hscripts bytes program argument hc hscript
    exact ih hprogram hmore

/-- When a program that is started is not there: there is no file that it stands for, or no program
for a script that it leads to. -/
theorem start_eq_notFound_iff {d : Location} (hplace : i.place f = .ok d) :
    (m.start i f).1 = .error .notFound ↔
      (i.texts.any (·.contains '\x00')) = false ∧
        (m.locate (f.seenFrom d) i.program = .error .notFound ∨
          ∃ p, m.locate (f.seenFrom d) i.program = .ok p ∧
            Missing (f.seenFrom d) (depth - 1) p) := by
  rw [start_eq]
  cases i.texts.any (·.contains '\x00') with
  | true => simp
  | false =>
    simp only [hplace, depth, call_eq]
    cases hp : m.locate (f.seenFrom d) i.program with
    | error e => simp
    | ok p => simp [execute_eq_notFound_iff]

end Machine

namespace Toolchain
namespace Compiler

variable {m : Machine} {f : Files} {c : Compiler} {r : Request} {d : Location}

/-- A compiler is reported as not found exactly if the machine finds nothing to start. -/
theorem compile_eq_noCompiler_iff {start : Starter} {program : String} :
    (c.compile start r f).1 = .error (.noCompiler program) ↔
      program = c.programFor r.platform ∧ (start (c.invocation r) f).1 = .error .notFound := by
  rcases hstart : start (c.invocation r) f with ⟨e | o, g⟩
  · have hcompile : (c.compile start r f).1 =
        .error (notStarted (c.programFor r.platform) e) := by
      simp only [compile, Action.bind_apply, Action.wrap, hstart]
    rw [hcompile]
    cases e <;> simp [notStarted, eq_comm]
  · have hend : (c.compile start r f).1 =
        if o.status.isSuccess then
          if g.isFile r.library then .ok r.library else .error (.noLibrary r.library)
        else .error (.compileFailure (c.programFor r.platform) o.status.text (diagnostics o)) := by
      simp only [compile, Action.bind_apply, Action.wrap, hstart]
      cases o.status.isSuccess with
      | false => rfl
      | true =>
        cases hfile : g.isFile r.library <;>
          simp [Action.bind_apply, Action.look, hfile] <;>
          rfl
    rw [hend]
    split
    · split <;> simp
    · simp

theorem start_of_probe {start : Starter} {p : Platform} {ε : Type} {banner : String}
    (h : (c.probe start p f : Except ε (Option String) × Files).1 = .ok (some banner)) :
    ∃ o, (start (c.probeInvocation p) f).1 = .ok o := by
  unfold probe at h
  split at h
  · cases h
  · rename_i o g heq
    exact ⟨o, by rw [heq]⟩

theorem any_texts_probe (c : Compiler) (p : Platform) :
    (c.probeInvocation p).texts.any (·.contains '\x00') = (c.programFor p).contains '\x00' := by
  unfold Invocation.texts probeInvocation
  dsimp only
  split <;> simp

section Probed

variable (m : Machine)

/-- A probe looks from the directory of the caller. -/
theorem started?_probe (f : Files) (c : Compiler) (p : Platform) :
    m.started? (c.probeInvocation p) f =
      if (c.programFor p).contains '\x00' then none else m.fileOf f (c.programFor p) := by
  rw [Machine.started?, any_texts_probe]
  rfl

/-- A compiler is looked for from the directory that it has to work in. -/
theorem started?_compile (hbuild : f.directory? r.build = .ok d)
    (hargs : ∀ a ∈ c.arguments r, '\x00' ∉ a.toList) :
    m.started? (c.invocation r) f =
      if (c.programFor r.platform).contains '\x00' then none
      else m.fileOf (f.seenFrom d) (c.programFor r.platform) := by
  have hplace : (c.invocation r).place f = .ok d := hbuild
  have htexts : (c.invocation r).texts.any (·.contains '\x00') =
      (c.programFor r.platform).contains '\x00' := by
    have hothers : ∀ a ∈ c.arguments r ++ [r.build.text], a.contains '\x00' = false := by
      have hbuildText := (Files.followable_of_find? (Files.find?_of_directory?_eq_ok hbuild)).2
      rw [List.forall_mem_append, List.forall_mem_singleton]
      exact ⟨fun a ha => by simpa using hargs a ha, by simpa using hbuildText⟩
    have hany : (c.arguments r ++ [r.build.text]).any (·.contains '\x00') = false :=
      List.any_eq_false.2 fun a ha => by simp [hothers a ha]
    change ((c.programFor r.platform) :: (c.arguments r ++ [r.build.text])).any _ = _
    rw [List.any_cons, hany, Bool.or_false]
  rw [Machine.started?, htexts, hplace]
  rfl

theorem started?_agree (hbuild : f.directory? r.build = .ok d)
    (hargs : ∀ a ∈ c.arguments r, '\x00' ∉ a.toList)
    (hfixed : m.Fixed (c.programFor r.platform)) :
    m.started? (c.probeInvocation r.platform) f = m.started? (c.invocation r) f := by
  rw [started?_probe, started?_compile m hbuild hargs, Machine.fileOf_seenFrom hfixed]

theorem started?_agree_iff (hbuild : f.directory? r.build = .ok d)
    (hargs : ∀ a ∈ c.arguments r, '\x00' ∉ a.toList)
    (hslash : (c.programFor r.platform).contains '/' = true) :
    m.started? (c.probeInvocation r.platform) f = m.started? (c.invocation r) f ↔
      (m.started? (c.probeInvocation r.platform) f = none ∧
        m.started? (c.invocation r) f = none) ∨
      ((m.started? (c.probeInvocation r.platform) f).isSome ∧
        (m.started? (c.invocation r) f).isSome ∧
          (Path.ofText (c.programFor r.platform)).SameFrom f.here d) := by
  rw [started?_probe, started?_compile m hbuild hargs]
  split
  · simp
  · exact Machine.fileOf_eq_iff hslash f.here d

theorem compile_ne_noCompiler (hbuild : f.directory? r.build = .ok d)
    (hfixed : m.Fixed (c.programFor r.platform))
    (hscripts : ∀ p, m.locate f (c.programFor r.platform) = .ok p →
      Machine.ScriptsFixed f (Machine.depth - 1) p)
    {ε : Type} {banner : String}
    (hprobe : (c.probe m.start r.platform f : Except ε (Option String) × Files).1 =
      .ok (some banner)) :
    (c.compile m.start r f).1 ≠ .error (.noCompiler (c.programFor r.platform)) := by
  intro hnone
  have hplace : (c.invocation r).place f = .ok d := hbuild
  obtain ⟨o, ho⟩ := start_of_probe hprobe
  obtain ⟨-, hcompile⟩ := compile_eq_noCompiler_iff.1 hnone
  obtain ⟨hplain, hmissing⟩ := (Machine.start_eq_notFound_iff hplace).1 hcompile
  -- what is missing for the compiler is missing for the probe
  have hprobed : (m.start (c.probeInvocation r.platform) f).1 = .error .notFound := by
    refine (Machine.start_eq_notFound_iff (d := f.here) rfl).2 ⟨?_, ?_⟩
    · rw [any_texts_probe]
      exact (Bool.or_eq_false_iff.1 hplain).1
    · change m.locate f (c.programFor r.platform) = .error .notFound ∨
        ∃ p, m.locate f (c.programFor r.platform) = .ok p ∧ Machine.Missing f (Machine.depth - 1) p
      change m.locate (f.seenFrom d) (c.programFor r.platform) = .error .notFound ∨
        ∃ p, m.locate (f.seenFrom d) (c.programFor r.platform) = .ok p ∧
          Machine.Missing (f.seenFrom d) (Machine.depth - 1) p at hmissing
      rw [Machine.locate_seenFrom hfixed] at hmissing
      refine hmissing.imp_right fun ⟨p, hp, hmissing⟩ => ⟨p, hp, ?_⟩
      have habs := Machine.isAbsolute_of_locate hfixed hp
      exact (Machine.missing_seenFrom habs (hscripts p hp) d).1 hmissing
  rw [ho] at hprobed
  cases hprobed

/-- In an empty directory to work in, a compiler that is named by a relative path that does not lead
up is not found, whatever a probe finds. -/
theorem started?_compile_eq_none (hbuild : f.directory? r.build = .ok d) (hempty : f.names d = [])
    (hslash : (c.programFor r.platform).contains '/' = true)
    (hrelative : (Path.ofText (c.programFor r.platform)).isAbsolute = false)
    (hclimb : (Path.ofText (c.programFor r.platform)).climb = 0) :
    m.started? (c.invocation r) f = none := by
  have hplace : (c.invocation r).place f = .ok d := hbuild
  rw [Machine.started?, hplace]
  split
  · rfl
  · have hdir := (Files.location_of_find? (Files.find?_of_directory?_eq_ok hbuild)).2
    exact Machine.fileOf_eq_none_of_empty hdir hempty hslash hrelative hclimb

/-- A probe and a compilation start the same file, or none, if the name of the compiler does not
count from the directory that it is started in. If the name has a slash, they start the same file
only if it leads to one place from the directory of the caller and from the one to work in. And a
compiler whose name is fixed and that shows a version is never reported as not found, as long as the
scripts that it leads to name their programs by absolute paths. -/
theorem probed_compiler_compiles {ε : Type} (f : Files) (c : Compiler) (r : Request)
    (hbuild : f.directory? r.build = .ok d) :
    ((∀ a ∈ c.arguments r, '\x00' ∉ a.toList) →
      (m.Fixed (c.programFor r.platform) →
        m.started? (c.probeInvocation r.platform) f = m.started? (c.invocation r) f) ∧
      ((c.programFor r.platform).contains '/' = true →
        (m.started? (c.probeInvocation r.platform) f = m.started? (c.invocation r) f ↔
          (m.started? (c.probeInvocation r.platform) f = none ∧
            m.started? (c.invocation r) f = none) ∨
          ((m.started? (c.probeInvocation r.platform) f).isSome ∧
            (m.started? (c.invocation r) f).isSome ∧
              (Path.ofText (c.programFor r.platform)).SameFrom f.here d)))) ∧
    (m.Fixed (c.programFor r.platform) →
      (∀ p, m.locate f (c.programFor r.platform) = .ok p →
        Machine.ScriptsFixed f (Machine.depth - 1) p) →
      ∀ banner, (c.probe m.start r.platform f : Except ε (Option String) × Files).1 =
        .ok (some banner) →
      (c.compile m.start r f).1 ≠ .error (.noCompiler (c.programFor r.platform))) :=
  ⟨fun hargs => ⟨started?_agree m hbuild hargs, started?_agree_iff m hbuild hargs⟩,
    fun hfixed hscripts _ => compile_ne_noCompiler m hbuild hfixed hscripts⟩

end Probed

/-- The directories `/work` and `/work/build`, and in `/work` a program. -/
def workshop : Files where
  entries :=
    [(["cc", "work"], .file (.program "echo") true), (["build", "work"], .directory),
      (["work"], .directory)]
  here := ["work"]
  unique := by decide
  grounded := by simp
  proper := by simp [Path.isFileName]

/-- Work in `/work/build`. -/
def workshopRequest : Request :=
  ⟨.ofText "/work/sources", .ofText "/work/build", "q", ⟨.linux, 64⟩⟩

theorem isFileName_cc : Path.isFileName "cc" = true := Path.isFileName_iff.2 (by decide)

theorem directory?_build : workshop.directory? workshopRequest.build = .ok ["build", "work"] := by
  have hname : Path.isFileName "build" = true :=
    Path.isFileName_of_length (by decide) (by decide)
  have hfollow :
      workshop.follow workshopRequest.build = .ok (.within "build" ["work"] false hname) :=
    Files.follow_eq_within_iff.2 ⟨⟨by decide, by decide⟩, by decide, ["", "work"], 0, [],
      by decide, rfl, rfl, rfl⟩
  have hfind := Files.find?_of_directory hfollow rfl
  simp only [Files.directory?, hfind, bind, Except.bind]
  rfl

/-- What the program of the workshop shows, under whatever name it is found. -/
theorem probe_workshop {ε : Type} {program : String} (hslash : program.contains '/' = true)
    (hplain : program.contains '\x00' = false)
    (hfollow : workshop.follow (.ofText program) =
      .ok (.within "cc" ["work"] false isFileName_cc)) :
    Machine.usual.locate workshop program = .ok (.ofText program) ∧
      Machine.executable workshop (.ofText program) = .ok (.program "echo") ∧
      Machine.usual.fileOf workshop program = some ["cc", "work"] ∧
      ((⟨some program, []⟩ : Compiler).probe Machine.usual.start ⟨.linux, 64⟩ workshop :
        Except ε (Option String) × Files).1 = .ok (some "--version") := by
  have hfind := Files.find?_of_file hfollow
    (rfl : workshop.get? _ = some (.file (.program "echo") true))
  have hexecutable : Machine.executable workshop (.ofText program) = .ok (.program "echo") := by
    simp only [Machine.executable, hfind, bind, Except.bind]
    rfl
  have hlocate : Machine.usual.locate workshop program = .ok (.ofText program) := by
    rw [Machine.locate, if_pos hslash, hexecutable]
    rfl
  have hcall : (Machine.usual.call Machine.depth [program, "--version"] workshop).1 =
      .ok (Shell.Print.echo ["--version"]) := by
    simp only [Machine.depth, Machine.call_eq, hlocate]
    rw [Machine.execute]
    simp only [hexecutable]
    rfl
  have hrun : (Machine.usual.start
      ((⟨some program, []⟩ : Compiler).probeInvocation ⟨.linux, 64⟩) workshop).1 =
        .ok (Shell.Print.echo ["--version"]) := by
    rw [Machine.start_eq, any_texts_probe, if_neg (by simpa [programFor] using hplain)]
    exact hcall
  refine ⟨hlocate, hexecutable, Machine.fileOf_eq_some_iff.2 ⟨_, _, hlocate, hfind⟩, ?_⟩
  rcases hstart : Machine.usual.start
    ((⟨some program, []⟩ : Compiler).probeInvocation ⟨.linux, 64⟩) workshop with ⟨result, g⟩
  rw [hstart] at hrun
  dsimp only at hrun
  subst hrun
  simp only [probe, hstart]
  exact congrArg Except.ok (by decide +kernel)

/-- `/work/cc` shows a version and is the compiler that is started. -/
theorem probed_compiler_compiles_absolute :
    let c : Compiler := ⟨some "/work/cc", []⟩
    workshop.directory? workshopRequest.build = .ok ["build", "work"] ∧
      (c.probe Machine.usual.start ⟨.linux, 64⟩ workshop :
        Except PackageError (Option String) × Files).1 = .ok (some "--version") ∧
      Machine.usual.started? (c.invocation workshopRequest) workshop = some ["cc", "work"] ∧
      (c.compile Machine.usual.start workshopRequest workshop).1 ≠
        .error (.noCompiler "/work/cc") := by
  intro c
  have hfollow :
      workshop.follow (.ofText "/work/cc") = .ok (.within "cc" ["work"] false isFileName_cc) :=
    Files.follow_eq_within_iff.2 ⟨⟨by decide, by decide⟩, by decide, ["", "work"], 0, [],
      by decide, rfl, rfl, rfl⟩
  have hplain : "/work/cc".contains '\x00' = false := by simp
  obtain ⟨hlocate, hexecutable, hfile, hprobe⟩ :=
    probe_workshop (by simp) hplain hfollow
  have hfixed : Machine.usual.Fixed "/work/cc" := by
    rw [Machine.Fixed, if_pos (by simp)]
    decide
  have hscripts : ∀ p, Machine.usual.locate workshop "/work/cc" = .ok p →
      Machine.ScriptsFixed workshop (Machine.depth - 1) p := by
    intro p hp bytes program argument hdata
    cases hlocate.symm.trans hp
    cases hexecutable.symm.trans hdata
  obtain ⟨hagree, hcompiles⟩ := probed_compiler_compiles (ε := PackageError) Machine.usual workshop
    c workshopRequest directory?_build
  refine ⟨directory?_build, hprobe, ?_, hcompiles hfixed hscripts _ hprobe⟩
  rw [← (hagree (by decide)).1 hfixed, started?_probe]
  change (if "/work/cc".contains '\x00' then none else Machine.usual.fileOf workshop "/work/cc") = _
  rw [hplain, if_neg (by decide), hfile]

/-- `./cc` shows a version, and from the directory to work in it is not found. -/
theorem probed_not_compiled_relative :
    let c : Compiler := ⟨some "./cc", []⟩
    Machine.usual.started? (c.probeInvocation ⟨.linux, 64⟩) workshop = some ["cc", "work"] ∧
      (c.probe Machine.usual.start ⟨.linux, 64⟩ workshop :
        Except PackageError (Option String) × Files).1 = .ok (some "--version") ∧
      workshop.directory? workshopRequest.build = .ok ["build", "work"] ∧
      Machine.usual.started? (c.invocation workshopRequest) workshop = none ∧
      (c.compile Machine.usual.start workshopRequest workshop).1 = .error (.noCompiler "./cc") := by
  intro c
  have hslash : "./cc".contains '/' = true := by simp
  have hplain : "./cc".contains '\x00' = false := by simp
  have hfollow :
      workshop.follow (.ofText "./cc") = .ok (.within "cc" ["work"] false isFileName_cc) :=
    Files.follow_eq_within_iff.2 ⟨⟨by decide, by decide⟩, by decide, ["."], 0, ["work"], by decide,
      rfl, rfl, rfl⟩
  obtain ⟨-, -, hfile, hprobe⟩ := probe_workshop hslash hplain hfollow
  have hgone : (workshop.seenFrom ["build", "work"]).follow (.ofText "./cc") =
      .ok (.within "cc" ["build", "work"] false isFileName_cc) :=
    Files.follow_eq_within_iff.2 ⟨⟨by decide, by decide⟩, by decide, ["."], 0, ["build", "work"],
      by decide, rfl, rfl, rfl⟩
  have hnothing : Machine.executable (workshop.seenFrom ["build", "work"]) (.ofText "./cc") =
      .error .notFound := by
    simp only [Machine.executable, Files.find?, hgone, bind, Except.bind]
    rfl
  have hmissing : Machine.usual.locate (workshop.seenFrom ["build", "work"]) "./cc" =
      .error .notFound := by
    rw [Machine.locate, if_pos hslash, hnothing]
    rfl
  have hplace : (c.invocation workshopRequest).place workshop = .ok ["build", "work"] :=
    directory?_build
  have hplainTexts : ∀ t ∈ (c.invocation workshopRequest).texts, '\x00' ∉ t.toList := by decide
  have htexts : (c.invocation workshopRequest).texts.any (·.contains '\x00') = false :=
    List.any_eq_false.2 fun t ht => by simp [hplainTexts t ht]
  refine ⟨?_, hprobe, directory?_build, ?_, ?_⟩
  · rw [started?_probe]
    change (if "./cc".contains '\x00' then none else Machine.usual.fileOf workshop "./cc") = _
    rw [hplain, if_neg (by decide), hfile]
  · rw [Machine.started?, htexts, hplace]
    exact Machine.fileOf_eq_none_iff.2 ⟨_, hmissing⟩
  · exact compile_eq_noCompiler_iff.2 ⟨rfl, (Machine.start_eq_notFound_iff hplace).2
      ⟨htexts, .inl hmissing⟩⟩

end Compiler
end Toolchain
end LtiUnit
