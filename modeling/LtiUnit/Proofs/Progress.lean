import LtiUnit.Proofs.Contents
import LtiUnit.Proofs.Ways

/-!
# LtiUnit.Proofs.Progress

When changes to files succeed. A change to a name in a directory that is there depends on nothing
but what stands under that name: a directory is created where there is nothing
(`createDirectories_child`), and a file is written, copied or moved to where there is no directory
(`write_child`, `copy_child`, `move_within`).
-/

namespace LtiUnit

/-- Whether a directory can have an entry of this name. -/
structure Path.Nameable (name : String) : Prop where
  proper : isFileName name = true
  nonzero : '\x00' ∉ name.toList
  fits : name.utf8ByteSize ≤ Files.longestName

/-! ## Courses that succeed -/

namespace Action

variable {ε δ α β : Type} {f g : Files} {x : α}

theorem bind_of_ok {act : Action ε α} {next : α → Action ε β} (h : act f = (.ok x, g)) :
    (act >>= next) f = next x g := by
  rw [bind_apply, h]

theorem bind_of_error {act : Action ε α} {next : α → Action ε β} {e : ε}
    (h : act f = (.error e, g)) : (act >>= next) f = (.error e, g) := by
  rw [bind_apply, h]

theorem change_of_ok {q : Files → Except ε Files} (h : q f = .ok g) :
    change q f = (.ok (), g) := by
  simp only [change, h]

theorem wrap_of_ok {act : Action δ α} {w : δ → ε} (h : act f = (.ok x, g)) :
    wrap w act f = (.ok x, g) := by
  simp only [wrap, h]

theorem look_of_ok {q : Files → Except ε α} (h : q f = .ok x) : look q f = (.ok x, f) := by
  rw [look, h]

end Action

/-! ## Names in a directory -/

namespace Files

open LtiUnit.Path LtiUnit.Action

variable {f g : Files} {p q : Path} {name name' : String} {d : Location}

theorem follow_nameable (hd : f.isDirectory p = true) (h : Nameable name) :
    f.follow (p.child name) = .ok (.within name (p.locationFrom f.here) false h.proper) :=
  follow_child hd h.proper h.nonzero h.fits

theorem find?_of_file {content : Content} {executable : Bool} {proper : isFileName name = true}
    (h : f.follow p = .ok (.within name d false proper))
    (hget : f.get? (name :: d) = some (.file content executable)) :
    f.find? p = .ok (name :: d, .file content executable) := by
  simp only [find?, h, hget, bind, Except.bind]
  rfl

theorem isDirectory_child (hd : f.isDirectory p = true) (h : Nameable name)
    (hthere : f.get? (name :: p.locationFrom f.here) = some .directory) :
    f.isDirectory (p.child name) = true := by
  rw [isDirectory, find?_of_directory (follow_nameable hd h) hthere]

theorem isFile_child (hd : f.isDirectory p = true) (h : Nameable name) {content : Content}
    {executable : Bool}
    (hthere : f.get? (name :: p.locationFrom f.here) = some (.file content executable)) :
    f.isFile (p.child name) = true := by
  rw [isFile, find?_of_file (follow_nameable hd h) hthere]

theorem isDirectory_iff_of_within {slashed : Bool} {proper : isFileName name = true}
    (h : f.follow p = .ok (.within name d slashed proper)) :
    f.isDirectory p = true ↔ f.get? (name :: d) = some .directory := by
  constructor
  · intro hd
    exact (find?_of_within h (isDirectory_iff.1 hd)).2
  · intro hd
    rw [isDirectory, find?_of_directory h hd]

/-- The directory that paths count from is found under a dot. -/
theorem isDirectory_dot (h : f.get? f.here = some .directory) :
    f.isDirectory (ofText ".") = true := by
  have hzero : ¬(ofText ".").text.contains '\x00' = true := by
    rw [text_ofText]
    simp
  have hstart : f.start (ofText ".") = .ok f.here := by
    rw [start, if_neg (by decide), if_pos h]
  have hfollow : f.follow (ofText ".") = .ok (.passed f.here) := by
    rw [follow, if_neg (by decide), if_neg hzero]
    simp only [hstart, bind, Except.bind]
    rfl
  rw [isDirectory, find?_of_passed hfollow]

/-- What is found to be a file is one under its name. -/
theorem isDirectory_parent (hd : f.isDirectory p = true) :
    f.isDirectory (p.child "..") = true := by
  have hslash : '/' ∉ "..".toList := by decide
  have hfollowable := followable_of_find? (isDirectory_iff.1 hd)
  have hzero : '\x00' ∉ (p.child "..").text.toList := by
    rw [mem_text_iff (by decide), segments_child hslash, hfollowable.1]
    rintro ⟨segment, hsegment, hc⟩
    rcases List.mem_append.1 hsegment with hsegment | hsegment
    · exact hfollowable.2
        ((mem_text_iff (by decide) p).2 ⟨segment, mem_of_mem_unslashed hsegment, hc⟩)
    · rw [List.mem_singleton.1 hsegment] at hc
      exact absurd hc (by decide)
  have hfollow := (namesIn_child hd (by decide) hslash).follow_eq
  rw [if_neg hzero, dif_neg (by decide), if_pos rfl] at hfollow
  rw [isDirectory, find?_of_passed hfollow]

theorem within_of_isFile (h : f.isFile p = true) :
    ∃ name d proper content executable, f.follow p = .ok (.within name d false proper) ∧
      f.get? (name :: d) = some (.file content executable) := by
  unfold isFile at h
  split at h
  · rename_i l content executable hfind
    cases hf : f.follow p with
    | error e => simp [find?, hf, bind, Except.bind] at hfind
    | ok spot =>
      cases spot with
      | passed d =>
        rw [find?_of_passed hf] at hfind
        cases hfind
      | within name d slashed proper =>
        obtain ⟨-, hget⟩ := find?_of_within hf hfind
        cases slashed with
        | false => exact ⟨name, d, proper, content, executable, rfl, hget⟩
        | true =>
          simp only [find?, hf, hget, bind, Except.bind] at hfind
          cases hfind
  · cases h

/-- A file stays where it is found as long as the directories stay and the file is not changed. -/
theorem isFile_of_keeps (h : f.isFile p = true) (hk : Keeps f g)
    (hsame : g.get? (p.locationFrom f.here) = f.get? (p.locationFrom f.here)) :
    g.isFile p = true := by
  obtain ⟨name, d, proper, content, executable, hfollow, hget⟩ := within_of_isFile h
  rw [← location_of_follow hfollow, Spot.location, hget] at hsame
  rw [isFile, find?_of_file (hk.follow hfollow) hsame]

/-- Whatever is looked up with success has a name that a directory can have. -/
theorem nameable_of_follow (hname : isFileName name = true) {slashed : Bool}
    {proper : isFileName name' = true}
    (h : f.follow (p.child name) = .ok (.within name' d slashed proper)) : Nameable name := by
  obtain ⟨⟨-, hzero⟩, -, _, _, _, -, -, -, hnamed⟩ := follow_eq_within_iff.1 h
  obtain ⟨front, hchild⟩ : ∃ front, (p.child name).segments = front ++ [name] := by
    rw [segments_child (isFileName_iff.1 hname).2.2.2]
    split
    · exact ⟨[], rfl⟩
    · exact ⟨p.unslashed, rfl⟩
  have hlast : name' = name := by
    have hlocation := location_of_follow h
    rw [Spot.location, locationFrom_child hname] at hlocation
    exact (List.cons.inj hlocation).1
  subst hlast
  refine ⟨hname, fun hc => hzero ?_, ?_⟩
  · exact (mem_text_iff (by decide) _).2 ⟨name', by simp [hchild], hc⟩
  · by_contra hlong
    rw [named, if_pos (by omega)] at hnamed
    cases hnamed

theorem isDirectory_of_directory? (h : f.directory? p = .ok d) :
    f.isDirectory p = true ∧ d = p.locationFrom f.here := by
  refine ⟨?_, location_of_directory? h⟩
  unfold directory? at h
  unfold isDirectory
  cases hf : f.find? p with
  | error e =>
    rw [hf] at h
    cases h
  | ok found =>
    obtain ⟨l, _ | _⟩ := found
    · rfl
    · rw [hf] at h
      cases h

/-- Files directly in a directory, as they are looked up and as they stand there. -/
theorem isFile_child_iff (hd : f.directory? p = .ok d) (hname : isFileName name = true) :
    f.isFile (p.child name) = true ↔
      Nameable name ∧ ∃ content, f.held (name :: d) = some content := by
  obtain ⟨hdir, rfl⟩ := isDirectory_of_directory? hd
  constructor
  · intro hfile
    obtain ⟨_, _, _, _, _, hfollow, -⟩ := within_of_isFile hfile
    obtain ⟨content, hcontent⟩ := exists_content?_of_isFile hfile
    have hheld := held_of_content? hcontent
    rw [locationFrom_child hname] at hheld
    exact ⟨nameable_of_follow hname hfollow, content, hheld⟩
  · rintro ⟨hnameable, content, hheld⟩
    obtain ⟨_, hget⟩ := held_eq_some_iff.1 hheld
    exact isFile_child hdir hnameable hget

/-! ## Creating directories -/

theorem createDirectory_child (hd : f.isDirectory p = true) (h : Nameable name)
    (hnew : f.get? (name :: p.locationFrom f.here) = none) :
    ∃ g, f.createDirectory (p.child name) = .ok g := by
  have hwithin := get?_of_isDirectory hd
  refine ⟨f.addDirectory name _ h.proper hwithin hnew, ?_⟩
  simp only [createDirectory, follow_nameable hd h, bind, Except.bind, dif_pos hnew,
    dif_pos hwithin]
  rfl

/-- What it is for a change to create some directories and nothing else. -/
structure AddsDirectories (f g : Files) (new : List Location) : Prop where
  agree : AgreeOutside (· ∈ new) f g
  absent : ∀ l ∈ new, f.get? l = none
  there : ∀ l ∈ new, g.get? l = some .directory

theorem AddsDirectories.keeps {new : List Location} (h : AddsDirectories f g new) : Keeps f g :=
  h.agree.keeps fun l hl hd => by
    rw [h.absent l hl] at hd
    cases hd

theorem ensureDirectory_child (hd : f.isDirectory p = true) (h : Nameable name)
    (hnew : f.get? (name :: p.locationFrom f.here) = none) :
    ∃ g, f.ensureDirectory (p.child name) = .ok g ∧
      AddsDirectories f g [name :: p.locationFrom f.here] := by
  obtain ⟨g, hg⟩ := createDirectory_child hd h hnew
  obtain ⟨last, l, slashed, proper, hfollow, habsent, hagree, hthere⟩ := createDirectory_eq_ok hg
  cases (follow_nameable hd h).symm.trans hfollow
  refine ⟨g, by rw [ensureDirectory, hg], ⟨hagree.mono fun l hl => ?_, ?_, ?_⟩⟩
  · simpa using hl
  · simpa using habsent
  · simpa using hthere

theorem createDirectories_of_ensure (h : f.ensureDirectory p = .ok g) (hp : p.EndsInName) :
    createDirectories p f = (.ok (), g) := by
  obtain ⟨parents, hparents⟩ := ancestors_eq_cons p
  rw [createDirectories, hparents, createAll, isEmpty_of_endsInName hp]
  simp only [Bool.false_eq_true, if_false, h]

/-- A directory is created in one that is there. -/
theorem createDirectories_child (hd : f.isDirectory p = true) (h : Nameable name)
    (hnew : f.get? (name :: p.locationFrom f.here) = none) :
    ∃ g, createDirectories (p.child name) f = (.ok (), g) ∧
      AddsDirectories f g [name :: p.locationFrom f.here] := by
  obtain ⟨g, hg, hadds⟩ := ensureDirectory_child hd h hnew
  exact ⟨g, createDirectories_of_ensure hg (endsInName_child p h.proper), hadds⟩

/-- Below what is not there, nothing is found. -/
theorem follow_child_child_of_new (hd : f.isDirectory p = true) (h : Nameable name)
    (h' : Nameable name') (hnew : f.get? (name :: p.locationFrom f.here) = none) :
    f.follow ((p.child name).child name') = .error .notFound := by
  obtain ⟨d0, hstart, hwalk⟩ := walk_of_find? (isDirectory_iff.1 hd)
  have hslash := (isFileName_iff.1 h.proper).2.2.2
  have hslash' := (isFileName_iff.1 h'.proper).2.2.2
  have hfollowable : ((p.child name).child name').Followable :=
    followable_child (followable_child (followable_of_find? (isDirectory_iff.1 hd)) h.proper
      h.nonzero) h'.proper h'.nonzero
  have hstart' : f.start ((p.child name).child name') = .ok d0 := by
    rw [start, isAbsolute_child hslash', isAbsolute_child hslash]
    exact hstart
  -- the walk comes as far as the directory that is there
  have hlost : f.walk d0 (p.child name).segments = .error .notFound := by
    rw [← walk_filter, ← steps, steps_child h.proper, walk, List.foldlM_append]
    have hthere : (p.steps.foldlM f.step d0) = .ok (p.locationFrom f.here) := by
      rw [← hwalk, ← walk_filter, walk, steps]
    have hstep : f.step (p.locationFrom f.here) name = .error .notFound := by
      have hup : (name == "..") = false := beq_eq_false_iff_ne.2 (isFileName_iff.1 h.proper).2.2.1
      have hnamed : named name (p.locationFrom f.here) = .ok (name :: p.locationFrom f.here) := by
        rw [named, if_neg (Nat.not_lt.2 h.fits)]
      simp only [step, isIdle_of_isFileName h.proper, hup, hnamed, Bool.false_eq_true, if_false,
        bind, Except.bind, hnew]
      rfl
    simp only [hthere, bind, Except.bind, List.foldlM_cons, hstep]
  have hlast : ((p.child name).child name').segments.reverse.dropWhile (· == "") =
      name' :: (p.child name).segments.reverse := by
    have hne := (isFileName_iff.1 h'.proper).1
    rw [segments_child_of_endsInName (endsInName_child p h.proper) hslash']
    simp [hne]
  rw [follow, if_neg (by simp [hfollowable.1]), if_neg (by simpa using hfollowable.2)]
  simp only [hstart', bind, Except.bind, hlast, List.reverse_reverse, hlost]

/-- A directory is created together with the one that it lies in. -/
theorem createDirectories_child_child (hd : f.isDirectory p = true) (h : Nameable name)
    (h' : Nameable name') (hnew : f.get? (name :: p.locationFrom f.here) = none) :
    ∃ g, createDirectories ((p.child name).child name') f = (.ok (), g) ∧
      AddsDirectories f g
        [name :: p.locationFrom f.here, name' :: name :: p.locationFrom f.here] := by
  have hlost := follow_child_child_of_new hd h h' hnew
  have hnone : f.get? (name' :: name :: p.locationFrom f.here) = none :=
    f.get?_eq_none_of_new hnew (isBelow_cons _ (isBelow_refl _))
  have hends := endsInName_child p h.proper
  have hfirst : f.ensureDirectory ((p.child name).child name') = .error .notFound := by
    have hmissing : f.isDirectory ((p.child name).child name') = false := by
      simp [isDirectory, find?, hlost, bind, Except.bind]
    simp only [ensureDirectory, createDirectory, hlost, bind, Except.bind, hmissing,
      Bool.false_eq_true, if_false]
  obtain ⟨g, hg, hadds⟩ := createDirectories_child hd h hnew
  have hlocation : (p.child name).locationFrom g.here = name :: p.locationFrom f.here := by
    rw [hadds.agree.here, locationFrom_child h.proper]
  have hthere : g.isDirectory (p.child name) = true := by
    refine isDirectory_child (hadds.keeps.way.isDirectory hd) h ?_
    rw [hadds.agree.here]
    exact hadds.there _ (List.mem_singleton_self _)
  obtain ⟨g', hg', hadds'⟩ := ensureDirectory_child hthere h' (by
    rw [hlocation, hadds.agree.get? _ (by simp), hnone])
  rw [hlocation] at hadds'
  refine ⟨g', ?_, ⟨?_, ?_, ?_⟩⟩
  · rw [createDirectories] at hg
    rw [createDirectories, ancestors_child hends h'.proper, createAll,
      isEmpty_of_endsInName (endsInName_child _ h'.proper)]
    simp only [Bool.false_eq_true, if_false, hfirst, hg, Action.change, hg']
  · refine (hadds.agree.mono fun l hl => ?_).trans (hadds'.agree.mono fun l hl => ?_)
    · exact List.mem_cons.2 (.inl (List.mem_singleton.1 hl))
    · exact List.mem_cons_of_mem _ hl
  · simpa using ⟨hnew, hnone⟩
  · have hfirst := hadds'.keeps.directory _ (hadds.there _ (List.mem_singleton_self _))
    have hsecond := hadds'.there _ (List.mem_singleton_self _)
    simpa using ⟨hfirst, hsecond⟩

/-! ## Writing, copying and moving -/

/-- A file is written to a name that no slash follows, unless a directory stands there. -/
theorem create_within {proper : isFileName name = true}
    (h : f.follow p = .ok (.within name d false proper))
    (hfree : f.get? (name :: d) ≠ some .directory) (executable : Bool) :
    ∃ g, f.create p executable = .ok (name :: d, g) := by
  have hwithin := directory_of_within h
  refine ⟨f.setFile name _ (.data .empty) executable proper hwithin hfree, ?_⟩
  simp only [create, h, bind, Except.bind, dif_pos hwithin, dif_pos hfree]
  rfl

theorem write_within {proper : isFileName name = true}
    (h : f.follow p = .ok (.within name d false proper))
    (hfree : f.get? (name :: d) ≠ some .directory) (content : Content) :
    ∃ g, f.write p content = .ok g := by
  obtain ⟨g, hg⟩ := create_within h hfree ((f.executable? p).getD false)
  simp only [write, writeAs, hg, bind, Except.bind]
  exact ⟨_, rfl⟩

theorem create_child (hd : f.isDirectory p = true) (h : Nameable name)
    (hfree : f.get? (name :: p.locationFrom f.here) ≠ some .directory) (executable : Bool) :
    ∃ g, f.create (p.child name) executable = .ok (name :: p.locationFrom f.here, g) :=
  create_within (follow_nameable hd h) hfree executable

theorem write_child (hd : f.isDirectory p = true) (h : Nameable name)
    (hfree : f.get? (name :: p.locationFrom f.here) ≠ some .directory) (content : Content) :
    ∃ g, f.write (p.child name) content = .ok g :=
  write_within (follow_nameable hd h) hfree content

theorem copy_child {source : Path} (hsource : f.isFile source = true)
    (hd : f.isDirectory p = true) (h : Nameable name)
    (hfree : f.get? (name :: p.locationFrom f.here) ≠ some .directory) :
    ∃ g, f.copy source (p.child name) = .ok g := by
  obtain ⟨_, _, _, content, executable, hfollow, hget⟩ := within_of_isFile hsource
  obtain ⟨g, hg⟩ := create_child hd h hfree executable
  simp only [copy, find?_of_file hfollow hget, hg, bind, Except.bind]
  split
  · exact ⟨_, rfl⟩
  · exact ⟨_, rfl⟩

/-- A file is moved to a name that no slash follows, unless a directory stands there. -/
theorem move_within {source target : Path} (hsource : f.isFile source = true)
    {proper : isFileName name = true}
    (htarget : f.follow target = .ok (.within name d false proper))
    (hfree : f.get? (name :: d) ≠ some .directory) : ∃ g, f.move source target = .ok g := by
  obtain ⟨_, _, _, content, executable, hfollow, hget⟩ := within_of_isFile hsource
  simp only [move, hfollow, htarget, hget, bind, Except.bind, Bool.or_self, Bool.false_eq_true,
    if_false, if_neg hfree]
  split
  · exact ⟨_, rfl⟩
  · exact ⟨_, rfl⟩

theorem directory?_of_isDirectory (h : f.isDirectory p = true) :
    f.directory? p = .ok (p.locationFrom f.here) := by
  rw [directory?, isDirectory_iff.1 h]
  rfl

end Files
end LtiUnit
