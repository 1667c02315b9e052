import LtiUnit.Proofs.Effect
import LtiUnit.Proofs.Triple

/-!
# LtiUnit.Proofs.Contents

What files hold after a course of actions that has succeeded.

`Files.held` is what the file at a location holds, if there is one. Every elementary change has one
equation that says what it does to this view; directories do not count in it, so creating them
changes nothing. A course that has succeeded is taken apart into its steps by `bind_eq_ok_iff`.
-/

namespace LtiUnit

/-! ## Taking courses apart -/

namespace Action

variable {ε δ α β : Type} {f g : Files}

theorem bind_eq_ok_iff {act : Action ε α} {next : α → Action ε β} {y : β} :
    (act >>= next) f = (.ok y, g) ↔ ∃ x f', act f = (.ok x, f') ∧ next x f' = (.ok y, g) := by
  rw [bind_apply]
  constructor
  · intro h
    rcases hact : act f with ⟨e | x, f'⟩
    · rw [hact] at h
      cases h
    · rw [hact] at h
      exact ⟨x, f', rfl, h⟩
  · rintro ⟨x, f', hact, h⟩
    rw [hact]
    exact h

theorem pure_eq_ok {x y : α} (h : (pure x : Action ε α) f = (.ok y, g)) : x = y ∧ f = g := by
  cases h
  exact ⟨rfl, rfl⟩

theorem look_eq_ok {q : Files → Except ε α} {x : α} (h : look q f = (.ok x, g)) :
    q f = .ok x ∧ f = g := by
  injection h with hq hf
  exact ⟨hq, hf⟩

theorem change_eq_ok {q : Files → Except ε Files} {u : Unit} (h : change q f = (.ok u, g)) :
    q f = .ok g := by
  unfold change at h
  cases hq : q f with
  | error e =>
    rw [hq] at h
    cases h
  | ok f' =>
    rw [hq] at h
    cases h
    rfl

theorem wrap_eq_ok {act : Action δ α} {w : δ → ε} {x : α} (h : wrap w act f = (.ok x, g)) :
    act f = (.ok x, g) := by
  unfold wrap at h
  rcases hact : act f with ⟨e | y, f'⟩
  · rw [hact] at h
    cases h
  · rw [hact] at h
    cases h
    rfl

theorem andFinally_eq_ok {act : Action ε α} {last : Action δ Unit} {x : α}
    (h : act.andFinally last f = (.ok x, g)) : ∃ f', act f = (.ok x, f') ∧ g = (last f').2 := by
  unfold andFinally at h
  rcases hact : act f with ⟨e | y, f'⟩
  · rw [hact] at h
    cases h
  · rw [hact] at h
    cases h
    exact ⟨f', rfl, rfl⟩

end Action

/-! ## What files hold -/

namespace Files

open LtiUnit.Path LtiUnit.Action

def held (f : Files) (l : Location) : Option Content :=
  match f.get? l with
  | some (.file content _) => some content
  | _ => none

variable {f g : Files} {l k : Location} {content : Content} {p : Path}

theorem held_eq_some_iff : f.held l = some content ↔ ∃ x, f.get? l = some (.file content x) := by
  unfold held
  split
  · rename_i content' x h
    simp [h]
  · rename_i h
    simp only [reduceCtorEq, false_iff, not_exists]
    exact fun x => h content x

theorem held_congr (h : g.get? l = f.get? l) : g.held l = f.held l := by
  rw [held, held, h]

theorem held_of_directory (h : f.get? l = some .directory) : f.held l = none := by
  rw [held, h]

theorem held_of_none (h : f.get? l = none) : f.held l = none := by
  rw [held, h]

theorem AgreeOutside.held {dirty : Location → Prop} (h : AgreeOutside dirty f g) (hl : ¬dirty l) :
    g.held l = f.held l :=
  held_congr (h.get? l hl)

/-- What is found at a path is held at the location that the path names. -/
theorem held_of_content? (h : f.content? p = .ok content) :
    f.held (p.locationFrom f.here) = some content := by
  unfold content? at h
  cases hf : f.find? p with
  | error e => simp [hf, bind, Except.bind] at h
  | ok found =>
    obtain ⟨l, e⟩ := found
    obtain ⟨rfl, hget⟩ := location_of_find? hf
    cases e with
    | directory => simp [hf, bind, Except.bind, throw, throwThe, MonadExceptOf.throw] at h
    | file content' x =>
      simp only [hf, bind, Except.bind, pure, Except.pure, Except.ok.injEq] at h
      exact held_eq_some_iff.2 ⟨x, h ▸ hget⟩

theorem exists_content?_of_isFile (h : f.isFile p = true) :
    ∃ content, f.content? p = .ok content := by
  unfold isFile at h
  split at h
  · rename_i l content x hf
    exact ⟨content, by simp only [content?, hf, bind, Except.bind]; rfl⟩
  · cases h

theorem isFile_of_content? (h : f.content? p = .ok content) : f.isFile p = true := by
  unfold content? at h
  unfold isFile
  cases hf : f.find? p with
  | error e => simp [hf, bind, Except.bind] at h
  | ok found =>
    obtain ⟨l, e⟩ := found
    cases e with
    | directory => simp [hf, bind, Except.bind, throw, throwThe, MonadExceptOf.throw] at h
    | file content' x => rfl

theorem PutsFile.held (h : PutsFile f g l content) (k : Location) :
    g.held k = if k = l then some content else f.held k := by
  split
  · rename_i hk
    obtain ⟨x, hx⟩ := h.there
    exact held_eq_some_iff.2 ⟨x, hk ▸ hx⟩
  · rename_i hk
    exact h.agree.held hk

/-! ## Elementary changes -/

/-- A file that is copied to another place is found there afterwards. -/
theorem putsFile_of_copy {source target : Path} (h : f.copy source target = .ok g)
    (hne : source.locationFrom f.here ≠ target.locationFrom f.here) :
    ∃ content, f.held (source.locationFrom f.here) = some content ∧
      PutsFile f g (target.locationFrom f.here) content := by
  simp only [copy, bind, Except.bind] at h
  split at h
  · cases h
  · rename_i found hfind
    split at h
    · cases h
    · rename_i l content executable
      obtain ⟨rfl, hsource⟩ := location_of_find? hfind
      split at h
      · cases h
      · rename_i x hx
        obtain ⟨l', f'⟩ := x
        obtain ⟨rfl, hfree, hagree, c, hl⟩ := create_eq_ok hx
        have hkept := hagree.get? _ hne
        rw [hsource] at hkept
        simp only [hkept] at h
        cases h
        exact ⟨content, held_eq_some_iff.2 ⟨executable, hsource⟩, hfree,
          hagree.trans (agree_fill ..), _, get?_fill_of_file hl ..⟩

/-- A file that is moved is found at the target afterwards, and no longer where it was. -/
theorem held_move {source target : Path} (h : f.move source target = .ok g) :
    ∃ content, f.held (source.locationFrom f.here) = some content ∧
      ∀ k, g.held k = if k = target.locationFrom f.here then some content
        else if k = source.locationFrom f.here then none else f.held k := by
  obtain ⟨content, executable, name, d, proper, hsource, hfollow, -, htarget, hagree⟩ :=
    move_eq_ok h
  have hl : name :: d = target.locationFrom f.here := location_of_follow hfollow
  rw [hl] at htarget hagree
  refine ⟨content, held_eq_some_iff.2 ⟨_, hsource⟩, fun k => ?_⟩
  split
  · rename_i ht
    rw [ht, held_eq_some_iff]
    exact ⟨_, htarget⟩
  · rename_i ht
    split
    · rename_i hs
      rw [hs]
      exact held_of_none (get?_source_of_move h fun heq => ht (hs.trans heq))
    · rename_i hs
      exact hagree.held (not_or.2 ⟨hs, ht⟩)

theorem removeBelow_of_removeDirectory (h : f.removeDirectory p = .ok g) :
    p.locationFrom f.here ≠ [] ∧ g = f.removeBelow (p.locationFrom f.here) := by
  cases hf : f.follow p with
  | error e => simp [removeDirectory, hf, bind, Except.bind] at h
  | ok spot =>
    rw [← location_of_follow hf]
    simp only [removeDirectory, hf, bind, Except.bind] at h
    split at h
    · cases h
    · split at h
      · cases h
      · cases h
      · cases h
        exact ⟨List.cons_ne_nil _ _, rfl⟩

theorem held_removeDirectory (h : f.removeDirectory p = .ok g) (k : Location) :
    g.held k = if isBelow k (p.locationFrom f.here) = true then none else f.held k := by
  obtain ⟨hne, rfl⟩ := removeBelow_of_removeDirectory h
  by_cases hb : isBelow k (p.locationFrom f.here) = true
  · rw [if_pos hb]
    exact held_of_none (by rw [get?_removeBelow f hne, if_pos hb])
  · rw [if_neg hb]
    exact held_congr (by rw [get?_removeBelow f hne, if_neg hb])

theorem held_createDirectory (h : f.createDirectory p = .ok g) (k : Location) :
    g.held k = f.held k := by
  obtain ⟨name, d, slashed, proper, -, hnew, hagree, hthere⟩ := createDirectory_eq_ok h
  by_cases hk : k = name :: d
  · subst hk
    rw [held_of_directory hthere, held_of_none hnew]
  · exact hagree.held hk

theorem held_ensureDirectory (h : f.ensureDirectory p = .ok g) (k : Location) :
    g.held k = f.held k := by
  unfold ensureDirectory at h
  split at h
  · rename_i g' hcreate
    cases h
    exact held_createDirectory hcreate k
  · split at h
    · cases h
      rfl
    · cases h

/-- What no creation of a directory changes is not changed by creating several, also if that fails
half-way. -/
theorem createAll_preserves {β : Type} {φ : Files → β}
    (hφ : ∀ p f g, f.ensureDirectory p = .ok g → φ g = φ f) (ps : List Path) (f : Files) :
    φ (createAll ps f).2 = φ f := by
  induction ps generalizing f with
  | nil => rfl
  | cons p parents ih =>
    have hparents := ih f
    simp only [createAll]
    split
    · rfl
    · split
      · rename_i g hg
        exact hφ p f g hg
      · split
        · rename_i g hg
          rw [hg] at hparents
          unfold change
          split
          · rename_i g' hg'
            exact (hφ p g g' hg').trans hparents
          · exact hparents
        · rename_i e g hg
          rwa [hg] at hparents
      · rfl

theorem held_createDirectories {x : Unit} (h : createDirectories p f = (.ok x, g)) (k : Location) :
    g.held k = f.held k := by
  have := createAll_preserves (φ := (·.held k)) (fun _ _ _ hg => held_ensureDirectory hg k)
    p.ancestors f
  rw [createDirectories] at h
  rwa [h] at this

theorem here_createDirectories {x : Unit} (h : createDirectories p f = (.ok x, g)) :
    g.here = f.here := by
  have := createAll_preserves (φ := Files.here)
    (fun _ _ _ hg => (ensureDirectory_eq_ok hg).here) p.ancestors f
  rw [createDirectories] at h
  rwa [h] at this

end Files
end LtiUnit
