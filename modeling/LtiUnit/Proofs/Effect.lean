import LtiUnit.Files.Action
import LtiUnit.Proofs.Walking

/-!
# LtiUnit.Proofs.Effect

What changes to files come to, one lemma for each. All of them say where files differ afterwards,
namely at the location that the path names, and what stands there (`AgreeOutside`).
-/

namespace LtiUnit
namespace Files

open LtiUnit.Path

/-- Whether two states of the files differ at some locations only. -/
structure AgreeOutside (dirty : Location → Prop) (f g : Files) : Prop where
  here : g.here = f.here
  get? : ∀ l, ¬dirty l → g.get? l = f.get? l

namespace AgreeOutside

variable {dirty dirty' : Location → Prop} {f g h : Files}

theorem refl (f : Files) : AgreeOutside dirty f f := ⟨rfl, fun _ _ => rfl⟩

theorem trans (hf : AgreeOutside dirty f g) (hg : AgreeOutside dirty g h) :
    AgreeOutside dirty f h :=
  ⟨hg.here.trans hf.here, fun l hl => (hg.get? l hl).trans (hf.get? l hl)⟩

theorem mono (hf : AgreeOutside dirty f g) (hd : ∀ l, dirty l → dirty' l) :
    AgreeOutside dirty' f g :=
  ⟨hf.here, fun l hl => hf.get? l (mt (hd l) hl)⟩

/-- Directories stay unless they are where the files differ. -/
theorem keeps (hf : AgreeOutside dirty f g)
    (hd : ∀ d, dirty d → f.get? d = some .directory → g.get? d = some .directory) : Keeps f g where
  here := hf.here
  directory := by
    intro d hdir
    by_cases h : dirty d
    · exact hd d h hdir
    · rw [hf.get? d h, hdir]

end AgreeOutside

/-- Files are what they hold and the directory that relative paths count from. -/
theorem eq_of_entries {f g : Files} (hentries : f.entries = g.entries) (hhere : f.here = g.here) :
    f = g := by
  cases f
  cases g
  cases hentries
  cases hhere
  rfl

/-! ## Locations below others -/

theorem isBelow_iff {l d : Location} : isBelow l d = true ↔ d <:+ l :=
  List.isSuffixOf_iff_suffix

theorem isBelow_refl (l : Location) : isBelow l l = true := isBelow_iff.2 List.suffix_rfl

theorem isBelow_trans {l d e : Location} (h : isBelow l d = true) (h' : isBelow d e = true) :
    isBelow l e = true :=
  isBelow_iff.2 ((isBelow_iff.1 h').trans (isBelow_iff.1 h))

/-- Below what is no directory there is nothing. -/
theorem get?_eq_none_of_isBelow (f : Files) {l d : Location} (hd : f.get? d ≠ some .directory)
    (hb : isBelow l d = true) (hne : l ≠ d) : f.get? l = none := by
  induction l with
  | nil => exact absurd (List.suffix_nil.1 (isBelow_iff.1 hb)).symm hne
  | cons name l ih =>
    have hl : isBelow l d = true := by
      rcases List.suffix_cons_iff.1 (isBelow_iff.1 hb) with h | h
      · exact absurd h.symm hne
      · exact isBelow_iff.2 h
    cases hget : f.get? (name :: l) with
    | none => rfl
    | some e =>
      have hparent := f.get?_parent hget
      by_cases heq : l = d
      · exact absurd (heq ▸ hparent) hd
      · rw [ih hl heq] at hparent
        cases hparent

theorem get?_eq_none_of_new (f : Files) {l d : Location} (hd : f.get? d = none)
    (hb : isBelow l d = true) : f.get? l = none := by
  by_cases hl : l = d
  · rw [hl, hd]
  · exact f.get?_eq_none_of_isBelow (by simp [hd]) hb hl

/-! ## Files -/

theorem agree_setFile (f : Files) (name : String) (d : Location) (content : Content)
    (executable : Bool) (proper : isFileName name = true) (within : f.get? d = some .directory)
    (free : f.get? (name :: d) ≠ some .directory) :
    AgreeOutside (· = name :: d) f (f.setFile name d content executable proper within free) :=
  ⟨rfl, fun l hl => by rw [get?_setFile, if_neg hl]⟩

theorem create_eq_ok {f g : Files} {p : Path} {executable : Bool} {l : Location}
    (h : f.create p executable = .ok (l, g)) :
    l = p.locationFrom f.here ∧ f.get? l ≠ some .directory ∧ AgreeOutside (· = l) f g ∧
      ∃ content, g.get? l = some (.file content executable) := by
  cases hf : f.follow p with
  | error e => simp [create, hf, bind, Except.bind] at h
  | ok spot =>
    have hl := location_of_follow hf
    simp only [create, hf, bind, Except.bind] at h
    split at h
    · cases h
    · cases h
    · split at h
      · rename_i within
        split at h
        · rename_i free
          cases h
          exact ⟨hl, free, agree_setFile .., _, by rw [get?_setFile, if_pos rfl]⟩
        · cases h
      · cases h

theorem agree_fill (f : Files) (l : Location) (content : Content) (executable : Bool) :
    AgreeOutside (· = l) f (f.fill l content executable) := by
  unfold fill
  split
  · exact .refl f
  · split
    · split
      · split
        · exact agree_setFile ..
        · exact .refl f
      · exact .refl f
    · exact .refl f

theorem get?_fill {f : Files} {name : String} {d : Location} (proper : isFileName name = true)
    (within : f.get? d = some .directory) (free : f.get? (name :: d) ≠ some .directory)
    (content : Content) (executable : Bool) :
    (f.fill (name :: d) content executable).get? (name :: d) =
      some (.file content executable) := by
  rw [fill, dif_pos proper, dif_pos within, dif_pos free, get?_setFile, if_pos rfl]

theorem get?_fill_of_file {f : Files} {l : Location} {c : Content} {x : Bool}
    (h : f.get? l = some (.file c x)) (content : Content) (executable : Bool) :
    (f.fill l content executable).get? l = some (.file content executable) := by
  cases l with
  | nil => cases h
  | cons name d =>
    exact get?_fill (f.isFileName_of_get? h) (f.get?_parent h) (by simp [h]) content executable

/-- What it is for a change to put a file at the end of a path. -/
structure PutsFile (f g : Files) (l : Location) (content : Content) : Prop where
  free : f.get? l ≠ some .directory
  agree : AgreeOutside (· = l) f g
  there : ∃ executable, g.get? l = some (.file content executable)

theorem writeAs_eq_ok {f g : Files} {p : Path} {content : Content} {executable : Bool}
    (h : f.writeAs p content executable = .ok g) :
    PutsFile f g (p.locationFrom f.here) content := by
  simp only [writeAs, bind, Except.bind] at h
  split at h
  · cases h
  · rename_i x hx
    obtain ⟨l, f'⟩ := x
    obtain ⟨rfl, hfree, hagree, c, hl⟩ := create_eq_ok hx
    cases h
    exact ⟨hfree, hagree.trans (agree_fill ..), _, get?_fill_of_file hl ..⟩

theorem write_eq_ok {f g : Files} {p : Path} {content : Content} (h : f.write p content = .ok g) :
    PutsFile f g (p.locationFrom f.here) content := writeAs_eq_ok h

theorem copy_eq_ok {f g : Files} {source target : Path} (h : f.copy source target = .ok g) :
    ∃ content, PutsFile f g (target.locationFrom f.here) content := by
  simp only [copy, bind, Except.bind] at h
  split at h
  · cases h
  · split at h
    · cases h
    · rename_i l _ executable hfind
      split at h
      · cases h
      · rename_i x hx
        obtain ⟨l', f'⟩ := x
        obtain ⟨rfl, hfree, hagree, c, hl⟩ := create_eq_ok hx
        simp only at h
        split at h
        · cases h
          exact ⟨_, hfree, hagree.trans (agree_fill ..), _, get?_fill_of_file hl ..⟩
        · cases h
          exact ⟨_, hfree, hagree, _, hl⟩

theorem agree_removeBelow (f : Files) {l : Location} (hl : l ≠ []) :
    AgreeOutside (fun k => isBelow k l = true) f (f.removeBelow l) :=
  ⟨rfl, fun k hk => by rw [get?_removeBelow f hl, if_neg hk]⟩

/-- A file has nothing below it that would go with it. -/
theorem agree_removeBelow_file {f : Files} {l : Location} {content : Content} {executable : Bool}
    (h : f.get? l = some (.file content executable)) :
    AgreeOutside (· = l) f (f.removeBelow l) := by
  have hne : l ≠ [] := by
    rintro rfl
    cases h
  refine ⟨rfl, fun k hk => ?_⟩
  rw [get?_removeBelow f hne]
  split
  · rename_i hb
    rw [f.get?_eq_none_of_isBelow (by simp [h]) hb hk]
  · rfl

theorem files_of_move {f g : Files} {source target : Path} (h : f.move source target = .ok g) :
    ∃ content executable name d proper,
      f.get? (source.locationFrom f.here) = some (.file content executable) ∧
        f.follow target = .ok (.within name d false proper) ∧
          f.get? (name :: d) ≠ some .directory ∧
            g = if name :: d = source.locationFrom f.here then f
              else (f.removeBelow (source.locationFrom f.here)).fill (name :: d) content
                executable := by
  cases hs : f.follow source with
  | error e => simp [move, hs, bind, Except.bind] at h
  | ok spot =>
    rw [← location_of_follow hs]
    cases ht : f.follow target with
    | error e => simp [move, hs, ht, bind, Except.bind] at h
    | ok spot' =>
      simp only [move, hs, ht, bind, Except.bind] at h
      cases spot with
      | passed d => cases h
      | within name d slashed proper =>
        cases spot' with
        | passed d' => cases h
        | within name' d' slashed' proper' =>
          simp only [Spot.location]
          simp only at h
          split at h
          · cases h
          · cases h
          · rename_i content executable hfile
            split at h
            · cases h
            · rename_i hslashed
              simp only [Bool.or_eq_true, not_or, Bool.not_eq_true] at hslashed
              split at h
              · cases h
              · rename_i hfree
                refine ⟨content, executable, name', d', proper', hfile, by rw [hslashed.2],
                  hfree, ?_⟩
                split at h
                · rename_i hsame
                  cases h
                  exact (if_pos hsame).symm
                · rename_i hother
                  cases h
                  exact (if_neg hother).symm

/-- A file is moved as it is, in place of what was at the target. -/
theorem move_eq_ok {f g : Files} {source target : Path} (h : f.move source target = .ok g) :
    ∃ content executable name d proper,
      f.get? (source.locationFrom f.here) = some (.file content executable) ∧
        f.follow target = .ok (.within name d false proper) ∧
          f.get? (name :: d) ≠ some .directory ∧
            g.get? (name :: d) = some (.file content executable) ∧
              AgreeOutside (fun l => l = source.locationFrom f.here ∨ l = name :: d) f g := by
  obtain ⟨content, executable, name, d, proper, hfile, hfollow, hfree, rfl⟩ := files_of_move h
  refine ⟨content, executable, name, d, proper, hfile, hfollow, hfree, ?_⟩
  split
  · rename_i hsame
    rw [hsame]
    exact ⟨hfile, .refl f⟩
  · rename_i hother
    have hremoved := agree_removeBelow_file hfile
    have hd : d ≠ source.locationFrom f.here := by
      rintro rfl
      rw [directory_of_within hfollow] at hfile
      cases hfile
    refine ⟨get?_fill proper ?_ ?_ content executable,
      (hremoved.mono fun _ => .inl).trans ((agree_fill ..).mono fun _ => .inr)⟩
    · rw [hremoved.get? d hd]
      exact directory_of_within hfollow
    · rw [hremoved.get? _ hother]
      exact hfree

/-- A file that is moved to another place is gone from its own. -/
theorem get?_source_of_move {f g : Files} {source target : Path}
    (h : f.move source target = .ok g)
    (hne : source.locationFrom f.here ≠ target.locationFrom f.here) :
    g.get? (source.locationFrom f.here) = none := by
  obtain ⟨content, executable, name, d, proper, hfile, hfollow, -, rfl⟩ := files_of_move h
  have hl : name :: d = target.locationFrom f.here := location_of_follow hfollow
  have hroot : source.locationFrom f.here ≠ [] := by
    intro hnil
    rw [hnil] at hfile
    cases hfile
  rw [if_neg (hl ▸ hne.symm), (agree_fill ..).get? _ (hl ▸ hne), get?_removeBelow f hroot,
    if_pos (isBelow_refl _)]

/-! ## Directories -/

theorem createDirectory_eq_ok {f g : Files} {p : Path} (h : f.createDirectory p = .ok g) :
    ∃ name d slashed proper, f.follow p = .ok (.within name d slashed proper) ∧
      f.get? (name :: d) = none ∧ AgreeOutside (· = name :: d) f g ∧
      g.get? (name :: d) = some .directory := by
  cases hf : f.follow p with
  | error e => simp [createDirectory, hf, bind, Except.bind] at h
  | ok spot =>
    simp only [createDirectory, hf, bind, Except.bind] at h
    split at h
    · cases h
    · rename_i name d slashed proper
      split at h
      · rename_i new
        split at h
        · rename_i within
          cases h
          exact ⟨name, d, slashed, proper, rfl, new,
            ⟨rfl, fun l hl => by rw [get?_addDirectory, if_neg hl]⟩,
            by rw [get?_addDirectory, if_pos rfl]⟩
        · cases h
      · cases h

theorem ensureDirectory_eq_ok {f g : Files} {p : Path} (h : f.ensureDirectory p = .ok g) :
    AgreeOutside (· = p.locationFrom f.here) f g := by
  unfold ensureDirectory at h
  split at h
  · rename_i g' hc
    cases h
    obtain ⟨name, d, slashed, proper, hf, -, hagree, -⟩ := createDirectory_eq_ok hc
    rw [← location_of_follow hf]
    exact hagree
  · split at h
    · cases h
      exact .refl f
    · cases h

variable {f : Files} {p : Path} {name : String} {d : Location} {slashed : Bool}
  {proper : isFileName name = true}

theorem find?_of_directory (h : f.follow p = .ok (.within name d slashed proper))
    (hd : f.get? (name :: d) = some .directory) : f.find? p = .ok (name :: d, .directory) := by
  simp only [find?, h, hd, bind, Except.bind]
  rfl

theorem ensureDirectory_of_directory (h : f.follow p = .ok (.within name d slashed proper))
    (hd : f.get? (name :: d) = some .directory) : f.ensureDirectory p = .ok f := by
  have hdir : f.isDirectory p = true := by rw [isDirectory, find?_of_directory h hd]
  have hnew : f.get? (name :: d) ≠ none := by simp [hd]
  simp only [ensureDirectory, createDirectory, h, bind, Except.bind, dif_neg hnew, hdir]
  rfl

theorem removeDirectory_of_directory (h : f.follow p = .ok (.within name d slashed proper))
    (hd : f.get? (name :: d) = some .directory) :
    f.removeDirectory p = .ok (f.removeBelow (name :: d)) := by
  simp only [removeDirectory, h, hd, bind, Except.bind]
  rfl

theorem removeDirectory_eq_ok {f g : Files} {p : Path} (h : f.removeDirectory p = .ok g) :
    AgreeOutside (fun l => isBelow l (p.locationFrom f.here) = true) f g := by
  cases hf : f.follow p with
  | error e => simp [removeDirectory, hf, bind, Except.bind] at h
  | ok spot =>
    rw [← location_of_follow hf]
    simp only [removeDirectory, hf, bind, Except.bind] at h
    split at h
    · cases h
    · split at h
      · cases h
      · cases h
      · cases h
        exact agree_removeBelow f (List.cons_ne_nil _ _)

end Files
end LtiUnit
