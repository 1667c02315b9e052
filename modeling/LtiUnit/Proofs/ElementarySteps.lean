import LtiUnit.Proofs.Stepwise

/-!
# LtiUnit.Proofs.ElementarySteps

The changes that builds make to files, taken apart into steps. A file is created before it is
filled, a copy is filled with what its source holds by then, missing directories are created one by
one, and a directory is emptied, from the innermost entries on, before it is removed. Taken without
a break they are the changes of `LtiUnit.Files.Action`.
-/

namespace LtiUnit

open LtiUnit.Files LtiUnit.Path
open Package (Inside inside_cons)

theorem Package.Inside.ne_nil {l d : Location} (h : Inside l d) : l ≠ [] := by
  rintro rfl
  exact h.2 (List.suffix_nil.1 (isBelow_iff.1 h.1)).symm

namespace Files

/-! ## Files that differ inside a directory -/

variable {f g : Files} {t : Location} {p : Path}

theorem not_inside_tail {name : String} {d : Location} (h : ¬Inside (name :: d) t) :
    ¬Inside d t :=
  fun hd => h (hd.below (isBelow_cons name (isBelow_refl d)))

/-- Two results of a change that differ at hidden locations only. -/
def AgreeResult (hidden : Location → Prop) : Except FileError Files → Except FileError Files → Prop
  | .ok f, .ok g => AgreeOutside hidden f g
  | .error e, .error e' => e' = e
  | _, _ => False

theorem agree_addDirectory {name : String} {d : Location} {hidden : Location → Prop}
    (h : AgreeOutside hidden f g) (proper : isFileName name = true)
    (hf : f.get? d = some .directory) (hf' : f.get? (name :: d) = none)
    (hg : g.get? d = some .directory) (hg' : g.get? (name :: d) = none) :
    AgreeOutside hidden (f.addDirectory name d proper hf hf')
      (g.addDirectory name d proper hg hg') := by
  refine ⟨h.here, fun l hl => ?_⟩
  rw [get?_addDirectory, get?_addDirectory, h.get? l hl]

theorem createDirectory_congr (h : AgreeOutside (Inside · t) f g)
    (hp : p.Avoids f.here (Inside · t)) :
    AgreeResult (Inside · t) (f.createDirectory p) (g.createDirectory p) := by
  unfold createDirectory
  rw [follow_congr h hp]
  cases hf : f.follow p with
  | error e => rfl
  | ok spot =>
    cases spot with
    | passed d => rfl
    | within name d slashed proper =>
      have hl : ¬Inside (name :: d) t := by
        have hlocation := location_of_follow hf
        rw [Spot.location] at hlocation
        exact hlocation ▸ hp.location
      have hget := h.get? _ hl
      have hget' := h.get? _ (not_inside_tail hl)
      simp only [bind, Except.bind]
      by_cases hnew : f.get? (name :: d) = none
      · by_cases hwithin : f.get? d = some .directory
        · rw [dif_pos hnew, dif_pos hwithin, dif_pos (hget.trans hnew),
            dif_pos (hget'.trans hwithin)]
          exact agree_addDirectory h ..
        · rw [dif_pos hnew, dif_neg hwithin, dif_pos (hget.trans hnew),
            dif_neg (hget' ▸ hwithin)]
          rfl
      · rw [dif_neg hnew, dif_neg (hget ▸ hnew)]
        rfl

theorem ensureDirectory_congr (h : AgreeOutside (Inside · t) f g)
    (hp : p.Avoids f.here (Inside · t)) :
    AgreeResult (Inside · t) (f.ensureDirectory p) (g.ensureDirectory p) := by
  have hcreate := createDirectory_congr h hp
  unfold ensureDirectory
  rw [isDirectory_congr h hp]
  cases hf : f.createDirectory p with
  | ok f' =>
    cases hg : g.createDirectory p with
    | ok g' =>
      rw [hf, hg] at hcreate
      exact hcreate
    | error e =>
      rw [hf, hg] at hcreate
      exact hcreate.elim
  | error e =>
    cases hg : g.createDirectory p with
    | ok g' =>
      rw [hf, hg] at hcreate
      exact hcreate.elim
    | error e' =>
      rw [hf, hg] at hcreate
      cases hcreate
      cases f.isDirectory p with
      | true => exact h
      | false => rfl

theorem setFile_congr {hidden : Location → Prop} {name : String} {d : Location} {content : Content}
    {executable : Bool} (h : AgreeOutside hidden f g) (proper : isFileName name = true)
    (hf : f.get? d = some .directory) (hf' : f.get? (name :: d) ≠ some .directory)
    (hg : g.get? d = some .directory) (hg' : g.get? (name :: d) ≠ some .directory) :
    AgreeOutside hidden (f.setFile name d content executable proper hf hf')
      (g.setFile name d content executable proper hg hg') := by
  refine ⟨h.here, fun l hl => ?_⟩
  rw [get?_setFile, get?_setFile, h.get? l hl]

theorem fill_congr (h : AgreeOutside (Inside · t) f g) {l : Location} (hl : ¬Inside l t)
    (content : Content) (executable : Bool) :
    AgreeOutside (Inside · t) (f.fill l content executable) (g.fill l content executable) := by
  cases l with
  | nil => exact h
  | cons name d =>
    have hget := h.get? _ hl
    have hget' := h.get? _ (not_inside_tail hl)
    rw [fill, fill]
    by_cases proper : isFileName name = true
    · by_cases hwithin : f.get? d = some .directory
      · by_cases hfree : f.get? (name :: d) ≠ some .directory
        · rw [dif_pos proper, dif_pos proper, dif_pos hwithin, dif_pos (hget'.trans hwithin),
            dif_pos hfree, dif_pos (hget ▸ hfree)]
          exact setFile_congr h ..
        · rw [dif_pos proper, dif_pos proper, dif_pos hwithin, dif_pos (hget'.trans hwithin),
            dif_neg hfree, dif_neg (hget ▸ hfree)]
          exact h
      · rw [dif_pos proper, dif_pos proper, dif_neg hwithin, dif_neg (hget' ▸ hwithin)]
        exact h
    · rw [dif_neg proper, dif_neg proper]
      exact h

theorem removeBelow_congr {hidden : Location → Prop} (h : AgreeOutside hidden f g) {d : Location}
    (hd : d ≠ []) : AgreeOutside hidden (f.removeBelow d) (g.removeBelow d) := by
  refine ⟨h.here, fun l hl => ?_⟩
  rw [get?_removeBelow f hd, get?_removeBelow g hd, h.get? l hl]

theorem move_congr {q : Path} (h : AgreeOutside (Inside · t) f g)
    (hp : p.Avoids f.here (Inside · t)) (hq : q.Avoids f.here (Inside · t)) :
    AgreeResult (Inside · t) (f.move p q) (g.move p q) := by
  unfold move
  rw [follow_congr h hp, follow_congr h hq]
  cases hf : f.follow p with
  | error e => rfl
  | ok spot =>
    cases hf' : f.follow q with
    | error e => rfl
    | ok spot' =>
      have hl := location_of_follow hf
      have hl' := location_of_follow hf'
      cases spot with
      | passed d => rfl
      | within name d slashed proper =>
        cases spot' with
        | passed d' => rfl
        | within name' d' slashed' proper' =>
          rw [Spot.location] at hl hl'
          have hsource : ¬Inside (name :: d) t := hl ▸ hp.location
          have htarget : ¬Inside (name' :: d') t := hl' ▸ hq.location
          simp only [bind, Except.bind, h.get? _ hsource, h.get? _ htarget]
          cases f.get? (name :: d) with
          | none => rfl
          | some e =>
            cases e with
            | directory => rfl
            | file content executable =>
              simp only
              split
              · rfl
              · split
                · rfl
                · split
                  · exact h
                  · exact fill_congr (removeBelow_congr h (List.cons_ne_nil _ _)) htarget ..

/-! ## What lies inside a directory -/

/-- The locations inside a directory, each behind those that lie below it. -/
def inner (f : Files) (d : Location) : List Location :=
  ((f.entries.map Prod.fst).filter fun l => isBelow l d && l != d).mergeSort
    fun l k => decide (k.reverse ≤ l.reverse)

theorem mem_inner_iff {d l : Location} :
    l ∈ f.inner d ↔ (f.get? l).isSome = true ∧ Inside l d := by
  have hkey (hl : l ≠ []) : l ∈ f.entries.map Prod.fst ↔ (f.get? l).isSome = true := by
    simp only [List.mem_map, Prod.exists, exists_and_right, exists_eq_right,
      f.mem_entries_iff hl, Option.isSome_iff_exists]
  have hinside : (isBelow l d && l != d) = true ↔ Inside l d := by
    rw [Bool.and_eq_true, bne_iff_ne, Inside]
  rw [inner, List.mem_mergeSort, List.mem_filter, hinside]
  exact and_congr_left fun hl => hkey (hl.ne_nil)

theorem inner_congr {d : Location} (h : ∀ l, isBelow l d = true → g.get? l = f.get? l) :
    g.inner d = f.inner d := by
  have hnodup (f : Files) : (f.inner d).Nodup :=
    (List.mergeSort_perm _ _).nodup_iff.2 (f.unique.filter _)
  have hperm : (g.inner d).Perm (f.inner d) := by
    refine (List.perm_ext_iff_of_nodup (hnodup g) (hnodup f)).2 fun l => ?_
    rw [mem_inner_iff, mem_inner_iff]
    refine and_congr_left fun hl => ?_
    rw [h l hl.1]
  let behind (l k : Location) : Bool := decide (k.reverse ≤ l.reverse)
  have hsorted (f : Files) : (f.inner d).Pairwise fun l k => k.reverse ≤ l.reverse := by
    refine (@List.pairwise_mergeSort _ behind (fun a b c hab hbc => ?_) (fun a b => ?_) _).imp
      of_decide_eq_true
    · exact decide_eq_true (le_trans (of_decide_eq_true hbc) (of_decide_eq_true hab))
    · simpa [behind] using le_total b.reverse a.reverse
  exact hperm.eq_of_pairwise (fun a b _ _ hab hba => List.reverse_injective (le_antisymm hba hab))
    (hsorted g) (hsorted f)

/-- What is there to remove with a directory: its location, and what lies inside. -/
def removal (f : Files) (p : Path) : Except FileError (Location × List Location) := do
  match ← f.follow p with
  | .passed _ => throw .busy
  | .within name d _ _ =>
    match f.get? (name :: d) with
    | none => throw .notFound
    | some (.file ..) => throw .notADirectory
    | some .directory => return (name :: d, f.inner (name :: d))

theorem removeDirectory_eq (f : Files) (p : Path) :
    f.removeDirectory p = (f.removal p).map fun x => f.removeBelow x.1 := by
  unfold removal removeDirectory
  cases f.follow p with
  | error e => rfl
  | ok spot =>
    cases spot with
    | passed d => rfl
    | within name d slashed proper =>
      simp only [bind, Except.bind]
      cases f.get? (name :: d) with
      | none => rfl
      | some e => cases e <;> rfl

theorem removal_eq_ok {d : Location} {ls : List Location} (h : f.removal p = .ok (d, ls)) :
    d = p.locationFrom f.here ∧ ls = f.inner d ∧ d ≠ [] := by
  cases hf : f.follow p with
  | error e => simp [removal, hf, bind, Except.bind] at h
  | ok spot =>
    have hl := location_of_follow hf
    cases spot with
    | passed d' => simp [removal, hf, bind, Except.bind, throw, throwThe, MonadExceptOf.throw] at h
    | within name d' slashed proper =>
      simp only [removal, hf, bind, Except.bind] at h
      split at h
      · cases h
      · cases h
      · cases h
        exact ⟨hl, rfl, List.cons_ne_nil _ _⟩

theorem removal_congr (h : AgreeOutside (Inside · t) f g) (hp : p.Avoids f.here (Inside · t))
    (hinner : ∀ l, isBelow l (p.locationFrom f.here) = true → ¬Inside l t) :
    g.removal p = f.removal p := by
  unfold removal
  rw [follow_congr h hp]
  cases hf : f.follow p with
  | error e => rfl
  | ok spot =>
    cases spot with
    | passed d => rfl
    | within name d slashed proper =>
      have hl : name :: d = p.locationFrom f.here := location_of_follow hf
      rw [← hl] at hinner
      have hbelow (l : Location) (hb : isBelow l (name :: d) = true) : g.get? l = f.get? l :=
        h.get? l (hinner l hb)
      simp only [bind, Except.bind, hbelow _ (isBelow_refl _), inner_congr hbelow]

/-- What goes with a directory need not be removed before. -/
theorem removeBelow_removeBelow {l d : Location} (h : isBelow l d = true) :
    (f.removeBelow l).removeBelow d = f.removeBelow d := by
  refine eq_of_entries ?_ rfl
  simp only [removeBelow, List.filter_filter]
  refine List.filter_congr fun x _ => ?_
  cases hd : isBelow x.1 d with
  | true => rfl
  | false =>
    cases hl : isBelow x.1 l with
    | false => rfl
    | true => rw [isBelow_trans hl h] at hd; cases hd

theorem foldl_removeBelow {ls : List Location} {d : Location}
    (h : ∀ l ∈ ls, isBelow l d = true) :
    (ls.foldl removeBelow f).removeBelow d = f.removeBelow d := by
  induction ls generalizing f with
  | nil => rfl
  | cons l ls ih =>
    rw [List.forall_mem_cons] at h
    rw [List.foldl_cons, ih h.2, removeBelow_removeBelow h.1]

end Files

/-! ## Steps -/

namespace Action

variable {ε α : Type}

/-- An action whose failure is a result like others. -/
def attempt {δ : Type} (act : Action δ α) : Action ε (Except δ α) := fun f =>
  (.ok (act f).1, (act f).2)

/-- Empty the file at a path, or create it. A file that is there keeps its mode unless one is
given. What comes back is where it is, and its mode. -/
def create (p : Path) (mode : Option Bool) : Action FileError (Location × Bool) := fun f =>
  let executable := mode.getD ((f.executable? p).getD false)
  match f.create p executable with
  | .ok (l, g) => (.ok (l, executable), g)
  | .error e => (.error e, f)

def fill (l : Location) (content : Content) (executable : Bool) : Action ε Unit := fun f =>
  (.ok (), f.fill l content executable)

/-- Fill a file with what another one holds by then. -/
def transfer (source target : Location) (executable : Bool) : Action ε Unit := fun f =>
  match f.get? source with
  | some (.file content _) => (.ok (), f.fill target content executable)
  | _ => (.ok (), f)

/-- Remove what is at a location, where nothing lies below it any more. -/
def remove (l : Location) : Action ε Unit := fun f => (.ok (), f.removeBelow l)

end Action

/-- A file to be copied: where it is, and its mode. -/
def Files.source? (f : Files) (p : Path) : Except FileError (Location × Bool) := do
  match ← f.find? p with
  | (_, .directory) => throw .notAFile
  | (l, .file _ executable) => return (l, executable)

theorem Files.location_of_source? {f : Files} {p : Path} {x : Location × Bool}
    (h : f.source? p = .ok x) : x.1 = p.locationFrom f.here := by
  cases hfind : f.find? p with
  | error e =>
    rw [source?, hfind] at h
    cases h
  | ok found =>
    obtain ⟨l, e⟩ := found
    rw [source?, hfind] at h
    cases e with
    | directory => cases h
    | file content executable =>
      cases h
      exact (location_of_find? hfind).1

namespace Stepwise

/-- Write a file: create it, then fill it. -/
def write (p : Path) (content : Content) : Stepwise FileError Unit := do
  let (l, executable) ← once (Action.create p none)
  once (Action.fill l content executable)

/-- Copy a file: find it, create the copy, then fill it. -/
def copy (source target : Path) : Stepwise FileError Unit := do
  let (l, executable) ← once (Action.look (·.source? source))
  let (l', _) ← once (Action.create target (some executable))
  once (Action.transfer l l' executable)

/-- Create a directory, after those in front of it that are missing. -/
def createAll : List Path → Stepwise FileError Unit
  | [] => done (.error .notFound)
  | p :: parents =>
    if p.isEmpty then done (.ok ())
    else
      step (Action.attempt (Action.change (·.ensureDirectory p))) fun
        | .ok () => done (.ok ())
        | .error .notFound => do
          createAll parents
          once (Action.change (·.ensureDirectory p))
        | .error e => done (.error e)

def createDirectories (p : Path) : Stepwise FileError Unit := createAll p.ancestors

/-- Remove a directory: what lies inside one by one, then the directory. -/
def removeDirectory (p : Path) : Stepwise FileError Unit := do
  let (d, held) ← once (Action.look (·.removal p))
  held.forM fun l => once (Action.remove l)
  once (Action.remove d)

theorem run_write (p : Path) (content : Content) :
    (write p content).run = Action.change (·.write p content) := by
  funext f
  simp only [write, run_bind, run_once, Action.bind_apply, Action.change, Files.write, writeAs,
    Action.create, Option.getD_none]
  cases f.create p ((f.executable? p).getD false) with
  | error e => rfl
  | ok x => rfl

theorem run_copy (source target : Path) :
    (copy source target).run = Action.change (·.copy source target) := by
  funext f
  simp only [copy, run_bind, run_once, Action.bind_apply, Action.look, Action.change]
  cases hfind : f.find? source with
  | error e =>
    have hsource : f.source? source = .error e := by
      rw [source?, hfind]
      rfl
    have hcopy : f.copy source target = .error e := by
      rw [Files.copy, hfind]
      rfl
    rw [hsource, hcopy]
  | ok found =>
    obtain ⟨l, e⟩ := found
    cases e with
    | directory =>
      have hsource : f.source? source = .error .notAFile := by
        rw [source?, hfind]
        rfl
      have hcopy : f.copy source target = .error .notAFile := by
        rw [Files.copy, hfind]
        rfl
      rw [hsource, hcopy]
    | file content executable =>
      have hsource : f.source? source = .ok (l, executable) := by
        rw [source?, hfind]
        rfl
      have hcopy : f.copy source target = (f.create target executable).bind fun x =>
          match x.2.get? l with
          | some (.file content _) => .ok (x.2.fill x.1 content executable)
          | _ => .ok x.2 := by
        rw [Files.copy, hfind]
        rfl
      rw [hsource, hcopy]
      simp only [Action.create, Option.getD_some]
      cases f.create target executable with
      | error e => rfl
      | ok x =>
        simp only [Action.transfer, Except.bind]
        split <;> rfl

theorem run_createAll (ps : List Path) : (createAll ps).run = Action.createAll ps := by
  induction ps with
  | nil => rfl
  | cons p parents ih =>
    funext f
    unfold createAll Action.createAll
    split
    · rfl
    · simp only [run, Action.bind_apply, Action.attempt, Action.change]
      cases f.ensureDirectory p with
      | ok g => rfl
      | error e =>
        cases e with
        | notFound =>
          simp only [run_bind, run_once, Action.bind_apply, ih, Action.change]
          rcases Action.createAll parents f with ⟨e | x, g⟩ <;> rfl
        | _ => rfl

theorem run_createDirectories (p : Path) :
    (createDirectories p).run = Action.createDirectories p :=
  run_createAll p.ancestors

theorem run_removals (ls : List Location) (f : Files) :
    (ls.forM fun l => once (Action.remove l) : Stepwise FileError Unit).run f =
      (.ok (), ls.foldl removeBelow f) := by
  induction ls generalizing f with
  | nil => rfl
  | cons l ls ih => exact ih (f.removeBelow l)

theorem run_removeDirectory (p : Path) :
    (removeDirectory p).run = Action.change (·.removeDirectory p) := by
  funext f
  simp only [removeDirectory, run_bind, run_once, Action.bind_apply, Action.look, Action.change,
    removeDirectory_eq, run_removals]
  cases hr : f.removal p with
  | error e => rfl
  | ok x =>
    obtain ⟨d, ls⟩ := x
    obtain ⟨-, rfl, -⟩ := removal_eq_ok hr
    simp only [Action.remove, Except.map]
    rw [foldl_removeBelow fun l hl => (mem_inner_iff.1 hl).2.1]

end Stepwise
end LtiUnit
