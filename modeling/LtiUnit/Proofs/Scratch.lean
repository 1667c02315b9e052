import LtiUnit.Package.Scratch
import LtiUnit.Proofs.Destination
import LtiUnit.Proofs.Effect
import LtiUnit.Proofs.Triple

/-!
# LtiUnit.Proofs.Scratch

Work in a scratch directory. From the moment the directory is there until it is removed, the files
differ from those at the start below it only (`Working`). Every change to a path that leads below it
keeps this, whether the change succeeds or fails (`Stays`), and so does the creation of directories
that go down from it by names (`Descends.stays_createDirectories`).
-/

namespace LtiUnit

namespace Files

open LtiUnit.Path

/-- Nothing is created on the way to a directory that is there. -/
theorem createDirectory_ne_ok {f : Files} {p q : Path} {d : Location}
    (h : f.find? p = .ok (d, .directory))
    (hq : q ∈ p.ancestors) (g : Files) : f.createDirectory q ≠ .ok g := by
  intro hcreate
  obtain ⟨last, e, _, proper, hfollow, hnew, -⟩ := createDirectory_eq_ok hcreate
  obtain ⟨-, -, before, k, d0, hseg, hstart, hbefore, -⟩ := follow_eq_within_iff.1 hfollow
  obtain ⟨d0', hstart', hwalk⟩ := walk_of_find? h
  obtain ⟨⟨more, hsteps⟩, habs⟩ := steps_of_mem_ancestors hq
  have hsame : d0' = d0 := by
    rw [start_eq_ok hstart', start_eq_ok hstart, habs]
  subst hsame
  obtain ⟨d', hd'⟩ : ∃ d', f.walk d0' q.segments = .ok d' := by
    rw [← walk_filter, ← steps, ← hsteps, walk, List.foldlM_append] at hwalk
    cases hway : q.steps.foldlM f.step d0' with
    | error e =>
      rw [hway] at hwalk
      cases hwalk
    | ok d' => exact ⟨d', by rw [← walk_filter]; exact hway⟩
  rw [hseg, walk_before k hbefore] at hd'
  obtain ⟨-, hcase⟩ := step_eq_ok_iff.1 hd'
  rcases hcase with (hidle | hup) | ⟨-, hdir⟩
  · rw [isIdle_of_isFileName proper] at hidle
    cases hidle
  · exact (isFileName_iff.1 proper).2.2.1 hup
  · rw [hnew] at hdir
    cases hdir

end Files

namespace Package

open LtiUnit.Files LtiUnit.Path LtiUnit.Action

/-! ## Working in a scratch directory -/

/-- Whether a location lies below another one, and is not the same. -/
def Inside (l s : Location) : Prop := isBelow l s = true ∧ l ≠ s

theorem inside_cons {l s : Location} (h : isBelow l s = true) (name : String) :
    Inside (name :: l) s := by
  refine ⟨isBelow_cons name h, ?_⟩
  rintro rfl
  have := (isBelow_iff.1 h).length_le
  simp only [List.length_cons] at this
  omega

theorem Inside.below {l m s : Location} (h : Inside m s) (hl : isBelow l m = true) :
    Inside l s := by
  refine ⟨isBelow_trans hl h.1, ?_⟩
  rintro rfl
  have hlen := (isBelow_iff.1 hl).length_le
  exact h.2 ((isBelow_iff.1 h.1).eq_of_length (by
    have := (isBelow_iff.1 h.1).length_le
    omega)).symm

/-- The files during a build that has started with `f₀` and works at `s`. -/
structure Working (f₀ : Files) (s : Location) (f : Files) : Prop where
  agree : AgreeOutside (fun l => isBelow l s = true) f₀ f
  there : f.get? s = some .directory

variable {f₀ f g : Files} {s : Location} {ε : Type}

theorem Working.change {dirty : Location → Prop} (hf : Working f₀ s f)
    (hg : AgreeOutside dirty f g) (hd : ∀ l, dirty l → Inside l s) : Working f₀ s g where
  agree := hf.agree.trans (hg.mono fun l hl => (hd l hl).1)
  there := by rw [hg.get? s fun hs => (hd s hs).2 rfl, hf.there]

theorem Working.keeps (hf : Working f₀ s f) (hnew : f₀.get? s = none) : Keeps f₀ f :=
  hf.agree.keeps fun d hb hd => by
    rw [f₀.get?_eq_none_of_new hnew hb] at hd
    cases hd

/-- A course of actions that works below `s` only, whether it succeeds or fails. -/
def Stays {α : Type} (f₀ : Files) (s : Location) (act : Action ε α) : Prop :=
  ∀ f, Working f₀ s f → Working f₀ s (act f).2

theorem stays_iff_triple {α : Type} {act : Action ε α} :
    Stays f₀ s act ↔
      Triple (Working f₀ s) act (fun _ => Working f₀ s) (Working f₀ s) := by
  refine forall_congr' fun f => forall_congr' fun _ => ?_
  rcases act f with ⟨e | x, g⟩ <;> rfl

theorem stays_change {g : Files → Except ε Files} (dirty : Location → Prop)
    (h : ∀ f f', f.here = f₀.here → g f = .ok f' → AgreeOutside dirty f f')
    (hd : ∀ l, dirty l → Inside l s) : Stays f₀ s (Action.change g) :=
  stays_iff_triple.2 (triple_change (fun f f' hf hg => hf.change (h f f' hf.agree.here hg) hd)
    fun _ => id)

theorem stays_look {α : Type} {g : Files → Except ε α} : Stays f₀ s (look g) := fun _ => id

theorem stays_throw {α : Type} {e : ε} : Stays f₀ s (throw e : Action ε α) := fun _ => id

theorem stays_bind {α β : Type} {act : Action ε α} {next : α → Action ε β} (h : Stays f₀ s act)
    (hnext : ∀ x, Stays f₀ s (next x)) : Stays f₀ s (act >>= next) :=
  stays_iff_triple.2 (triple_bind (stays_iff_triple.1 h) fun x => stays_iff_triple.1 (hnext x))

theorem stays_wrap {α δ : Type} {act : Action δ α} {g : δ → ε} (h : Stays f₀ s act) :
    Stays f₀ s (wrap g act) :=
  stays_iff_triple.2 (triple_wrap (stays_iff_triple.1 h))

/-- Whether a path leads below `s`. -/
def LeadsInside (f₀ : Files) (s : Location) (p : Path) : Prop := Inside (p.locationFrom f₀.here) s

/-- A change at the end of a path that leads below `s`. -/
theorem Working.change_at {p : Path} (hp : LeadsInside f₀ s p) (hf : Working f₀ s f)
    (hg : AgreeOutside (· = p.locationFrom f.here) f g) : Working f₀ s g := by
  refine hf.change hg ?_
  rintro l rfl
  rw [hf.agree.here]
  exact hp

theorem stays_change_at {p : Path} (hp : LeadsInside f₀ s p) {g : Files → Except ε Files}
    (h : ∀ f f', g f = .ok f' → AgreeOutside (· = p.locationFrom f.here) f f') :
    Stays f₀ s (Action.change g) :=
  stays_iff_triple.2
    (triple_change (fun f f' hf hg => hf.change_at hp (h f f' hg)) fun _ => id)

theorem stays_ensureDirectory {p : Path} (hp : LeadsInside f₀ s p) :
    Stays f₀ s (Action.change (·.ensureDirectory p)) :=
  stays_change_at hp fun _ _ h => ensureDirectory_eq_ok h

/-! ## Changes below the scratch directory that may fail -/

section Changes

variable (faults : Faults)

theorem stays_perform {c : Change} (hmake : Stays f₀ s c.make)
    (hfail : ∀ f g, Working f₀ s f → c.MayLeave f g → Working f₀ s g) :
    Stays f₀ s (perform faults c) :=
  stays_iff_triple.2 (triple_perform faults (stays_iff_triple.1 hmake) hfail)

theorem stays_write {p : Path} (hp : LeadsInside f₀ s p) (content : Content) :
    Stays f₀ s (perform faults (.write p content)) := by
  refine stays_perform faults (c := .write p content)
    (stays_change_at (g := (·.write p content)) hp fun _ _ h => (write_eq_ok h).agree) ?_
  intro f g hf hleft
  cases hleft with
  | unchanged => exact hf
  | written hw => exact hf.change_at hp (write_eq_ok hw).agree

theorem stays_copy {p : Path} (hp : LeadsInside f₀ s p) (source : Path) :
    Stays f₀ s (perform faults (.copy source p)) := by
  refine stays_perform faults (c := .copy source p)
    (stays_change_at (g := (·.copy source p)) hp fun _ _ h => ?_) ?_
  · obtain ⟨_, hput⟩ := copy_eq_ok h
    exact hput.agree
  · intro f g hf hleft
    cases hleft with
    | unchanged => exact hf
    | copied hw => exact hf.change_at hp (writeAs_eq_ok hw).agree

theorem Working.removeBelow {l d : Location} (hf : Working f₀ s f) (hd : Inside d s)
    (hl : isBelow l d = true) : Working f₀ s (f.removeBelow l) := by
  have hinside := hd.below hl
  refine hf.change (agree_removeBelow f ?_) fun k hk => hinside.below hk
  rintro rfl
  exact hinside.2 (List.suffix_nil.1 (isBelow_iff.1 hinside.1)).symm

theorem stays_removeDirectory {p : Path} (hp : LeadsInside f₀ s p) :
    Stays f₀ s (perform faults (.removeDirectory p)) := by
  refine stays_perform faults (c := .removeDirectory p) ?_ ?_
  · refine stays_change (g := (·.removeDirectory p))
      (fun l => isBelow l (p.locationFrom f₀.here) = true)
      (fun f f' hhere hw => ?_) fun l hl => hp.below hl
    rw [← hhere]
    exact removeDirectory_eq_ok hw
  · -- By induction on how much is gone already.
    intro f g hf hleft
    generalize hc : Change.removeDirectory p = c at hleft
    induction hleft with
    | unchanged => exact hf
    | removed hdir hl _ ih =>
      cases hc
      have hd := location_of_directory? hdir
      rw [hf.agree.here] at hd
      exact ih (hf.removeBelow (hd ▸ hp) hl) rfl
    | created => cases hc
    | written => cases hc
    | copied => cases hc

theorem stays_move {source target : Path} (hsource : LeadsInside f₀ s source)
    (htarget : LeadsInside f₀ s target) :
    Stays f₀ s (perform faults (.move source target)) := by
  refine stays_perform faults (c := .move source target) ?_ ?_
  · refine stays_change (g := (·.move source target))
      (fun l => l = source.locationFrom f₀.here ∨ l = target.locationFrom f₀.here)
      (fun f f' hhere hw => ?_) (fun l hl => hl.elim (fun h => h ▸ hsource) fun h => h ▸ htarget)
    obtain ⟨_, _, name, d, _, -, hfollow, -, -, hagree⟩ := move_eq_ok hw
    have := location_of_follow hfollow
    rw [← hhere, ← this]
    exact hagree
  · intro f g hf hleft
    cases hleft with
    | unchanged => exact hf

end Changes

/-! ## The scratch directory -/

/-- A path at which a scratch directory can be created. -/
structure ScratchAt (f₀ : Files) (p : Path) (s : Location) : Prop where
  new : f₀.get? s = none
  named : p.EndsInName
  follow : ∃ name d slashed proper,
    s = name :: d ∧ f₀.follow p = .ok (.within name d slashed proper)

namespace ScratchAt

variable {p : Path}

theorem location (h : ScratchAt f₀ p s) : p.locationFrom f₀.here = s := by
  obtain ⟨name, d, slashed, proper, rfl, hf⟩ := h.follow
  exact (location_of_follow hf).symm

theorem ensureDirectory (h : ScratchAt f₀ p s) (hf : Working f₀ s f) :
    f.ensureDirectory p = .ok f := by
  obtain ⟨name, d, slashed, proper, rfl, hfollow⟩ := h.follow
  exact ensureDirectory_of_directory ((hf.keeps h.new).follow hfollow) hf.there

theorem removeDirectory (h : ScratchAt f₀ p s) (hk : Keeps f₀ f)
    (hthere : f.get? s = some .directory) : f.removeDirectory p = .ok (f.removeBelow s) := by
  obtain ⟨name, d, slashed, proper, rfl, hfollow⟩ := h.follow
  exact removeDirectory_of_directory (hk.follow hfollow) hthere

theorem find? (h : ScratchAt f₀ p s) (hf : Working f₀ s f) : f.find? p = .ok (s, .directory) := by
  obtain ⟨name, d, slashed, proper, rfl, hfollow⟩ := h.follow
  exact find?_of_directory ((hf.keeps h.new).follow hfollow) hf.there

/-- Directories below a scratch directory are created without leaving it. -/
theorem stays_createAll (h : ScratchAt f₀ p s) {inner parents : List Path}
    (hinner : ∀ q ∈ inner, LeadsInside f₀ s q) :
    Stays f₀ s (createAll (inner ++ p :: parents)) := by
  induction inner with
  | nil =>
    intro f hf
    rw [List.nil_append, createAll]
    split
    · exact hf
    · simp only [h.ensureDirectory hf]
      exact hf
  | cons q inner ih =>
    have hrest := ih fun q' hq' => hinner q' (List.mem_cons_of_mem _ hq')
    have hensure := stays_ensureDirectory (hinner q (List.mem_cons_self ..))
    intro f hf
    rw [List.cons_append, createAll]
    split
    · exact hf
    · have hchange := hensure f hf
      simp only [Action.change] at hchange ⊢
      split
      · rename_i g hg
        rw [hg] at hchange
        exact hchange
      · have hparents := hrest f hf
        split
        · rename_i g hg
          rw [hg] at hparents
          exact hensure g hparents
        · rename_i e g hg
          rw [hg] at hparents
          exact hparents
      · exact hf

end ScratchAt

/-- A path that goes down from another one by names. -/
inductive Descends (p : Path) : Path → Prop where
  | self : Descends p p
  | child {q : Path} {name : String} : Descends p q → isFileName name = true →
    Descends p (q.child name)

namespace Descends

variable {p q : Path}

theorem isBelow_location (hq : Descends p q) (h : ScratchAt f₀ p s) :
    isBelow (q.locationFrom f₀.here) s = true := by
  induction hq with
  | self =>
    rw [h.location]
    exact isBelow_refl s
  | child _ hname ih =>
    rw [locationFrom_child hname]
    exact isBelow_cons _ ih

theorem leadsInside (hq : Descends p q) (h : ScratchAt f₀ p s) {name : String}
    (hname : isFileName name = true) : LeadsInside f₀ s (q.child name) := by
  rw [LeadsInside, locationFrom_child hname]
  exact inside_cons (hq.isBelow_location h) name

theorem trans {r : Path} (hq : Descends p q) (hr : Descends q r) : Descends p r := by
  induction hr with
  | self => exact hq
  | child _ hname ih => exact ih.child hname

theorem endsInName (hq : Descends p q) (hp : p.EndsInName) : q.EndsInName := by
  cases hq with
  | self => exact hp
  | child _ hname => exact endsInName_child _ hname

/-- On the way up to `p` lie paths that go down from it. -/
theorem ancestors (hq : Descends p q) (hp : p.EndsInName) :
    ∃ inner, q.ancestors = inner ++ p.ancestors ∧
      ∀ q' ∈ inner, ∃ d name, Descends p d ∧ isFileName name = true ∧ q' = d.child name := by
  induction hq with
  | self => exact ⟨[], rfl, by simp⟩
  | child hq hname ih =>
    rename_i q name
    obtain ⟨inner, heq, hinner⟩ := ih
    refine ⟨q.child name :: inner, ?_, ?_⟩
    · rw [ancestors_child (hq.endsInName hp) hname, heq]
      rfl
    · intro q' hq'
      rcases List.mem_cons.1 hq' with rfl | hq'
      · exact ⟨q, name, hq, hname, rfl⟩
      · exact hinner q' hq'

theorem stays_createDirectories (faults : Faults) (hq : Descends p q) (h : ScratchAt f₀ p s) :
    Stays f₀ s (perform faults (.createDirectories q)) := by
  obtain ⟨inner, heq, hinner⟩ := hq.ancestors h.named
  have hinside : ∀ q' ∈ inner, LeadsInside f₀ s q' := by
    intro q' hq'
    obtain ⟨d, name, hd, hname, rfl⟩ := hinner q' hq'
    exact hd.leadsInside h hname
  refine stays_perform faults (c := .createDirectories q) ?_ ?_
  · obtain ⟨parents, hparents⟩ := ancestors_eq_cons p
    rw [hparents] at heq
    rw [Change.make, createDirectories, heq]
    exact h.stays_createAll hinside
  · -- By induction on how much is there already.
    intro f g hf hleft
    generalize hc : Change.createDirectories q = c at hleft
    induction hleft with
    | unchanged => exact hf
    | created hmem hcreate _ ih =>
      cases hc
      rw [heq] at hmem
      rcases List.mem_append.1 hmem with hmem | hmem
      · obtain ⟨_, _, _, _, hfollow, -, hagree, -⟩ := createDirectory_eq_ok hcreate
        refine ih (hf.change_at (hinside _ hmem) ?_) rfl
        rw [← location_of_follow hfollow]
        exact hagree
      · exact absurd hcreate (createDirectory_ne_ok (h.find? hf) hmem _)
    | written => cases hc
    | copied => cases hc
    | removed => cases hc

end Descends

end Package
end LtiUnit
