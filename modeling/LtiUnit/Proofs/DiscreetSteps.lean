import LtiUnit.Proofs.ElementarySteps

/-!
# LtiUnit.Proofs.DiscreetSteps

When the steps of the elementary courses are discreet: the paths have to keep clear of what belongs
to others, and what is changed has to be one's own.
-/

namespace LtiUnit

open LtiUnit.Files LtiUnit.Path
open Package (Inside)

/-! ## Single steps -/

namespace Action

variable {ε α : Type} {b : Bounds} {f : Files} {t : Location} {p q : Path} {l l' : Location}

theorem Discreet.attempt {δ : Type} {act : Action δ α} (h : act.Discreet b) :
    (act.attempt : Action ε (Except δ α)).Discreet b where
  keeps := h.keeps
  overlooks f hf t ht g hg := by
    obtain ⟨hresult, hagree⟩ := h.overlooks f hf t ht g hg
    exact ⟨congrArg Except.ok hresult, hagree⟩

theorem overlooks_change {change : Files → Except FileError Files}
    (h : ∀ g, AgreeOutside (Inside · t) f g → AgreeResult (Inside · t) (change f) (change g)) :
    (Action.change change).Overlooks f t := by
  intro g hg
  have hresult := h g hg
  unfold Action.change
  cases hf : change f with
  | error e =>
    cases hg' : change g with
    | error e' =>
      rw [hf, hg'] at hresult
      cases hresult
      exact ⟨rfl, hg⟩
    | ok g' =>
      rw [hf, hg'] at hresult
      exact hresult.elim
  | ok f' =>
    cases hg' : change g with
    | error e' =>
      rw [hf, hg'] at hresult
      exact hresult.elim
    | ok g' =>
      rw [hf, hg'] at hresult
      exact ⟨rfl, hresult⟩

theorem discreet_change {change : Files → Except FileError Files}
    (hown : ∀ f g, b.Holds f → change f = .ok g → AgreeOutside b.own f g)
    (hothers : ∀ f, b.Holds f → ∀ t, b.others t → (Action.change change).Overlooks f t) :
    (Action.change change).Discreet b where
  keeps f hf := by
    unfold Action.change
    cases h : change f with
    | error e => exact .refl f
    | ok g => exact hown f g hf h
  overlooks := hothers

theorem overlooks_ensureDirectory (hp : p.Avoids f.here (Inside · t)) :
    (Action.change (·.ensureDirectory p)).Overlooks f t :=
  overlooks_change fun _ hg => ensureDirectory_congr hg hp

theorem discreet_ensureDirectory (hp : b.Leads p) :
    (Action.change (·.ensureDirectory p)).Discreet b := by
  refine discreet_change (fun f g hf h => ?_) fun f hf t ht =>
    overlooks_ensureDirectory (hf.1 ▸ hp.clear t ht)
  refine (ensureDirectory_eq_ok h).mono ?_
  rintro _ rfl
  exact hf.1 ▸ hp.own

theorem overlooks_create (hp : p.Avoids f.here (Inside · t)) (mode : Option Bool) :
    (Action.create p mode).Overlooks f t := by
  intro g h
  have hmode : g.executable? p = f.executable? p := by
    rw [executable?, executable?, find?_congr h hp]
  unfold Action.create Files.create
  rw [follow_congr h hp, hmode]
  cases hf : f.follow p with
  | error e => exact ⟨rfl, h⟩
  | ok spot =>
    cases spot with
    | passed d => exact ⟨rfl, h⟩
    | within name d slashed proper =>
      cases slashed with
      | true => exact ⟨rfl, h⟩
      | false =>
        have hl : ¬Inside (name :: d) t := by
          have hlocation := location_of_follow hf
          rw [Spot.location] at hlocation
          exact hlocation ▸ hp.location
        have hget := h.get? _ hl
        have hget' := h.get? _ (not_inside_tail hl)
        simp only [bind, Except.bind]
        by_cases hwithin : f.get? d = some .directory
        · by_cases hfree : f.get? (name :: d) ≠ some .directory
          · rw [dif_pos hwithin, dif_pos hfree, dif_pos (hget'.trans hwithin),
              dif_pos (hget ▸ hfree)]
            exact ⟨rfl, setFile_congr h proper hwithin hfree (hget'.trans hwithin) (hget ▸ hfree)⟩
          · rw [dif_pos hwithin, dif_neg hfree, dif_pos (hget'.trans hwithin),
              dif_neg (hget ▸ hfree)]
            exact ⟨rfl, h⟩
        · rw [dif_neg hwithin, dif_neg (hget' ▸ hwithin)]
          exact ⟨rfl, h⟩

/-- A file is created where the path leads. -/
theorem create_action_eq_ok {mode : Option Bool} {x : Location × Bool} {g : Files}
    (h : Action.create p mode f = (.ok x, g)) :
    x.1 = p.locationFrom f.here ∧ AgreeOutside (· = x.1) f g ∧
      ∃ content, g.get? x.1 = some (.file content x.2) := by
  unfold Action.create at h
  simp only at h
  split at h
  · rename_i l f' hc
    cases h
    obtain ⟨hl, -, hagree, hthere⟩ := create_eq_ok hc
    exact ⟨hl, hagree, hthere⟩
  · cases h

theorem discreet_create (hp : b.Leads p) (mode : Option Bool) :
    (Action.create p mode).Discreet b where
  keeps f hf := by
    rcases h : Action.create p mode f with ⟨e | x, g⟩
    · unfold Action.create at h
      simp only at h
      split at h
      · cases h
      · cases h
        exact .refl f
    · obtain ⟨hl, hagree, -⟩ := create_action_eq_ok h
      refine hagree.mono ?_
      rintro _ rfl
      rw [hl, hf.1]
      exact hp.own
  overlooks f hf t ht := overlooks_create (hf.1 ▸ hp.clear t ht) mode

theorem location_of_create {mode : Option Bool} {x : Location × Bool}
    (h : (Action.create p mode f).1 = .ok x) : x.1 = p.locationFrom f.here :=
  (create_action_eq_ok (g := (Action.create p mode f).2) (Prod.ext h rfl)).1

theorem discreet_fill (hl : b.own l) (content : Content) (executable : Bool) :
    (Action.fill l content executable : Action ε Unit).Discreet b where
  keeps f _ := (agree_fill f l content executable).mono fun _ h => h ▸ hl
  overlooks _ _ t ht _ hg := ⟨rfl, fill_congr hg (b.apart l t hl ht) content executable⟩

theorem discreet_transfer (hl : ∀ t, b.others t → ¬Inside l t) (hl' : b.own l')
    (executable : Bool) : (Action.transfer l l' executable : Action ε Unit).Discreet b where
  keeps f hf := by
    unfold Action.transfer
    split
    · exact (agree_fill f l' _ executable).mono fun _ h => h ▸ hl'
    · exact .refl f
  overlooks f hf t ht g hg := by
    unfold Action.transfer
    rw [hg.get? l (hl t ht)]
    split
    · exact ⟨rfl, fill_congr hg (b.apart l' t hl' ht) _ executable⟩
    · exact ⟨rfl, hg⟩

theorem discreet_remove (hl : ∀ k, isBelow k l = true → b.own k) (hne : l ≠ []) :
    (Action.remove l : Action ε Unit).Discreet b where
  keeps f _ := (agree_removeBelow f hne).mono hl
  overlooks _ _ _ _ _ hg := ⟨rfl, removeBelow_congr hg hne⟩

theorem discreet_move (hp : b.Leads p) (hq : b.Leads q) :
    (Action.change (·.move p q)).Discreet b := by
  refine discreet_change (fun f g hf h => ?_) fun f hf t ht =>
    overlooks_change fun g hg => move_congr hg (hf.1 ▸ hp.clear t ht) (hf.1 ▸ hq.clear t ht)
  obtain ⟨_, _, name, d, _, -, hfollow, -, -, hagree⟩ := move_eq_ok h
  have hl : name :: d = q.locationFrom f.here := location_of_follow hfollow
  refine hagree.mono ?_
  rintro _ (rfl | rfl)
  · exact hf.1 ▸ hp.own
  · rw [hl, hf.1]
    exact hq.own

theorem discreet_isFile (hp : b.Clear p) :
    (Action.look fun f => .ok (f.isFile p) : Action ε Bool).Discreet b :=
  .look fun _ hf t ht _ hg => by rw [isFile_congr hg (hf.1 ▸ hp t ht)]

end Action

/-! ## Courses -/

namespace Stepwise

open LtiUnit.Action

variable {b : Bounds} {p q : Path}

theorem discreet_write (hp : b.Leads p) (content : Content) :
    (write p content).Discreet b fun _ => True := by
  refine discreet_bind (R := fun x => x.1 = p.locationFrom b.here)
    (discreet_once (discreet_create hp none) fun f x hf hx => ?_) ?_
  · rw [location_of_create hx, hf.1]
  rintro ⟨_, executable⟩ rfl
  exact discreet_once (discreet_fill hp.own content executable) fun _ _ _ _ => trivial

theorem discreet_copy (hp : b.Clear p) (hq : b.Leads q) :
    (copy p q).Discreet b fun _ => True := by
  refine discreet_bind (R := fun x => x.1 = p.locationFrom b.here)
    (discreet_once (.look fun f hf t ht g hg => ?_) fun f x hf hx => ?_) ?_
  · rw [source?, source?, find?_congr hg (hf.1 ▸ hp t ht)]
  · rw [location_of_source? hx, hf.1]
  rintro ⟨_, executable⟩ rfl
  refine discreet_bind (R := fun x => x.1 = q.locationFrom b.here)
    (discreet_once (discreet_create hq (some executable)) fun f x hf hx => ?_) ?_
  · rw [location_of_create hx, hf.1]
  rintro ⟨_, _⟩ rfl
  exact discreet_once (discreet_transfer (fun t ht => (hp t ht).location) hq.own executable)
    fun _ _ _ _ => trivial

/-- Directories are created without leaving what is one's own, if they lie in one that is there. -/
theorem discreet_createAll {inner parents : List Path} (hinner : ∀ q ∈ inner, b.Leads q)
    (hp : b.Clear p) (hthere : ∀ f, b.Holds f → f.ensureDirectory p = .ok f) :
    (createAll (inner ++ p :: parents)).Discreet b fun _ => True := by
  induction inner with
  | nil =>
    rw [List.nil_append, createAll]
    split
    · exact .ok trivial
    · have hensure : (Action.change (·.ensureDirectory p)).Discreet b := by
        refine discreet_change (fun f g hf h => ?_) fun f hf t ht =>
          overlooks_ensureDirectory (hf.1 ▸ hp t ht)
        rw [hthere f hf] at h
        cases h
        exact .refl f
      refine .step hensure.attempt fun f x hf hx => ?_
      simp only [attempt, Action.change, hthere f hf] at hx
      cases hx
      exact .ok trivial
  | cons q inner ih =>
    rw [List.forall_mem_cons] at hinner
    have hensure := discreet_ensureDirectory hinner.1
    rw [List.cons_append, createAll]
    split
    · exact .ok trivial
    · refine .step hensure.attempt fun f x hf hx => ?_
      cases x with
      | ok _ => exact .ok trivial
      | error e =>
        cases e with
        | notFound =>
          exact discreet_bind (ih hinner.2) fun _ _ => discreet_once hensure fun _ _ _ _ => trivial
        | _ => exact .error

theorem discreet_removeDirectory (hp : b.Clear p)
    (hown : ∀ l, isBelow l (p.locationFrom b.here) = true → b.own l) :
    (removeDirectory p).Discreet b fun _ => True := by
  refine discreet_bind (R := fun x => x.1 = p.locationFrom b.here ∧ x.1 ≠ [] ∧
    ∀ l ∈ x.2, Inside l (p.locationFrom b.here))
    (discreet_once (.look fun f hf t ht g hg => ?_) fun f x hf hx => ?_) ?_
  · exact removal_congr hg (hf.1 ▸ hp t ht) fun l hl => b.apart l t (hown l (hf.1 ▸ hl)) ht
  · obtain ⟨hd, hinner, hne⟩ := removal_eq_ok hx
    rw [hf.1] at hd
    refine ⟨hd, hne, fun l hl => ?_⟩
    rw [hinner] at hl
    exact hd ▸ (mem_inner_iff.1 hl).2
  rintro ⟨_, ls⟩ ⟨rfl, hne, hinner⟩
  refine discreet_bind (R := fun _ => True) (discreet_forM fun l hl => ?_) fun _ _ => ?_
  · refine discreet_once (discreet_remove (fun k hk => ?_) (hinner l hl).ne_nil)
      fun _ _ _ _ => trivial
    exact hown k (isBelow_trans hk (hinner l hl).1)
  · exact discreet_once (discreet_remove hown hne) fun _ _ _ _ => trivial

end Stepwise
end LtiUnit
