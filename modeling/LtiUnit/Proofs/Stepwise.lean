import LtiUnit.Proofs.Ways

/-!
# LtiUnit.Proofs.Stepwise

Courses of actions that can be left off between their steps, so that others may act in the
meantime. `Stepwise.run` takes all steps at once.

A step is discreet if it changes nothing but what it may change, and looks at nothing that lies in
the directory of somebody else (`Action.Discreet`). A course is discreet if all its steps are,
whatever happens in between (`Stepwise.Discreet`).
-/

namespace LtiUnit

open LtiUnit.Files LtiUnit.Path
open Package (Inside inside_cons)

/-- A course of actions, step by step. -/
inductive Stepwise (ε α : Type) : Type 1 where
  | done (r : Except ε α)
  | step {β : Type} (act : Action ε β) (next : β → Stepwise ε α)

namespace Stepwise

variable {ε δ α β : Type}

def bind : Stepwise ε α → (α → Stepwise ε β) → Stepwise ε β
  | done (.ok x), k => k x
  | done (.error e), _ => done (.error e)
  | step act next, k => step act fun x => (next x).bind k

instance : Monad (Stepwise ε) where
  pure x := done (.ok x)
  bind := bind

/-- A course of one step. -/
def once (act : Action ε α) : Stepwise ε α := step act fun x => done (.ok x)

/-- A course that reports its errors in other words. -/
def wrap (w : δ → ε) : Stepwise δ α → Stepwise ε α
  | done r => done (r.mapError w)
  | step act next => step (act.wrap w) fun x => (next x).wrap w

/-- A course that nobody interferes with. -/
def run : Stepwise ε α → Action ε α
  | done r => fun f => (r, f)
  | step act next => act >>= fun x => (next x).run

theorem run_bind (c : Stepwise ε α) (k : α → Stepwise ε β) :
    (c >>= k).run = c.run >>= fun x => (k x).run := by
  induction c with
  | done r => cases r <;> rfl
  | step act next ih =>
    change (act >>= fun x => (next x >>= k).run) = (act >>= fun x => (next x).run) >>= _
    rw [bind_assoc]
    exact bind_congr fun x => ih x

theorem run_once (act : Action ε α) : (once act).run = act := bind_pure act

theorem run_wrap (w : δ → ε) (c : Stepwise δ α) : (c.wrap w).run = c.run.wrap w := by
  funext f
  induction c generalizing f with
  | done r => cases r <;> rfl
  | step act next ih =>
    simp only [wrap, run, Action.bind_apply, Action.wrap]
    rcases act f with ⟨e | x, g⟩
    · rfl
    · exact ih x g

theorem run_forM (act : α → Stepwise ε Unit) (xs : List α) :
    (xs.forM act).run = xs.forM fun x => (act x).run := by
  induction xs with
  | nil => rfl
  | cons x xs ih =>
    change (act x >>= fun _ => xs.forM act).run = (act x).run >>= fun _ => xs.forM _
    rw [run_bind]
    exact bind_congr fun _ => ih

end Stepwise

/-! ## Discretion -/

/-- What somebody may do who shares the files with others: change his own locations, and look at
all but the inside of the directories that belong to others. -/
structure Bounds where
  here : Location
  /-- What holds of the files whenever it is his turn. -/
  ready : Files → Prop
  own : Location → Prop
  others : Location → Prop
  apart : ∀ l t, own l → others t → ¬Inside l t

namespace Bounds

def Holds (b : Bounds) (f : Files) : Prop := f.here = b.here ∧ b.ready f

/-- Whether the way of a path keeps out of what belongs to others. -/
def Clear (b : Bounds) (p : Path) : Prop := ∀ t, b.others t → p.Avoids b.here (Inside · t)

/-- Whether a path leads to one of the own locations, and on a clear way. -/
structure Leads (b : Bounds) (p : Path) : Prop where
  clear : b.Clear p
  own : b.own (p.locationFrom b.here)

/-- Whether everything is allowed here that is allowed there. -/
structure Narrower (b b' : Bounds) : Prop where
  holds : ∀ f, b'.Holds f → b.Holds f
  own : ∀ l, b.own l → b'.own l
  others : ∀ t, b'.others t → b.others t

end Bounds

/-- Whether what lies inside a directory makes no difference to an action. -/
def Action.Overlooks {ε α : Type} (act : Action ε α) (f : Files) (t : Location) : Prop :=
  ∀ g, AgreeOutside (Inside · t) f g →
    (act g).1 = (act f).1 ∧ AgreeOutside (Inside · t) (act f).2 (act g).2

theorem Action.Overlooks.wrap {ε δ α : Type} {act : Action δ α} {f : Files} {t : Location}
    (h : act.Overlooks f t) (w : δ → ε) : (act.wrap w).Overlooks f t := by
  intro g hg
  obtain ⟨hresult, hagree⟩ := h g hg
  revert hresult hagree
  unfold Action.wrap
  rcases act f with ⟨e | x, f'⟩ <;> rcases act g with ⟨e' | x', g'⟩ <;>
    simp only [reduceCtorEq, false_implies, Except.ok.injEq, Except.error.injEq]
  · rintro rfl hagree
    exact ⟨rfl, hagree⟩
  · rintro rfl hagree
    exact ⟨rfl, hagree⟩

theorem Action.Overlooks.bind {ε α β : Type} {act : Action ε α} {k : α → Action ε β} {f : Files}
    {t : Location} (h : act.Overlooks f t) (hk : ∀ x, (k x).Overlooks (act f).2 t) :
    (act >>= k).Overlooks f t := by
  intro g hg
  obtain ⟨hresult, hagree⟩ := h g hg
  revert hk hresult hagree
  simp only [Action.bind_apply]
  rcases act f with ⟨e | x, f'⟩ <;> rcases act g with ⟨e' | x', g'⟩ <;>
    simp only [reduceCtorEq, false_implies, implies_true, Except.ok.injEq, Except.error.injEq]
  · rintro - rfl hagree
    exact ⟨rfl, hagree⟩
  · rintro hk rfl hagree
    exact hk _ g' hagree

theorem Action.Overlooks.look {ε α : Type} {q : Files → Except ε α} {f : Files} {t : Location}
    (h : ∀ g, AgreeOutside (Inside · t) f g → q g = q f) : (Action.look q).Overlooks f t :=
  fun g hg => ⟨h g hg, hg⟩

structure Action.Discreet {ε α : Type} (b : Bounds) (act : Action ε α) : Prop where
  keeps : ∀ f, b.Holds f → AgreeOutside b.own f (act f).2
  overlooks : ∀ f, b.Holds f → ∀ t, b.others t → act.Overlooks f t

namespace Action.Discreet

variable {ε δ α : Type} {b b' : Bounds} {act : Action ε α}

theorem mono (h : act.Discreet b) (hb : b.Narrower b') : act.Discreet b' where
  keeps f hf := (h.keeps f (hb.holds f hf)).mono hb.own
  overlooks f hf t ht := h.overlooks f (hb.holds f hf) t (hb.others t ht)

theorem wrap {act : Action δ α} (h : act.Discreet b) (w : δ → ε) : (act.wrap w).Discreet b where
  keeps f hf := by
    have hkeeps := h.keeps f hf
    revert hkeeps
    unfold Action.wrap
    rcases act f with ⟨e | x, g⟩ <;> exact id
  overlooks f hf t ht := (h.overlooks f hf t ht).wrap w

theorem look {q : Files → Except ε α}
    (h : ∀ f, b.Holds f → ∀ t, b.others t → ∀ g, AgreeOutside (Inside · t) f g → q g = q f) :
    (Action.look q).Discreet b where
  keeps f _ := .refl f
  overlooks f hf t ht := .look (h f hf t ht)

end Action.Discreet

namespace Stepwise

variable {ε δ α β : Type} {b b' : Bounds} {Q R : α → Prop}

/-- Whether all steps of a course are discreet, and what it comes to is as it should be. -/
inductive Discreet (b : Bounds) (Q : α → Prop) : Stepwise ε α → Prop where
  | ok {x : α} (result : Q x) : Discreet b Q (done (.ok x))
  | error {e : ε} : Discreet b Q (done (.error e))
  | step {β : Type} {act : Action ε β} {next : β → Stepwise ε α} (first : act.Discreet b)
    (rest : ∀ f x, b.Holds f → (act f).1 = .ok x → (next x).Discreet b Q) :
    Discreet b Q (step act next)

theorem Discreet.mono {c : Stepwise ε α} (h : c.Discreet b Q) (hb : b.Narrower b')
    (hQ : ∀ x, Q x → R x) : c.Discreet b' R := by
  induction h with
  | ok result => exact .ok (hQ _ result)
  | error => exact .error
  | step first _ ih => exact .step (first.mono hb) fun f x hf hx => ih f x (hb.holds f hf) hx

theorem discreet_once {act : Action ε α} (h : act.Discreet b)
    (hQ : ∀ f x, b.Holds f → (act f).1 = .ok x → Q x) : (once act).Discreet b Q :=
  .step h fun f x hf hx => .ok (hQ f x hf hx)

theorem discreet_bind {c : Stepwise ε α} {k : α → Stepwise ε β} {Q : β → Prop}
    (h : c.Discreet b R) (hk : ∀ x, R x → (k x).Discreet b Q) : (c >>= k).Discreet b Q := by
  induction h with
  | ok result => exact hk _ result
  | error => exact .error
  | step first _ ih => exact .step first ih

theorem discreet_wrap {c : Stepwise δ α} (h : c.Discreet b Q) (w : δ → ε) :
    (c.wrap w).Discreet b Q := by
  induction h with
  | ok result => exact .ok result
  | error => exact .error
  | @step _ act next first _ ih =>
    refine .step (first.wrap w) fun f x hf hx => ih f x hf ?_
    revert hx
    unfold Action.wrap
    rcases act f with ⟨e | y, g⟩
    · exact nofun
    · rintro ⟨⟩
      rfl

theorem discreet_forM {act : α → Stepwise ε Unit} {xs : List α}
    (h : ∀ x ∈ xs, (act x).Discreet b fun _ => True) :
    (xs.forM act).Discreet b fun _ => True := by
  induction xs with
  | nil => exact .ok trivial
  | cons x xs ih =>
    exact discreet_bind (h x (List.mem_cons_self ..)) fun _ _ =>
      ih fun y hy => h y (List.mem_cons_of_mem _ hy)

end Stepwise
end LtiUnit
