import LtiUnit.Files.Fault

/-!
# LtiUnit.Proofs.Triple

Triples for courses of actions. A course that fails half-way keeps what it has done by then, so what
failures leave behind has a condition of its own.
-/

namespace LtiUnit
namespace Action

/-- Started where `P` holds, the course leaves `Q` of its result if it succeeds, and `E` if it
fails. -/
def Triple {ε α : Type} (P : Files → Prop) (act : Action ε α) (Q : α → Files → Prop)
    (E : Files → Prop) : Prop :=
  ∀ f, P f → match act f with
    | (.ok x, g) => Q x g
    | (.error _, g) => E g

variable {ε δ α β : Type} {P E E' : Files → Prop} {Q Q' : α → Files → Prop} {act : Action ε α}

theorem Triple.mono (h : Triple P act Q E) {P' : Files → Prop} (hP : ∀ f, P' f → P f)
    (hQ : ∀ x f, Q x f → Q' x f) (hE : ∀ f, E f → E' f) : Triple P' act Q' E' := by
  intro f hf
  have := h f (hP f hf)
  revert this
  rcases act f with ⟨e | x, g⟩
  · exact hE g
  · exact hQ x g

theorem Triple.of_ok (h : Triple P act Q E) {f g : Files} {x : α} (hf : P f)
    (hact : act f = (.ok x, g)) : Q x g := by
  have hleft := h f hf
  rwa [hact] at hleft

theorem Triple.of_error (h : Triple P act Q E) {f g : Files} {e : ε} (hf : P f)
    (hact : act f = (.error e, g)) : E g := by
  have hleft := h f hf
  rwa [hact] at hleft

/-- What does not depend on the files can be taken for granted. -/
theorem triple_of_fact {fact : Prop} (h : fact → Triple P act Q E) :
    Triple (fun f => P f ∧ fact) act Q E :=
  fun f hf => h hf.2 f hf.1

theorem triple_pure {x : α} (h : ∀ f, P f → Q x f) :
    Triple P (pure x : Action ε α) Q E := h

theorem bind_apply (act : Action ε α) (next : α → Action ε β) (f : Files) :
    (act >>= next) f = match act f with
      | (.ok x, g) => next x g
      | (.error e, g) => (.error e, g) := by
  change ExceptT.bindCont next (act f).1 (act f).2 = _
  rcases act f with ⟨e | x, g⟩ <;> rfl

theorem triple_bind {R : α → Files → Prop} {Q : β → Files → Prop} {next : α → Action ε β}
    (h : Triple P act R E) (hnext : ∀ x, Triple (R x) (next x) Q E) :
    Triple P (act >>= next) Q E := by
  intro f hf
  have hact := h f hf
  rw [bind_apply]
  revert hact
  rcases act f with ⟨e | x, g⟩
  · exact id
  · exact hnext x g

theorem triple_look {g : Files → Except ε α} (hok : ∀ f x, P f → g f = .ok x → Q x f)
    (herror : ∀ f, P f → E f) : Triple P (look g) Q E := by
  intro f hf
  change match (g f, f) with
    | (.ok x, g) => Q x g
    | (.error _, g) => E g
  cases hg : g f with
  | error e => exact herror f hf
  | ok x => exact hok f x hf hg

theorem triple_change {g : Files → Except ε Files} {Q : Unit → Files → Prop}
    (hok : ∀ f f', P f → g f = .ok f' → Q () f') (herror : ∀ f, P f → E f) :
    Triple P (change g) Q E := by
  intro f hf
  cases hg : g f with
  | error e =>
    simp only [change, hg]
    exact herror f hf
  | ok f' =>
    simp only [change, hg]
    exact hok f f' hf hg

/-- A change that fails may leave all that `Change.MayLeave` allows. -/
theorem triple_perform (faults : Faults) {c : Change} {Q : Unit → Files → Prop}
    (hmake : Triple P c.make Q E) (hfail : ∀ f g, P f → c.MayLeave f g → E g) :
    Triple P (perform faults c) Q E := by
  intro f hf
  unfold perform
  cases faults.changing c f with
  | some left => exact hfail f _ hf left.2
  | none => exact hmake f hf

theorem triple_read (faults : Faults) {p : Path} {w : FileError → ε} {q : Files → Except ε α}
    (hok : ∀ f x, P f → q f = .ok x → Q x f) (herror : ∀ f, P f → E f) :
    Triple P (read faults p w q) Q E := by
  intro f hf
  unfold read
  cases faults.reading p f with
  | some e => exact herror f hf
  | none => exact triple_look hok herror f hf

theorem triple_wrap {act : Action δ α} {g : δ → ε} (h : Triple P act Q E) :
    Triple P (wrap g act) Q E := by
  intro f hf
  have hact := h f hf
  revert hact
  unfold wrap
  rcases act f with ⟨e | x, g⟩
  · exact id
  · exact id

/-- What holds before and after each course of a list holds after all of them. -/
theorem triple_forM {I : Files → Prop} {act : β → Action ε Unit} {xs : List β}
    (h : ∀ x ∈ xs, Triple I (act x) (fun _ => I) E) : Triple I (xs.forM act) (fun _ => I) E := by
  induction xs with
  | nil => exact triple_pure fun _ => id
  | cons x xs ih =>
    exact triple_bind (h x (List.mem_cons_self ..)) fun _ =>
      ih fun y hy => h y (List.mem_cons_of_mem _ hy)

/-- The last course runs in either case. -/
theorem triple_andFinally {last : Action δ Unit} (h : Triple P act Q E)
    (hok : ∀ x f, Q x f → Q' x (last f).2) (herror : ∀ f, E f → E' (last f).2) :
    Triple P (act.andFinally last) Q' E' := by
  intro f hf
  have hact := h f hf
  revert hact
  unfold andFinally
  rcases act f with ⟨e | x, g⟩
  · exact herror g
  · exact hok x g

end Action
end LtiUnit
