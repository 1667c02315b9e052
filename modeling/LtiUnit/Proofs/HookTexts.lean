import LtiUnit.Proofs.RoutineReader

/-!
# LtiUnit.Proofs.HookTexts

The routines of a unit are read back from their lines (`readBack_updateDerivatives` and the like).
-/

namespace LtiUnit
namespace Source

/-! ## Equality of code -/

section Equality

variable {α : Type} [DecidableEq α]

mutual

def Stmt.same : Stmt α → Stmt α → Bool
  | .declare t xs, .declare t' xs' => decide (t = t' ∧ xs = xs')
  | .define t x e, .define t' x' e' => decide (t = t' ∧ x = x' ∧ e = e')
  | .assign e v, .assign e' v' | .accumulate e v, .accumulate e' v' => decide (e = e' ∧ v = v')
  | .increment x, .increment x' | .discard x, .discard x' => decide (x = x')
  | .when e s, .when e' s' => decide (e = e') && Stmt.same s s'
  | .count x f e body, .count x' f' e' body' =>
    decide (x = x' ∧ f = f' ∧ e = e') && Stmt.allSame body body'
  | .call f args, .call f' args' => decide (f = f' ∧ args = args')
  | .give e, .give e' => decide (e = e')
  | _, _ => false

def Stmt.allSame : List (Stmt α) → List (Stmt α) → Bool
  | [], [] => true
  | s :: rest, s' :: rest' => Stmt.same s s' && Stmt.allSame rest rest'
  | _, _ => false

end

mutual

theorem Stmt.eq_of_same {s t : Stmt α} (h : Stmt.same s t = true) : s = t := by
  cases s <;> cases t <;>
    simp only [Stmt.same, Bool.false_eq_true, Bool.and_eq_true, decide_eq_true_eq] at h
  case when.when => rw [h.1, Stmt.eq_of_same h.2]
  case count.count => rw [h.1.1, h.1.2.1, h.1.2.2, Stmt.eq_of_allSame h.2]
  all_goals simp [h]

theorem Stmt.eq_of_allSame {xs ys : List (Stmt α)} (h : Stmt.allSame xs ys = true) : xs = ys := by
  cases xs <;> cases ys <;> simp only [Stmt.allSame, Bool.false_eq_true, Bool.and_eq_true] at h
  case nil.nil => rfl
  case cons.cons => rw [Stmt.eq_of_same h.1, Stmt.eq_of_allSame h.2]

end

mutual

theorem Stmt.same_self (s : Stmt α) : Stmt.same s s = true := by
  cases s with
  | when e s => simp [Stmt.same, Stmt.same_self s]
  | count x f e body => simp [Stmt.same, Stmt.allSame_self body]
  | _ => simp [Stmt.same]

theorem Stmt.allSame_self (xs : List (Stmt α)) : Stmt.allSame xs xs = true := by
  cases xs with
  | nil => rfl
  | cons s rest => simp [Stmt.allSame, Stmt.same_self s, Stmt.allSame_self rest]

end

instance : DecidableEq (List (Stmt α)) := fun xs ys =>
  decidable_of_iff (Stmt.allSame xs ys = true)
    ⟨Stmt.eq_of_allSame, fun h => h ▸ Stmt.allSame_self xs⟩

instance : DecidableEq (Function α)
  | ⟨r, f, params, body⟩, ⟨r', f', params', body'⟩ =>
    decidable_of_iff (r = r' ∧ f = f' ∧ params = params' ∧ body = body') (by simp)

end Equality

/-! ## Reading back -/

/-- The routine that is read from the lines of one. -/
def Function.readBack? (f : Function Float) : Option (Function Literal) :=
  match f.lines.map String.toList with
  | [] => none
  | line :: rest => routineAt? line rest

/-- The characters of the lines may be taken by their bytes. -/
theorem Function.readBack?_eq (f : Function Float) :
    f.readBack? =
      match f.lines.map Text.characters with
      | [] => none
      | line :: rest => routineAt? line rest := by
  rw [Function.readBack?, funext Text.characters_eq]

section Hooks

open Hooks

theorem readBack_innerProduct : innerProduct.readBack? = some innerProduct := by
  rw [Function.readBack?_eq]
  decide +kernel

theorem readBack_updateDerivatives (l : Layout) :
    (updateDerivatives l).readBack? = some (updateDerivatives l) := by
  rw [Function.readBack?_eq]
  unfold updateDerivatives
  generalize decide (0 < l.nu) = hasInputs
  cases hasInputs <;> decide +kernel

theorem readBack_updateStates : updateStates.readBack? = some updateStates := by
  rw [Function.readBack?_eq]
  decide +kernel

theorem readBack_updateOutputs (l : Layout) :
    (updateOutputs l).readBack? = some (updateOutputs l) := by
  rw [Function.readBack?_eq]
  unfold updateOutputs
  by_cases hny : l.ny = 0
  · simp only [if_pos hny]
    decide +kernel
  · simp only [if_neg hny]
    generalize decide (0 < l.nx) = hasStates
    generalize decide (0 < l.nu) = hasInputs
    cases hasStates <;> cases hasInputs <;> decide +kernel

theorem readBack_resets : copyX0toX.readBack? = some copyX0toX ∧ resetX.readBack? = some resetX ∧
    copyU0toU.readBack? = some copyU0toU ∧ resetU.readBack? = some resetU := by
  simp only [Function.readBack?_eq]
  decide

theorem readBack_evaluate (l : Layout) : (evaluate l).readBack? = some (evaluate l) := by
  have hempty : (l.nx == 0 && l.ny == 0) = (!decide (0 < l.nx) && !decide (0 < l.ny)) := by
    cases l.nx <;> cases l.ny <;> rfl
  rw [Function.readBack?_eq]
  unfold evaluate
  rw [hempty]
  generalize decide (0 < l.nx) = hasStates
  generalize decide (0 < l.ny) = hasOutputs
  cases hasStates <;> cases hasOutputs <;> decide

end Hooks

end Source
end LtiUnit
