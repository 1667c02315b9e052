import LtiUnit.Proofs.PlainText
import Mathlib.Tactic.Ring

/-!
# LtiUnit.Proofs.GuidText

The text of a unique identifier is read back as the identifier: its five groups are cut at the marks
between them, and together they are the digits of its bits.
-/

namespace LtiUnit
namespace Guid

open Number (appendDigits? digitValue?)

theorem digitValue?_digitChar {d : Nat} (h : d < 16) :
    digitValue? 16 (Nat.digitChar d) = some d := by
  have hall : ∀ d < 16, digitValue? 16 (Nat.digitChar d) = some d := by decide
  exact hall d h

/-- The last `k` hexadecimal digits of a number. -/
def hexDigits (n k : Nat) : List Char :=
  (List.range k).map fun i => Nat.digitChar (n / 16 ^ (k - 1 - i) % 16)

theorem hexDigits_succ (n k : Nat) :
    hexDigits n (k + 1) = Nat.digitChar (n / 16 ^ k % 16) :: hexDigits n k := by
  rw [hexDigits, List.range_succ_eq_map, List.map_cons, List.map_map, hexDigits]
  congr 1
  refine List.map_congr_left fun i _ => ?_
  have hplace : k + 1 - 1 - (i + 1) = k - 1 - i := by omega
  rw [Function.comp_apply, hplace]

theorem appendDigits?_hexDigits (n m k : Nat) :
    appendDigits? 16 m (hexDigits n k) = some (m * 16 ^ k + n % 16 ^ k) := by
  induction k generalizing m with
  | zero => simp [hexDigits, appendDigits?, Nat.mod_one]
  | succ k ih =>
    rw [hexDigits_succ, appendDigits?, digitValue?_digitChar (Nat.mod_lt _ (by decide)),
      Option.bind_some, ih, Nat.mod_pow_succ]
    congr 1
    ring

theorem digits_eq (g : Guid) : g.digits = hexDigits g.bits.toNat 32 := rfl

theorem length_digits (g : Guid) : g.digits.length = 32 := by
  simp [digits]

theorem length_cut {α : Type} {ns : List Nat} {xs : List α} (h : ns.sum ≤ xs.length) :
    (cut ns xs).map List.length = ns := by
  induction ns generalizing xs with
  | nil => rfl
  | cons n ns ih =>
    rw [List.sum_cons] at h
    rw [cut, List.map_cons, List.length_take, Nat.min_eq_left (by omega),
      ih (by rw [List.length_drop]; omega)]

theorem flatten_cut {α : Type} {ns : List Nat} {xs : List α} (h : ns.sum = xs.length) :
    (cut ns xs).flatten = xs := by
  induction ns generalizing xs with
  | nil => exact (List.length_eq_zero_iff.1 h.symm).symm
  | cons n ns ih =>
    rw [List.sum_cons] at h
    rw [cut, List.flatten_cons, ih (by rw [List.length_drop]; omega), List.take_append_drop]

theorem cutAt_text (g : Guid) : Text.cutAt '-' g.text.toList = cut groups g.digits := by
  have hdigit : ∀ d < 16, Nat.digitChar d ≠ '-' := by decide
  have hmark : "-".toList = ['-'] := rfl
  rw [text, Text.toList_separated hmark, List.map_map]
  have hpieces : (cut groups g.digits).map (String.toList ∘ String.ofList) =
      cut groups g.digits := by
    simp [Function.comp_def]
  rw [hpieces, Text.cutAt_joinWith (by simp [groups, cut])]
  intro piece hpiece hmem
  obtain ⟨i, -, hi⟩ := List.mem_map.1 (Text.mem_of_mem_cut hpiece hmem)
  exact hdigit _ (Nat.mod_lt _ (by decide)) hi

theorem ofText?_text (g : Guid) : ofText? g.text = some g := by
  have hcount : groups.sum = g.digits.length := by rw [length_digits]; rfl
  have hbits : g.bits.toNat % 16 ^ 32 = g.bits.toNat := Nat.mod_eq_of_lt g.bits.isLt
  rw [ofText?, cutAt_text, if_pos (length_cut (Nat.le_of_eq hcount)), flatten_cut hcount,
    digits_eq, Number.ofDigits?, appendDigits?_hexDigits, Option.map_some, Nat.zero_mul,
    Nat.zero_add, hbits, BitVec.ofNat_toNat, BitVec.setWidth_eq]

end Guid
end LtiUnit
