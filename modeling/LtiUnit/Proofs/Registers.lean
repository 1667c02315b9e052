import LtiUnit.Layout

/-!
# LtiUnit.Proofs.Registers

Lists that hold one thing for every register of a layout, in register order (`spread`): they are as
long as there are registers, the elements of a block stand from its base on (`getElem?_spread`), and
every place belongs to an element of a block (`exists_register`).

The blocks share out the registers (`registers_partitioned`): a register is located in the one
element that refers to it (`locate_eq_some_iff`), also if there are empty blocks with the same base.
-/

namespace LtiUnit
namespace Layout

variable {α β : Type} (l : Layout)

/-- One thing for every element of every block, block after block. -/
def spread (g : Block → Nat → α) : List α :=
  Block.order.flatMap fun b => (List.range (l.size b)).map (g b)

theorem map_spread (f : α → β) (g : Block → Nat → α) :
    (l.spread g).map f = l.spread fun b i => f (g b i) := by
  simp [spread, List.map_flatMap, Function.comp_def]

@[simp] theorem length_spread (g : Block → Nat → α) : (l.spread g).length = l.registerCount := by
  simp [spread, registerCount, List.length_flatMap, List.sum_eq_foldr, List.foldr_map]

/-- The blocks before a block, the block, and those after it. -/
theorem order_eq (b : Block) :
    ∃ after, Block.order = Block.order.takeWhile (· ≠ b) ++ b :: after := by
  cases b <;> exact ⟨_, rfl⟩

theorem getElem?_spread (g : Block → Nat → α) {b : Block} {i : Nat} (h : i < l.size b) :
    (l.spread g)[l.base b + i]? = some (g b i) := by
  obtain ⟨after, horder⟩ := order_eq b
  have hbase : (((Block.order.takeWhile (· ≠ b)).flatMap fun b =>
      (List.range (l.size b)).map (g b))).length = l.base b := by
    simp [base, List.length_flatMap, List.sum_eq_foldr, List.foldr_map]
  rw [spread, horder, List.flatMap_append, List.flatMap_cons, ← hbase,
    List.getElem?_append_right (Nat.le_add_right ..), Nat.add_sub_cancel_left,
    List.getElem?_append_left (by simpa using h), List.getElem?_map, List.getElem?_range h]
  rfl

/-- Every register is an element of a block. -/
theorem exists_register {r : Nat} (h : r < l.registerCount) :
    ∃ b i, i < l.size b ∧ r = l.base b + i := by
  rw [registerCount_eq] at h
  rcases Nat.lt_or_ge r l.nx with h1 | h1
  · exact ⟨.state, r, h1, by simp⟩
  rcases Nat.lt_or_ge r (2 * l.nx) with h2 | h2
  · exact ⟨.derivative, r - l.nx, by simp only [size]; omega, by rw [base_derivative]; omega⟩
  rcases Nat.lt_or_ge r (3 * l.nx) with h3 | h3
  · exact ⟨.stateStart, r - 2 * l.nx, by simp only [size]; omega, by rw [base_stateStart]; omega⟩
  rcases Nat.lt_or_ge r (3 * l.nx + l.nu) with h4 | h4
  · exact ⟨.input, r - 3 * l.nx, by simp only [size]; omega, by rw [base_input]; omega⟩
  rcases Nat.lt_or_ge r (3 * l.nx + 2 * l.nu) with h5 | h5
  · exact ⟨.inputStart, r - (3 * l.nx + l.nu), by simp only [size]; omega,
      by rw [base_inputStart]; omega⟩
  · exact ⟨.output, r - (3 * l.nx + 2 * l.nu), by simp only [size]; omega,
      by rw [base_output]; omega⟩

theorem lt_registerCount {b : Block} {i : Nat} (h : i < l.size b) :
    l.base b + i < l.registerCount := by
  have hsome := l.getElem?_spread (fun _ _ => ()) h
  rw [← l.length_spread fun _ _ => ()]
  exact (List.getElem?_eq_some_iff.1 hsome).1

/-- The registers themselves, spread over the blocks, count up from zero. -/
theorem spread_registers : l.spread (fun b i => l.base b + i) = List.range l.registerCount := by
  apply List.ext_getElem?
  intro r
  rcases Nat.lt_or_ge r l.registerCount with h | h
  · obtain ⟨b, i, hi, rfl⟩ := l.exists_register h
    rw [l.getElem?_spread _ hi, List.getElem?_range h]
  · rw [List.getElem?_eq_none (by simpa using h), List.getElem?_eq_none (by simpa using h)]

theorem registers_eq (b : Block) :
    l.registers b = (List.range (l.size b)).map fun i => l.base b + i := by
  simp [registers, List.range'_eq_map_range]

/-- Things of different elements are different if the things tell the elements apart. -/
theorem nodup_spread {g : Block → Nat → α}
    (h : ∀ b i b' i', g b i = g b' i' → b = b' ∧ i = i') : (l.spread g).Nodup := by
  refine List.pairwise_iff_getElem.2 fun r r' hr hr' hlt heq => ?_
  have hsame : (l.spread g)[r]? = (l.spread g)[r']? := by
    rw [List.getElem?_eq_getElem hr, List.getElem?_eq_getElem hr', heq]
  rw [length_spread] at hr hr'
  obtain ⟨b, i, hi, rfl⟩ := l.exists_register hr
  obtain ⟨b', i', hi', rfl⟩ := l.exists_register hr'
  rw [l.getElem?_spread g hi, l.getElem?_spread g hi', Option.some_inj] at hsame
  obtain ⟨rfl, rfl⟩ := h _ _ _ _ hsame
  exact Nat.lt_irrefl _ hlt

/-! ## Blocks as a partition -/

/-- The registers of one block are outside of every other one. -/
theorem blocks_apart {b c : Block} (h : b ≠ c) {j : Nat} (hj : j < l.size b) :
    l.base b + j < l.base c ∨ l.base c + l.size c ≤ l.base b + j := by
  cases b <;> cases c <;> simp [size] at h hj ⊢ <;> omega

/-- An element refers to a register of its block, at its own place there. -/
theorem reference?_eq_some_iff {b : Block} {i r : Nat} :
    l.reference? b i = some r ↔ i < l.size b ∧ l.base b + i = r := by
  unfold reference?
  split
  · rename_i hi
    simp [hi]
  · rename_i hi
    simp [hi]

/-- A block that has a register. -/
theorem eq_of_mem_block {b c : Block} {i r : Nat} (h : l.reference? b i = some r)
    (hc : l.base c ≤ r ∧ r < l.base c + l.size c) : c = b := by
  obtain ⟨hi, rfl⟩ := l.reference?_eq_some_iff.1 h
  refine Decidable.byContradiction fun hne => ?_
  have := l.blocks_apart (Ne.symm hne) hi
  omega

/-- Locating a register finds the element that refers to it. The search looks at the blocks in
order, but no other block has the register, so the order does not matter. -/
theorem locate_eq_some_iff {b : Block} {i r : Nat} :
    l.locate r = some (b, i) ↔ l.reference? b i = some r := by
  constructor
  · intro h
    obtain ⟨c, hfind, hc⟩ := Option.map_eq_some_iff.1 h
    obtain ⟨rfl, rfl⟩ := Prod.mk.inj hc
    have hmem : l.base c ≤ r ∧ r < l.base c + l.size c := by
      simpa using List.find?_some hfind
    rw [reference?_eq_some_iff]
    omega
  · intro h
    obtain ⟨hi, hr⟩ := l.reference?_eq_some_iff.1 h
    have hfound : (Block.order.find? fun c =>
        decide (l.base c ≤ r ∧ r < l.base c + l.size c)).isSome = true := by
      refine List.find?_isSome.2 ⟨b, by cases b <;> decide, ?_⟩
      rw [decide_eq_true_eq]
      omega
    obtain ⟨c, hfind⟩ := Option.isSome_iff_exists.1 hfound
    obtain rfl : c = b := l.eq_of_mem_block h (by simpa using List.find?_some hfind)
    rw [locate, hfind, Option.map_some, ← hr, Nat.add_sub_cancel_left]

theorem exists_locate {r : Nat} (h : r < l.registerCount) :
    ∃ b i, l.locate r = some (b, i) ∧ l.reference? b i = some r := by
  obtain ⟨b, i, hi, rfl⟩ := l.exists_register h
  have href := l.reference?_eq_some_iff.2 ⟨hi, rfl⟩
  exact ⟨b, i, l.locate_eq_some_iff.2 href, href⟩

theorem locate_eq_none_iff {r : Nat} : l.locate r = none ↔ l.registerCount ≤ r := by
  constructor
  · intro h
    refine Nat.le_of_not_lt fun hlt => ?_
    obtain ⟨b, i, hlocate, -⟩ := l.exists_locate hlt
    rw [h] at hlocate
    cases hlocate
  · intro h
    cases hlocate : l.locate r with
    | none => rfl
    | some p =>
      obtain ⟨hi, rfl⟩ := l.reference?_eq_some_iff.1 (l.locate_eq_some_iff.1 hlocate)
      have := l.lt_registerCount hi
      omega

theorem base_add_size_le (b : Block) : l.base b + l.size b ≤ l.registerCount := by
  rw [registerCount_eq]
  cases b <;> simp [size] <;> omega

/-- What it is for the blocks to share out the registers. No number in it is greater than the number
of registers, so all of them can be represented if that one can. -/
structure Partitioned : Prop where
  count : l.registerCount = 3 * l.nx + 2 * l.nu + l.ny
  /-- Each block is one of the list, which starts at zero, goes on where the block before ends, and
  ends with the last register. -/
  all : ∀ b, b ∈ Block.order
  first : ∀ b ∈ Block.order.head?, l.base b = 0
  next : ∀ p ∈ Block.order.zip Block.order.tail, l.base p.2 = l.base p.1 + l.size p.1
  last : ∀ b ∈ Block.order.getLast?, l.base b + l.size b = l.registerCount
  within : ∀ b, l.base b + l.size b ≤ l.registerCount
  /-- The elements of a block, and no others, have registers, at which they are located. -/
  refers : ∀ b i, (∃ r, l.reference? b i = some r) ↔ i < l.size b
  located : ∀ b i r, l.reference? b i = some r → l.locate r = some (b, i)
  /-- The registers that are there, and no others, are located, in the element they belong to. -/
  inside : ∀ r < l.registerCount, ∃ b i, l.locate r = some (b, i) ∧ l.reference? b i = some r
  outside : ∀ r, l.registerCount ≤ r → l.locate r = none
  owner : ∀ r < l.registerCount, ∃ p : Block × Nat, ∀ b i, l.reference? b i = some r ↔ (b, i) = p

/-- The blocks share out the registers, whatever the dimensions are. -/
theorem registers_partitioned : l.Partitioned where
  count := l.registerCount_eq
  all b := by cases b <;> decide
  first := by
    rintro _ ⟨⟩
    exact l.base_state
  next := by
    simp [Block.order, size]
    omega
  last b hb := by
    have hlast : Block.order.getLast? = some .output := rfl
    rw [hlast] at hb
    cases hb
    rw [registerCount_eq, base_output]
    rfl
  within := l.base_add_size_le
  refers b i := by simp [reference?_eq_some_iff]
  located b i r := l.locate_eq_some_iff.2
  inside r := l.exists_locate
  outside r := l.locate_eq_none_iff.2
  owner r hr := by
    obtain ⟨b, i, hlocate, -⟩ := l.exists_locate hr
    refine ⟨(b, i), fun c j => ?_⟩
    rw [← l.locate_eq_some_iff, hlocate, Option.some_inj]
    exact eq_comm

end Layout
end LtiUnit
