/-!
# LtiUnit.Layout

The registers of a unit. Every state, derivative, input, output and start value has one register;
its number is the value reference under which a host reads and writes it. Registers come in six
blocks, laid out back to back in the order of `Block.order`.

* `Layout.base_state` … `Layout.base_output` — where each block starts.
* `Layout.registerCount_eq` — the number of registers.
-/

namespace LtiUnit

/-- A run of registers of one role. -/
inductive Block where
  | state | derivative | stateStart | input | inputStart | output
  deriving DecidableEq, Repr

namespace Block

/-- All blocks, in register order. -/
def order : List Block := [.state, .derivative, .stateStart, .input, .inputStart, .output]

/-- The short name that generated identifiers carry. -/
def name : Block → String
  | .state => "x"
  | .derivative => "der"
  | .stateStart => "x0"
  | .input => "u"
  | .inputStart => "u0"
  | .output => "y"

def ofName? (s : String) : Option Block := order.find? fun b => b.name == s

end Block

structure Layout where
  nx : Nat
  nu : Nat
  ny : Nat
  deriving DecidableEq, Repr

namespace Layout

def size (l : Layout) : Block → Nat
  | .state | .derivative | .stateStart => l.nx
  | .input | .inputStart => l.nu
  | .output => l.ny

/-- The first register of a block: the registers of all blocks before it come first. -/
def base (l : Layout) (b : Block) : Nat :=
  (Block.order.takeWhile (· ≠ b)).foldr (fun c n => l.size c + n) 0

def registerCount (l : Layout) : Nat := Block.order.foldr (fun b n => l.size b + n) 0

def registers (l : Layout) (b : Block) : List Nat := List.range' (l.base b) (l.size b)

/-- The register of element `i` of a block. -/
def reference? (l : Layout) (b : Block) (i : Nat) : Option Nat :=
  if i < l.size b then some (l.base b + i) else none

/-- The block that a register belongs to, and its place there. -/
def locate (l : Layout) (r : Nat) : Option (Block × Nat) :=
  (Block.order.find? fun b => decide (l.base b ≤ r ∧ r < l.base b + l.size b)).map
    fun b => (b, r - l.base b)

@[simp] theorem base_state (l : Layout) : l.base .state = 0 := rfl

@[simp] theorem base_derivative (l : Layout) : l.base .derivative = l.nx := by
  simp [base, Block.order, size]

@[simp] theorem base_stateStart (l : Layout) : l.base .stateStart = 2 * l.nx := by
  simp [base, Block.order, size]; omega

@[simp] theorem base_input (l : Layout) : l.base .input = 3 * l.nx := by
  simp [base, Block.order, size]; omega

@[simp] theorem base_inputStart (l : Layout) : l.base .inputStart = 3 * l.nx + l.nu := by
  simp [base, Block.order, size]; omega

@[simp] theorem base_output (l : Layout) : l.base .output = 3 * l.nx + 2 * l.nu := by
  simp [base, Block.order, size]; omega

theorem registerCount_eq (l : Layout) : l.registerCount = 3 * l.nx + 2 * l.nu + l.ny := by
  simp [registerCount, Block.order, size]; omega

end Layout

end LtiUnit
