import LtiUnit.Source.Hooks
import Mathlib.Algebra.Order.Floor.Semiring
import Mathlib.Data.Rat.Floor

/-!
# LtiUnit.Proofs.Interpreter

The routines of a unit as a program: what its statements do to the registers of the instance, in
exact arithmetic.

Every step that C leaves undefined has no result here: reading or writing a register that is not
there, an element of a table beyond its end, or a variable that has not been given a value; a pointer
that is moved past the registers; copying between places that overlap. A program that comes to an
end has therefore done none of that.

* `Program.call` — a call of a routine, bounded by fuel.
* `Comes` — that a course comes to an end with some result.
* `comes_count` — a loop, by the state before each round.
-/

namespace LtiUnit
namespace Source

/-- A real constant, by its text. -/
structure Literal where
  text : String
  deriving DecidableEq, Repr

instance : Zero Literal := ⟨⟨"0.0"⟩⟩

/-- The registers from one on, as an expression. -/
def blockPointer (base : Nat) : Expr Literal :=
  .paren (.binary .add (.member (.name "comp") "r") (.natural base))

/-! ## Values and states -/

inductive Value where
  | count (n : Nat)
  | number (q : ℚ)
  /-- The instance. -/
  | component
  /-- The registers from one on. -/
  | registers (first : Nat)
  /-- Constant tables. -/
  | references (ns : List Nat)
  | reals (xs : List ℚ)
  | matrix (rows : List (List ℚ))

/-- A variable in scope, without a value as long as it has not been given one. -/
structure Local where
  type : TypeName
  name : String
  value : Option Value

/-- The registers, and the variables in scope with the innermost first. -/
structure State where
  registers : Nat → ℚ
  locals : List Local

/-- A unit as a program. -/
structure Program where
  registerCount : Nat
  /-- The values of its macros. -/
  expansion : String → Option (Expr Literal)
  /-- The tables at file scope. -/
  table : String → Option Value
  routine : String → Option (Function Literal)
  /-- What real constants stand for. -/
  worth : Literal → ℚ

def Value.number? : Value → Option ℚ
  | .count n => some n
  | .number q => some q
  | _ => none

/-- Whether a condition with a value holds. -/
def Value.holds? : Value → Option Bool
  | .count n => some (n != 0)
  | .number q => some (q != 0)
  | _ => none

/-- A value as one of a type. Numbers lose their fractions in whole types. -/
def Value.as : TypeName → Value → Option Value
  | .real, v => v.number?.map .number
  | .size, .count n | .reference, .count n => some (.count n)
  | .size, .number q | .reference, .number q => if -1 < q then some (.count ⌊q⌋₊) else none
  | .component, .component => some .component
  | .reals, .registers first => some (.registers first)
  | .reals, .reals xs => some (.reals xs)
  | _, _ => none

def Operator.onCounts : Operator → Nat → Nat → Option Nat
  | .add, a, b => some (a + b)
  | .multiply, a, b => some (a * b)
  | .divide, a, b => if b = 0 then none else some (a / b)
  | .less, a, b => some (if a < b then 1 else 0)

def Operator.onNumbers : Operator → ℚ → ℚ → Option Value
  | .add, a, b => some (.number (a + b))
  | .multiply, a, b => some (.number (a * b))
  | .divide, a, b => if b = 0 then none else some (.number (a / b))
  | .less, a, b => some (.count (if a < b then 1 else 0))

/-- Bytes of a real number in memory. -/
def realSize : Nat := 8

namespace Program

variable (p : Program)

def operate : Operator → Value → Value → Option Value
  | op, .count a, .count b => (op.onCounts a b).map .count
  | .add, .registers first, .count n =>
    if first + n ≤ p.registerCount then some (.registers (first + n)) else none
  | op, a, b => do op.onNumbers (← a.number?) (← b.number?)

/-- What stands at an index. -/
def element (r : Nat → ℚ) : Value → Value → Option Value
  | .registers first, .count i =>
    if first + i < p.registerCount then some (.number (r (first + i))) else none
  | .references ns, .count i => ns[i]?.map .count
  | .reals xs, .count i => xs[i]?.map .number
  | .matrix rows, .count i => rows[i]?.map .reals
  | _, _ => none

/-- The value of an expression, by the values of the names in it. -/
def evalBy (names : String → Option Value) (r : Nat → ℚ) : Expr Literal → Option Value
  | .name x => names x
  | .natural n => some (.count n)
  | .real c => some (.number (p.worth c))
  | .quoted _ => none
  | .entry table index => do p.element r (← evalBy names r table) (← evalBy names r index)
  | .member object field => do
    match ← evalBy names r object with
    | .component => if field = "r" then some (.registers 0) else none
    | _ => none
  | .paren e => evalBy names r e
  | .cast type e => do (← evalBy names r e).as type
  | .binary op a b => do p.operate op (← evalBy names r a) (← evalBy names r b)
  | .sizeOf .real => some (.count realSize)
  | .sizeOf _ => none

/-- The value of a name that is no macro: a variable, or else a table. -/
def variableValue (s : State) (x : String) : Option Value :=
  match s.locals.find? fun v => v.name == x with
  | some v => v.value
  | none => p.table x

/-- The value of a name. A macro stands for an expression without macros. -/
def nameValue (s : State) (x : String) : Option Value :=
  match p.expansion x with
  | some e => p.evalBy (p.variableValue s) s.registers e
  | none => p.variableValue s x

def eval (s : State) (e : Expr Literal) : Option Value := p.evalBy (p.nameValue s) s.registers e

end Program

/-! ## Changes -/

/-- The registers with `n` of them from `first` on given by `f`. -/
def fill (first n : Nat) (f : Nat → ℚ) (r : Nat → ℚ) : Nat → ℚ := fun k =>
  if first ≤ k ∧ k < first + n then f (k - first) else r k

/-- Give the innermost variable with a name a value. -/
def setLocal (x : String) (v : Value) : List Local → Option (List Local)
  | [] => none
  | l :: rest =>
    if l.name = x then (v.as l.type).map fun v => { l with value := some v } :: rest
    else (setLocal x v rest).map (l :: ·)

/-- The variables of a block go out of scope at its end. -/
def State.leave (outer s : State) : State :=
  ⟨s.registers, s.locals.drop (s.locals.length - outer.locals.length)⟩

namespace Program

variable (p : Program)

/-- Give what an expression names a value: a variable, or a register. -/
def store (s : State) (target : Expr Literal) (v : Value) : Option State :=
  match target with
  | .name x =>
    match p.expansion x with
    | some _ => none
    | none => (setLocal x v s.locals).map fun locals => { s with locals := locals }
  | .entry table index => do
    match ← p.eval s table, ← p.eval s index, ← v.number? with
    | .registers first, .count i, q =>
      if first + i < p.registerCount then
        some { s with registers := fill (first + i) 1 (fun _ => q) s.registers }
      else none
    | _, _, _ => none
  | _ => none

/-- The sources that can be copied from: `n` numbers, apart from the registers from `target` on. -/
def copied? (r : Nat → ℚ) (target n : Nat) : Value → Option (Nat → ℚ)
  | .registers first =>
    if first + n ≤ p.registerCount ∧ (first + n ≤ target ∨ target + n ≤ first) then
      some fun i => r (first + i)
    else none
  | .reals xs => if n ≤ xs.length then some fun i => xs.getD i 0 else none
  | _ => none

/-- Copy bytes to registers. -/
def copyTo (r : Nat → ℚ) : List Value → Option (Nat → ℚ)
  | [.registers target, source, .count bytes] =>
    let n := bytes / realSize
    if bytes % realSize = 0 ∧ target + n ≤ p.registerCount then
      (p.copied? r target n source).map fun f => fill target n f r
    else none
  | _ => none

/-- The parameters of a routine as its first variables. -/
def bind : List (TypeName × String) → List Value → Option (List Local)
  | [], [] => some []
  | (type, name) :: params, v :: args => do
    let v ← v.as type
    return ⟨type, name, some v⟩ :: (← bind params args)
  | _, _ => none

/-- What a call gives, from what its routine has returned. -/
def result : Option TypeName → Option Value → Option (Option Value)
  | none, none => some none
  | some type, some v => (v.as type).map some
  | _, _ => none

/-! ## Statements -/

mutual

/-- Run a statement. If it returns from the routine, the value comes with the state. -/
def exec : Nat → Stmt Literal → State → Option (State × Option Value)
  | 0, _, _ => none
  | fuel + 1, statement, s =>
    match statement with
    | .declare type names =>
      some (⟨s.registers, (names.map fun x => ⟨type, x, none⟩) ++ s.locals⟩, none)
    | .define type x e => do
      let v ← (← p.eval s e).as type
      return (⟨s.registers, ⟨type, x, some v⟩ :: s.locals⟩, none)
    | .assign target rhs => do
      let (s, v) ← value fuel rhs s
      return (← p.store s target v, none)
    | .accumulate target rhs => do
      let (s, v) ← value fuel rhs s
      let sum ← p.operate .add (← p.eval s target) v
      return (← p.store s target sum, none)
    | .increment x => do
      let next ← p.operate .add (← p.eval s (.name x)) (.count 1)
      return (← p.store s (.name x) next, none)
    | .when condition action => do
      if ← (← p.eval s condition).holds? then exec fuel action s else return (s, none)
    | .count counter _ bound body => do
      loop fuel counter bound body (← p.store s (.name counter) (.count 0))
    | .call f args => do
      let (r, _) ← call fuel f (← args.mapM (p.eval s)) s.registers
      return (⟨r, s.locals⟩, none)
    | .give e => do return (s, some (← p.eval s e))
    | .discard x => do
      let _ ← p.eval s (.name x)
      return (s, none)

/-- Run statements one after the other. -/
def execAll : Nat → List (Stmt Literal) → State → Option (State × Option Value)
  | 0, _, _ => none
  | _ + 1, [], s => some (s, none)
  | fuel + 1, statement :: rest, s => do
    match ← exec fuel statement s with
    | (s, some v) => return (s, some v)
    | (s, none) => execAll fuel rest s

/-- Run a loop from the test of its counter on. -/
def loop : Nat → String → Expr Literal → List (Stmt Literal) → State →
    Option (State × Option Value)
  | 0, _, _, _, _ => none
  | fuel + 1, counter, bound, body, s => do
    if ← (← p.eval s (.binary .less (.name counter) bound)).holds? then
      match ← execAll fuel body s with
      | (inner, some v) => return (s.leave inner, some v)
      | (inner, none) =>
        let s := s.leave inner
        let next ← p.operate .add (← p.eval s (.name counter)) (.count 1)
        loop fuel counter bound body (← p.store s (.name counter) next)
    else return (s, none)

/-- The value of what is assigned. -/
def value : Nat → Rhs Literal → State → Option (State × Value)
  | 0, _, _ => none
  | _ + 1, .expr e, s => do return (s, ← p.eval s e)
  | fuel + 1, .call f args, s => do
    match ← call fuel f (← args.mapM (p.eval s)) s.registers with
    | (r, some v) => return (⟨r, s.locals⟩, v)
    | (_, none) => none

/-- Call a routine of the unit, or else the one for copying. -/
def call : Nat → String → List Value → (Nat → ℚ) → Option ((Nat → ℚ) × Option Value)
  | 0, _, _, _ => none
  | fuel + 1, f, args, r =>
    match p.routine f with
    | some routine => do
      let (s, given) ← execAll fuel routine.body ⟨r, ← bind routine.params args⟩
      return (s.registers, ← result routine.returns given)
    | none => if f = "memcpy" then (p.copyTo r args).map (·, none) else none

end

end Program

/-! ## Courses that come to an end -/

/-- With enough fuel a course has a result. -/
def Comes {β : Type} (course : Nat → Option β) (x : β) : Prop :=
  ∃ n, ∀ fuel, n ≤ fuel → course fuel = some x

theorem comes_succ {β : Type} {course : Nat → Option β} {x : β}
    (h : Comes (fun fuel => course (fuel + 1)) x) : Comes course x := by
  obtain ⟨n, hn⟩ := h
  refine ⟨n + 1, fun fuel hfuel => ?_⟩
  obtain ⟨fuel, rfl⟩ := Nat.exists_eq_add_of_le' (Nat.le_of_add_left_le hfuel)
  exact hn fuel (by omega)

theorem comes_of_eq {β : Type} {course : Nat → Option β} {x : β}
    (h : ∀ fuel, course (fuel + 1) = some x) : Comes course x :=
  comes_succ ⟨0, fun fuel _ => h fuel⟩

theorem Comes.congr {β : Type} {course : Nat → Option β} {x y : β} (h : Comes course x)
    (hxy : x = y) : Comes course y :=
  hxy ▸ h

section Rules

open Program

variable {p : Program} {s t : State} {v w : Value} {e target : Expr Literal} {type : TypeName}
  {r r' : Nat → ℚ} {args : List (Expr Literal)} {vs : List Value} {given : Option Value}
  {x f : String} {rhs : Rhs Literal}

-- Every rule takes one step of the interpreter.
attribute [local simp] evalBy exec execAll loop value call

theorem eval_binary {op : Operator} {a b : Expr Literal} {u : Value} (ha : p.eval s a = some v)
    (hb : p.eval s b = some w) (h : p.operate op v w = some u) :
    p.eval s (.binary op a b) = some u := by
  simp only [eval] at ha hb
  simp only [eval, evalBy, ha, hb]
  exact h

theorem eval_cast (he : p.eval s e = some v) (h : v.as type = some w) :
    p.eval s (.cast type e) = some w := by
  simp only [eval] at he
  simp only [eval, evalBy, he]
  exact h

theorem eval_entry {table index : Expr Literal} {u : Value} (ht : p.eval s table = some v)
    (hi : p.eval s index = some w) (h : p.element s.registers v w = some u) :
    p.eval s (.entry table index) = some u := by
  simp only [eval] at ht hi
  simp only [eval, evalBy, ht, hi]
  exact h

theorem comes_declare (names : List String) :
    Comes (p.exec · (.declare type names) s)
      (⟨s.registers, (names.map fun x => ⟨type, x, none⟩) ++ s.locals⟩, none) :=
  comes_of_eq fun _ => rfl

theorem comes_define (he : p.eval s e = some v) (hv : v.as type = some w) :
    Comes (p.exec · (.define type x e) s) (⟨s.registers, ⟨type, x, some w⟩ :: s.locals⟩, none) :=
  comes_of_eq fun fuel => by simp [he, hv]

theorem comes_discard (h : p.eval s (.name x) = some v) :
    Comes (p.exec · (.discard x) s) (s, none) :=
  comes_of_eq fun fuel => by simp [h]

theorem comes_give (he : p.eval s e = some v) : Comes (p.exec · (.give e) s) (s, some v) :=
  comes_of_eq fun fuel => by simp [he]

theorem comes_expr (he : p.eval s e = some v) : Comes (p.value · (.expr e) s) (s, v) :=
  comes_of_eq fun fuel => by simp [he]

theorem comes_of_call (vs : List Value) (hargs : args.mapM (p.eval s) = some vs)
    (hcall : Comes (p.call · f vs s.registers) (r, some v)) :
    Comes (p.value · (.call f args) s) (⟨r, s.locals⟩, v) := by
  obtain ⟨n, hn⟩ := hcall
  exact comes_succ ⟨n, fun fuel h => by simp [hargs, hn fuel h]⟩

theorem comes_assign (hvalue : Comes (p.value · rhs s) (s, v))
    (hstore : p.store s target v = some t) :
    Comes (p.exec · (.assign target rhs) s) (t, none) := by
  obtain ⟨n, hn⟩ := hvalue
  exact comes_succ ⟨n, fun fuel h => by simp [hn fuel h, hstore]⟩

theorem comes_accumulate (hvalue : Comes (p.value · rhs s) (s, v))
    (hold : p.eval s target = some w) {sum : Value} (hsum : p.operate .add w v = some sum)
    (hstore : p.store s target sum = some t) :
    Comes (p.exec · (.accumulate target rhs) s) (t, none) := by
  obtain ⟨n, hn⟩ := hvalue
  exact comes_succ ⟨n, fun fuel h => by simp [hn fuel h, hold, hsum, hstore]⟩

theorem comes_increment (hold : p.eval s (.name x) = some w) {sum : Value}
    (hsum : p.operate .add w (.count 1) = some sum) (hstore : p.store s (.name x) sum = some t) :
    Comes (p.exec · (.increment x) s) (t, none) :=
  comes_of_eq fun fuel => by simp [hold, hsum, hstore]

theorem comes_when {action : Stmt Literal} (he : p.eval s e = some v) (hv : v.holds? = some true)
    (haction : Comes (p.exec · action s) (t, none)) :
    Comes (p.exec · (.when e action) s) (t, none) := by
  obtain ⟨n, hn⟩ := haction
  exact comes_succ ⟨n, fun fuel h => by simp [he, hv, hn fuel h]⟩

theorem comes_unless {action : Stmt Literal} (he : p.eval s e = some v)
    (hv : v.holds? = some false) : Comes (p.exec · (.when e action) s) (s, none) :=
  comes_of_eq fun fuel => by simp [he, hv]

theorem comes_procedure (vs : List Value) (hargs : args.mapM (p.eval s) = some vs)
    (hcall : Comes (p.call · f vs s.registers) (r, given)) :
    Comes (p.exec · (.call f args) s) (⟨r, s.locals⟩, none) := by
  obtain ⟨n, hn⟩ := hcall
  exact comes_succ ⟨n, fun fuel h => by simp [hargs, hn fuel h]⟩

theorem comes_nil : Comes (p.execAll · [] s) (s, none) := comes_of_eq fun _ => rfl

theorem comes_cons {statement : Stmt Literal} {rest : List (Stmt Literal)}
    {last : State × Option Value} (hfirst : Comes (p.exec · statement s) (t, none))
    (hrest : Comes (p.execAll · rest t) last) : Comes (p.execAll · (statement :: rest) s) last := by
  obtain ⟨n, hn⟩ := hfirst
  obtain ⟨m, hm⟩ := hrest
  refine comes_succ ⟨max n m, fun fuel h => ?_⟩
  simp [hn fuel (by omega), hm fuel (by omega)]

/-- Nothing runs after a return. -/
theorem comes_return {statement : Stmt Literal} {rest : List (Stmt Literal)}
    (h : Comes (p.exec · statement s) (t, some v)) :
    Comes (p.execAll · (statement :: rest) s) (t, some v) := by
  obtain ⟨n, hn⟩ := h
  exact comes_succ ⟨n, fun fuel h => by simp [hn fuel h]⟩

/-- A routine of the unit is called. -/
theorem comes_call {routine : Function Literal} {locals : List Local} {back : Option Value}
    (hroutine : p.routine f = some routine) (hbind : bind routine.params vs = some locals)
    (hbody : Comes (p.execAll · routine.body ⟨r, locals⟩) (s, given))
    (hresult : result routine.returns given = some back) :
    Comes (p.call · f vs r) (s.registers, back) := by
  obtain ⟨n, hn⟩ := hbody
  exact comes_succ ⟨n, fun fuel h => by simp [hroutine, hbind, hn fuel h, hresult]⟩

theorem comes_memcpy (hroutine : p.routine "memcpy" = none) (hcopy : p.copyTo r vs = some r') :
    Comes (p.call · "memcpy" vs r) (r', none) :=
  comes_of_eq fun fuel => by simp [hroutine, hcopy]

theorem comes_loop {counter : String} {bound : Expr Literal} {body : List (Stmt Literal)} {n : Nat}
    (states : Nat → State)
    (hcounter : ∀ k ≤ n, p.eval (states k) (.name counter) = some (.count k))
    (hbound : ∀ k ≤ n, p.eval (states k) bound = some (.count n))
    (hround : ∀ k < n, ∃ inner, Comes (p.execAll · body (states k)) (inner, none) ∧
      p.eval ((states k).leave inner) (.name counter) = some (.count k) ∧
      p.store ((states k).leave inner) (.name counter) (.count (k + 1)) = some (states (k + 1)))
    {k : Nat} (hk : k ≤ n) :
    Comes (p.loop · counter bound body (states k)) (states n, none) := by
  have htest : ∀ k ≤ n, p.eval (states k) (.binary .less (.name counter) bound) =
      some (.count (if k < n then 1 else 0)) := by
    intro k hk
    have h1 := hcounter k hk
    have h2 := hbound k hk
    simp only [eval, evalBy] at h1 h2 ⊢
    rw [h1, h2]
    rfl
  induction hk using Nat.decreasingInduction with
  | self =>
    refine comes_of_eq fun fuel => ?_
    simp [htest n (Nat.le_refl n), Value.holds?]
  | of_succ k hk ih =>
    obtain ⟨inner, ⟨m, hbody⟩, hvalue, hstep⟩ := hround k hk
    obtain ⟨m', hrest⟩ := ih
    refine comes_succ ⟨max m m', fun fuel hfuel => ?_⟩
    have hnext : p.operate .add (.count k) (.count 1) = some (.count (k + 1)) := rfl
    simp [htest k (Nat.le_of_lt hk), hk, Value.holds?, hbody fuel (by omega), hvalue, hnext,
      hstep, hrest fuel (by omega)]

/-- A loop, from the state before each round: the body takes it to the next one, except for the
counter. -/
theorem comes_count {counter : String} {stepFirst : Bool} {bound : Expr Literal}
    {body : List (Stmt Literal)} {n : Nat} (states : Nat → State)
    (hstart : p.store s (.name counter) (.count 0) = some (states 0))
    (hcounter : ∀ k ≤ n, p.eval (states k) (.name counter) = some (.count k))
    (hbound : ∀ k ≤ n, p.eval (states k) bound = some (.count n))
    (hround : ∀ k < n, ∃ inner, Comes (p.execAll · body (states k)) (inner, none) ∧
      p.eval ((states k).leave inner) (.name counter) = some (.count k) ∧
      p.store ((states k).leave inner) (.name counter) (.count (k + 1)) = some (states (k + 1))) :
    Comes (p.exec · (.count counter stepFirst bound body) s) (states n, none) := by
  obtain ⟨m, hm⟩ := comes_loop states hcounter hbound hround (Nat.zero_le n)
  exact comes_succ ⟨m, fun fuel h => by simp [hstart, hm fuel h]⟩

end Rules

/-! ## Filling registers -/

section Fill

variable {first n : Nat} {f g : Nat → ℚ} {r : Nat → ℚ}

@[simp] theorem fill_zero : fill first 0 f r = r := by
  funext k
  simp [fill]

theorem fill_at {i : Nat} (h : i < n) : fill first n f r (first + i) = f i := by
  have hin : first ≤ first + i ∧ first + i < first + n := by omega
  rw [fill, if_pos hin, Nat.add_sub_cancel_left]

theorem fill_apart {k : Nat} (h : k < first ∨ first + n ≤ k) : fill first n f r k = r k := by
  rw [fill, if_neg (by omega)]

/-- One more register is filled. -/
theorem fill_succ {v : ℚ} (h : v = f n) :
    fill (first + n) 1 (fun _ => v) (fill first n f r) = fill first (n + 1) f r := by
  subst h
  funext k
  unfold fill
  by_cases hk : k = first + n
  · subst hk
    simp
  · split_ifs <;> first | rfl | omega

theorem fill_congr (h : ∀ i < n, f i = g i) : fill first n f r = fill first n g r := by
  funext k
  unfold fill
  split_ifs with hk
  · exact h _ (by omega)
  · rfl

theorem fill_fill : fill first n f (fill first n g r) = fill first n f r := by
  funext k
  unfold fill
  split_ifs <;> rfl

end Fill

end Source
end LtiUnit
