import LtiUnit.Proofs.ScannedText

/-!
# LtiUnit.Proofs.GatheredPieces

What is gathered from the lexemes of directives and declarations. Between brackets everything is
collected, whatever it is, as long as the brackets are closed again (`Nested`).
-/

namespace LtiUnit
namespace Source

/-- Lexemes without the line breaks between them. -/
def visible (ts : List Lexeme) : List Lexeme := ts.filter (· != .lineBreak)

theorem visible_append (ts us : List Lexeme) : visible (ts ++ us) = visible ts ++ visible us :=
  List.filter_append ..

/-- Lexemes that a declaration goes on with, wherever they stand in it. -/
def Lexeme.isInner (t : Lexeme) : Bool :=
  t != .mark '\x7b' && t != .mark '\x7d' && t != .mark '#'

/-- Lexemes that can also stand outside the brackets of a declaration. -/
def Lexeme.isOuter (t : Lexeme) : Bool := t.isInner && t != .mark ';' && t != .lineBreak

theorem visible_of_outer {ts : List Lexeme} (h : ∀ t ∈ ts, t.isOuter = true) : visible ts = ts := by
  refine List.filter_eq_self.2 fun t ht => ?_
  have hline := h t ht
  simp only [Lexeme.isOuter, Bool.and_eq_true] at hline
  exact hline.2

/-- Lexemes in which each bracket that is opened is closed. -/
inductive Nested : List Lexeme → Prop
  | nil : Nested []
  | cons {t : Lexeme} {ts : List Lexeme} (h : t.isInner = true) (hts : Nested ts) : Nested (t :: ts)
  | bracketed {us ts : List Lexeme} (hus : Nested us) (hts : Nested ts) :
    Nested (.mark '\x7b' :: (us ++ .mark '\x7d' :: ts))

theorem Nested.append {ts us : List Lexeme} (hts : Nested ts) (hus : Nested us) :
    Nested (ts ++ us) := by
  induction hts with
  | nil => exact hus
  | cons h _ ih => exact .cons h ih
  | bracketed hinner _ _ ih =>
    rw [List.cons_append, List.append_assoc, List.cons_append]
    exact .bracketed hinner ih

theorem nested_of_inner {ts : List Lexeme} (h : ∀ t ∈ ts, t.isInner = true) : Nested ts := by
  induction ts with
  | nil => exact .nil
  | cons t ts ih =>
    obtain ⟨ht, hts⟩ := List.forall_mem_cons.1 h
    exact .cons ht (ih hts)

/-! ## Steps -/

section Step

variable {fresh : Bool} {ds : List Lexeme} {depth : Nat}

theorem code_of_inner {t : Lexeme} (h : t.isInner = true) (hend : t = .mark ';' → depth ≠ 0) :
    Gather.code ⟨none, fresh, ds, depth⟩ t = (⟨none, false, t :: ds, depth⟩, []) := by
  simp only [Lexeme.isInner, Bool.and_eq_true, bne_iff_ne] at h
  unfold Gather.code
  split
  · exact absurd rfl h.1.1
  · exact absurd rfl h.1.2
  · exact if_neg (hend rfl)
  · rfl

theorem step_inner {t : Lexeme} (h : t.isInner = true) (hend : t = .mark ';' → depth ≠ 0) :
    ∃ fresh', Gather.step ⟨none, fresh, ds, depth⟩ t =
      (⟨none, fresh', (visible [t]).reverse ++ ds, depth⟩, []) := by
  by_cases hbreak : t = .lineBreak
  · subst hbreak
    exact ⟨true, rfl⟩
  · refine ⟨false, ?_⟩
    have hvisible : visible [t] = [t] := by simp [visible, hbreak]
    have hmark : t ≠ .mark '#' := by
      simp only [Lexeme.isInner, Bool.and_eq_true, bne_iff_ne] at h
      exact h.2
    rw [Gather.step, hvisible, List.reverse_singleton, List.singleton_append]
    simp only [if_neg hbreak, hmark, false_and, if_false]
    exact code_of_inner h hend

end Step

/-! ## Collecting -/

/-- At a depth some lexemes are collected, and the depth after them is the same. -/
def Collects (depth : Nat) (ts : List Lexeme) : Prop :=
  ∀ fresh ds, ∃ fresh', run Gather.step ⟨none, fresh, ds, depth⟩ ts =
    (⟨none, fresh', (visible ts).reverse ++ ds, depth⟩, [])

section Collects

variable {ts us : List Lexeme} {depth : Nat}

theorem collects_nil : Collects depth [] := fun fresh _ => ⟨fresh, rfl⟩

theorem Collects.append (hts : Collects depth ts) (hus : Collects depth us) :
    Collects depth (ts ++ us) := by
  intro fresh ds
  obtain ⟨fresh', hts⟩ := hts fresh ds
  obtain ⟨fresh'', hus⟩ := hus fresh' ((visible ts).reverse ++ ds)
  refine ⟨fresh'', ?_⟩
  rw [run_append, hts, hus, visible_append, List.reverse_append, List.append_assoc]
  rfl

theorem collects_inner {t : Lexeme} (h : t.isInner = true) (hend : t = .mark ';' → depth ≠ 0) :
    Collects depth [t] := by
  intro fresh ds
  obtain ⟨fresh', hstep⟩ := step_inner h hend
  exact ⟨fresh', by rw [run_cons, hstep]; rfl⟩

theorem collects_outer (depth : Nat) (h : ∀ t ∈ ts, t.isOuter = true) : Collects depth ts := by
  induction ts with
  | nil => exact collects_nil
  | cons t ts ih =>
    obtain ⟨ht, hts⟩ := List.forall_mem_cons.1 h
    simp only [Lexeme.isOuter, Bool.and_eq_true, bne_iff_ne] at ht
    exact (collects_inner ht.1.1 fun hend => absurd hend ht.1.2).append (ih hts)

theorem collects_nested (depth : Nat) (h : Nested ts) : Collects (depth + 1) ts := by
  induction h generalizing depth with
  | nil => exact collects_nil
  | cons h _ ih => exact (collects_inner h fun _ => Nat.succ_ne_zero depth).append (ih depth)
  | @bracketed us ts _ _ ihinner ih =>
    have hbracketed : Collects (depth + 1) (.mark '\x7b' :: (us ++ [Lexeme.mark '\x7d'])) := by
      intro fresh ds
      have hdeeper : Collects (depth + 2) us := ihinner (depth + 1)
      obtain ⟨fresh', hinner⟩ := hdeeper false (.mark '\x7b' :: ds)
      have hopen : Gather.step ⟨none, fresh, ds, depth + 1⟩ (.mark '\x7b') =
          (⟨none, false, .mark '\x7b' :: ds, depth + 2⟩, []) := rfl
      have hclose (ds : List Lexeme) : Gather.step ⟨none, fresh', ds, depth + 2⟩ (.mark '\x7d') =
          (⟨none, false, .mark '\x7d' :: ds, depth + 1⟩, []) := rfl
      refine ⟨false, ?_⟩
      rw [run_cons, hopen, run_append, hinner, run_cons, hclose]
      simp [visible, run]
    have hall : .mark '\x7b' :: (us ++ Lexeme.mark '\x7d' :: ts) =
        (.mark '\x7b' :: (us ++ [Lexeme.mark '\x7d'])) ++ ts := by simp
    rw [hall]
    exact hbracketed.append (ih depth)

end Collects

/-! ## Whole pieces -/

/-- Lexemes are gathered to some pieces, and nothing is left unfinished. -/
def Gathers (ts : List Lexeme) (ps : List Piece) : Prop := run Gather.step {} ts = ({}, ps)

theorem Gathers.append {ts us : List Lexeme} {ps qs : List Piece} (hts : Gathers ts ps)
    (hus : Gathers us qs) : Gathers (ts ++ us) (ps ++ qs) := by
  rw [Gathers, run_append, hts, hus]

theorem gathers_directive {ts : List Lexeme} (h : .lineBreak ∉ ts) :
    Gathers (.mark '#' :: (ts ++ [Lexeme.lineBreak])) [.directive ts] := by
  have hcollect (us : List Lexeme) : run Gather.step ⟨some us, true, [], 0⟩ ts =
      (⟨some (ts.reverse ++ us), true, [], 0⟩, []) := by
    induction ts generalizing us with
    | nil => rfl
    | cons t ts ih =>
      rw [List.mem_cons, not_or] at h
      have hstep : Gather.step ⟨some us, true, [], 0⟩ t = (⟨some (t :: us), true, [], 0⟩, []) :=
        if_neg (Ne.symm h.1)
      rw [run_cons, hstep, ih h.2, List.reverse_cons, List.append_assoc]
      rfl
  have hopen : Gather.step {} (.mark '#') = (⟨some [], true, [], 0⟩, []) := rfl
  rw [Gathers, run_cons, hopen, run_append, hcollect]
  simp [run, Gather.step]

section Declaration

variable {head body : List Lexeme}

theorem isFunction_bracketed (hhead : ∀ t ∈ head, t.isOuter = true) :
    isFunction (head ++ Lexeme.mark '\x7b' :: body) = head.contains (.mark '(') := by
  have houter : ∀ t ∈ head, (t != .mark '\x7b') = true := fun t ht => by
    have hinner := hhead t ht
    simp only [Lexeme.isOuter, Lexeme.isInner, Bool.and_eq_true] at hinner
    exact hinner.1.1.1.1
  have hfront : (head ++ Lexeme.mark '\x7b' :: body).takeWhile (· != .mark '\x7b') = head := by
    rw [List.takeWhile_append_of_pos houter, List.takeWhile_cons]
    simp
  simp only [isFunction, hfront]
  simp

theorem run_opened (hhead : ∀ t ∈ head, t.isOuter = true) (hbody : Nested body)
    (hlinkage : head ≠ [.word "extern", .quoted]) :
    ∃ fresh, run Gather.step {} (head ++ Lexeme.mark '\x7b' :: body) =
      (⟨none, fresh, (visible body).reverse ++ Lexeme.mark '\x7b' :: head.reverse, 1⟩, []) := by
  obtain ⟨before, houter⟩ := collects_outer 0 hhead true []
  obtain ⟨fresh, hnested⟩ :=
    collects_nested 0 hbody false (.mark '\x7b' :: head.reverse)
  have hopen : Gather.step ⟨none, before, head.reverse, 0⟩ (.mark '\x7b') =
      (⟨none, false, .mark '\x7b' :: head.reverse, 1⟩, []) := by
    have hother : ¬head.reverse = [.quoted, .word "extern"] := fun h =>
      hlinkage (by rw [← List.reverse_reverse head, h]; rfl)
    simp [Gather.step, Gather.code, hother]
  rw [visible_of_outer hhead, List.append_nil] at houter
  exact ⟨fresh, by rw [run_append, houter, run_cons, hopen, hnested]; rfl⟩

/-- A function ends with its body. -/
theorem gathers_function (hhead : ∀ t ∈ head, t.isOuter = true) (hcall : .mark '(' ∈ head)
    (hbody : Nested body) :
    Gathers (head ++ Lexeme.mark '\x7b' :: (body ++ [Lexeme.mark '\x7d', .lineBreak]))
      [.declaration (head ++ Lexeme.mark '\x7b' :: (visible body ++ [Lexeme.mark '\x7d']))] := by
  have hlinkage : head ≠ [.word "extern", .quoted] := by
    rintro rfl
    exact absurd hcall (by decide)
  obtain ⟨fresh, hopened⟩ := run_opened hhead hbody hlinkage
  have hfunction :
      isFunction (head ++ Lexeme.mark '\x7b' :: (visible body ++ [Lexeme.mark '\x7d'])) = true := by
    rw [isFunction_bracketed hhead]
    exact List.contains_iff_mem.2 hcall
  have hclose : Gather.step
      ⟨none, fresh, (visible body).reverse ++ Lexeme.mark '\x7b' :: head.reverse, 1⟩
      (.mark '\x7d') =
      (⟨none, false, [], 0⟩,
        [.declaration (head ++ Lexeme.mark '\x7b' :: (visible body ++ [Lexeme.mark '\x7d']))]) := by
    simp [Gather.step, Gather.code, hfunction]
  have hall : head ++ Lexeme.mark '\x7b' :: (body ++ [Lexeme.mark '\x7d', .lineBreak]) =
      (head ++ Lexeme.mark '\x7b' :: body) ++ [Lexeme.mark '\x7d', .lineBreak] := by simp
  rw [Gathers, hall, run_append, hopened, run_cons, hclose]
  rfl

/-- What is no function goes on after its brackets, up to a semicolon. -/
theorem gathers_data (tail : List Lexeme) (hhead : ∀ t ∈ head, t.isOuter = true)
    (hdata : .mark '(' ∉ head) (hlinkage : head ≠ [.word "extern", .quoted]) (hbody : Nested body)
    (htail : ∀ t ∈ tail, t.isOuter = true) :
    Gathers (head ++ Lexeme.mark '\x7b' ::
        (body ++ Lexeme.mark '\x7d' :: (tail ++ [Lexeme.mark ';', .lineBreak])))
      [.declaration (head ++ Lexeme.mark '\x7b' :: (visible body ++ Lexeme.mark '\x7d' ::
        (tail ++ [Lexeme.mark ';'])))] := by
  obtain ⟨fresh, hopened⟩ := run_opened hhead hbody hlinkage
  have hfunction : isFunction
      (head ++ Lexeme.mark '\x7b' :: (visible body ++ [Lexeme.mark '\x7d'])) = false := by
    rw [isFunction_bracketed hhead, Bool.eq_false_iff]
    exact fun h => hdata (List.contains_iff_mem.1 h)
  have hclose : Gather.step
      ⟨none, fresh, (visible body).reverse ++ Lexeme.mark '\x7b' :: head.reverse, 1⟩
      (.mark '\x7d') =
      (⟨none, false,
        .mark '\x7d' :: ((visible body).reverse ++ Lexeme.mark '\x7b' :: head.reverse), 0⟩,
        []) := by
    simp [Gather.step, Gather.code, hfunction]
  obtain ⟨after, houter⟩ := collects_outer 0 htail false
    (.mark '\x7d' :: ((visible body).reverse ++ Lexeme.mark '\x7b' :: head.reverse))
  have hend (ds : List Lexeme) : run Gather.step ⟨none, after, ds, 0⟩ [.mark ';', .lineBreak] =
      ({}, [.declaration (ds.reverse ++ [Lexeme.mark ';'])]) := by
    simp [run, Gather.step, Gather.code]
  have hall : head ++ Lexeme.mark '\x7b' ::
        (body ++ Lexeme.mark '\x7d' :: (tail ++ [Lexeme.mark ';', .lineBreak])) =
      (head ++ Lexeme.mark '\x7b' :: body) ++ Lexeme.mark '\x7d' ::
        (tail ++ [Lexeme.mark ';', .lineBreak]) := by simp
  rw [Gathers, hall, run_append, hopened, run_cons, hclose, run_append, houter, hend,
    visible_of_outer htail]
  simp

end Declaration

/-! ## Functions -/

theorem outer_literal (x : Float) : ∀ t ∈ literalLexemes x, t.isOuter = true := by
  unfold literalLexemes
  split <;> simp [Lexeme.isOuter, Lexeme.isInner]

theorem outer_type (type : TypeName) : ∀ t ∈ type.lexemes, t.isOuter = true := by
  cases type <;> decide

theorem outer_declarator (type : TypeName) : ∀ t ∈ type.declarator, t.isOuter = true := by
  cases type <;> decide

theorem outer_expr (e : Expr Float) : ∀ t ∈ e.lexemes, t.isOuter = true := by
  induction e with
  | name x | quoted s | natural n => exact List.forall_mem_singleton.2 rfl
  | real x => exact outer_literal x
  | entry table index iht ihi =>
    simp only [Expr.lexemes, List.forall_mem_append, List.forall_mem_cons]
    exact ⟨iht, rfl, ihi, rfl, List.forall_mem_nil _⟩
  | member object field ih =>
    simp only [Expr.lexemes, List.forall_mem_append, List.forall_mem_cons]
    exact ⟨ih, rfl, rfl, rfl, List.forall_mem_nil _⟩
  | paren e ih =>
    simp only [Expr.lexemes, List.forall_mem_append, List.forall_mem_cons]
    exact ⟨rfl, ih, rfl, List.forall_mem_nil _⟩
  | cast type e ih =>
    simp only [Expr.lexemes, List.forall_mem_append, List.forall_mem_cons]
    exact ⟨rfl, outer_type type, rfl, ih⟩
  | binary op a b iha ihb =>
    simp only [Expr.lexemes, List.forall_mem_append, List.forall_mem_cons]
    exact ⟨iha, by cases op <;> rfl, ihb⟩
  | sizeOf type =>
    simp only [Expr.lexemes, List.forall_mem_append, List.forall_mem_cons]
    exact ⟨rfl, rfl, outer_type type, rfl, List.forall_mem_nil _⟩

theorem forall_withCommas {P : Lexeme → Prop} (hcomma : P (.mark ',')) {items : List (List Lexeme)}
    (h : ∀ ts ∈ items, ∀ t ∈ ts, P t) : ∀ t ∈ withCommas items, P t := by
  induction items with
  | nil => exact List.forall_mem_nil _
  | cons us more ih =>
    obtain ⟨hus, hmore⟩ := List.forall_mem_cons.1 h
    cases more with
    | nil => exact hus
    | cons vs more =>
      exact List.forall_mem_append.2 ⟨hus, List.forall_mem_cons.2 ⟨hcomma, ih hmore⟩⟩

theorem outer_withCommas {items : List (List Lexeme)}
    (h : ∀ ts ∈ items, ∀ t ∈ ts, t.isOuter = true) : ∀ t ∈ withCommas items, t.isOuter = true :=
  forall_withCommas (P := fun t => t.isOuter = true) rfl h

theorem outer_call (function : String) (args : List (Expr Float)) :
    ∀ t ∈ callLexemes function args, t.isOuter = true := by
  have hargs : ∀ t ∈ withCommas (args.map Expr.lexemes), t.isOuter = true :=
    outer_withCommas (List.forall_mem_map.2 fun e _ => outer_expr e)
  simp only [callLexemes, List.forall_mem_append, List.forall_mem_cons]
  exact ⟨rfl, rfl, hargs, rfl, List.forall_mem_nil _⟩

theorem outer_rhs (value : Rhs Float) : ∀ t ∈ value.lexemes, t.isOuter = true := by
  cases value with
  | expr e => exact outer_expr e
  | call function args => exact outer_call function args

theorem nested_outer {ts : List Lexeme} (h : ∀ t ∈ ts, t.isOuter = true) : Nested ts :=
  nested_of_inner fun t ht => by
    have houter := h t ht
    simp only [Lexeme.isOuter, Bool.and_eq_true] at houter
    exact houter.1.1

/-- What ends a statement is nested. -/
theorem nested_ended : Nested [.mark ';', .lineBreak] := nested_of_inner (by decide)

mutual

theorem nested_stmt (s : Stmt Float) : Nested s.lexemes := by
  cases s with
  | declare type names =>
    have hnames : ∀ t ∈ withCommas (names.map fun x => [.word x]), t.isOuter = true :=
      outer_withCommas (List.forall_mem_map.2 fun x _ => List.forall_mem_singleton.2 rfl)
    exact (nested_outer (outer_declarator type)).append ((nested_outer hnames).append nested_ended)
  | define type name value =>
    exact (nested_outer (outer_declarator type)).append (.cons rfl (.cons rfl
      ((nested_outer (outer_expr value)).append nested_ended)))
  | assign target value =>
    exact (nested_outer (outer_expr target)).append (.cons rfl
      ((nested_outer (outer_rhs value)).append nested_ended))
  | accumulate target value =>
    exact (nested_outer (outer_expr target)).append (.cons rfl (.cons rfl
      ((nested_outer (outer_rhs value)).append nested_ended)))
  | increment name => exact .cons rfl (.cons rfl (.cons rfl nested_ended))
  | when condition action =>
    exact .cons rfl (.cons rfl ((nested_outer (outer_expr condition)).append
      (.cons rfl (nested_stmt action))))
  | count counter stepFirst bound body =>
    have hstep : Nested (if stepFirst then [.mark '+', .mark '+', .word counter]
        else [.word counter, .mark '+', .mark '+']) := by
      cases stepFirst <;> exact .cons rfl (.cons rfl (.cons rfl .nil))
    exact .cons rfl (.cons rfl (.cons rfl (.cons rfl (.cons rfl (.cons rfl (.cons rfl (.cons rfl
      ((nested_outer (outer_expr bound)).append (.cons rfl (hstep.append (.cons rfl
        (@Nested.bracketed (.lineBreak :: Stmt.blockLexemes body) _ (.cons rfl (nested_block body))
          (.cons rfl .nil)))))))))))))
  | call function args => exact (nested_outer (outer_call function args)).append nested_ended
  | give value => exact .cons rfl ((nested_outer (outer_expr value)).append nested_ended)
  | discard name =>
    exact .cons rfl (.cons rfl (.cons rfl (.cons rfl nested_ended)))

theorem nested_block (body : List (Stmt Float)) : Nested (Stmt.blockLexemes body) := by
  cases body with
  | nil => exact .nil
  | cons s rest => exact (nested_stmt s).append (nested_block rest)

end

/-- The lexemes of a function up to its body. -/
def Function.head (f : Function Float) : List Lexeme :=
  .word "static" :: ((f.returns.map TypeName.lexemes).getD [.word "void"] ++
    .word f.name :: .mark '(' ::
      (withCommas (f.params.map fun p => p.1.declarator ++ [.word p.2]) ++ [.mark ')']))

theorem lexemes_function (f : Function Float) : f.lexemes =
    f.head ++ Lexeme.mark '\x7b' :: ((.lineBreak :: Stmt.blockLexemes f.body) ++
      [.mark '\x7d', .lineBreak]) := by
  simp [Function.lexemes, Function.head]

/-- A function is gathered to one declaration. -/
theorem gathers_lexemes (f : Function Float) :
    Gathers f.lexemes [.declaration (visible f.lexemes)] := by
  have hparams : ∀ t ∈ withCommas (f.params.map fun p => p.1.declarator ++ [Lexeme.word p.2]),
      t.isOuter = true :=
    outer_withCommas (List.forall_mem_map.2 fun p _ => List.forall_mem_append.2
      ⟨outer_declarator p.1, List.forall_mem_singleton.2 rfl⟩)
  have hreturns : ∀ t ∈ (f.returns.map TypeName.lexemes).getD [.word "void"],
      t.isOuter = true := by
    cases f.returns with
    | none => exact List.forall_mem_singleton.2 rfl
    | some type => exact outer_type type
  have hhead : ∀ t ∈ f.head, t.isOuter = true := by
    simp only [Function.head, List.forall_mem_cons, List.forall_mem_append]
    exact ⟨rfl, hreturns, rfl, rfl, hparams, rfl, List.forall_mem_nil _⟩
  have hcall : .mark '(' ∈ f.head := by simp [Function.head]
  have hbody : Nested (.lineBreak :: Stmt.blockLexemes f.body) := .cons rfl (nested_block f.body)
  have hvisible : visible f.lexemes = f.head ++ Lexeme.mark '\x7b' ::
      (visible (.lineBreak :: Stmt.blockLexemes f.body) ++ [Lexeme.mark '\x7d']) := by
    rw [lexemes_function, visible_append, visible_of_outer hhead, ← List.singleton_append,
      visible_append, visible_append]
    rfl
  rw [hvisible, lexemes_function]
  exact gathers_function hhead hcall hbody

end Source
end LtiUnit
