import LtiUnit.Proofs.SourceScanner
import LtiUnit.Proofs.SpelledNumber

/-!
# LtiUnit.Proofs.ScannedText

What is scanned from the pieces that the text of a unit is put together from.
-/

namespace LtiUnit
namespace Source

open Number (Spelling)

/-! ## Runs -/

section Machine

variable {σ ι β : Type} {step : σ → ι → σ × List β}

theorem run_cons (s : σ) (x : ι) (xs : List ι) : run step s (x :: xs) =
    ((run step (step s x).1 xs).1, (step s x).2 ++ (run step (step s x).1 xs).2) := rfl

theorem run_append (s : σ) (xs ys : List ι) : run step s (xs ++ ys) =
    ((run step (run step s xs).1 ys).1,
      (run step s xs).2 ++ (run step (run step s xs).1 ys).2) := by
  induction xs generalizing s with
  | nil => rfl
  | cons x xs ih => rw [List.cons_append, run_cons, ih, run_cons, List.append_assoc]

end Machine

/-! ## Scanning -/

/-- Characters are scanned to some lexemes, and nothing is left unfinished. -/
def Scans (cs : List Char) (ts : List Lexeme) : Prop := run Scan.step .between cs = (.between, ts)

theorem scans_nil : Scans [] [] := rfl

section Scans

variable {cs : List Char} {ts us : List Lexeme}

theorem Scans.append {ds : List Char} (h : Scans ds us) (hcs : Scans cs ts) :
    Scans (ds ++ cs) (us ++ ts) := by
  rw [Scans, run_append, h, hcs]

theorem scans_start {c : Char} (h : Scan.start c = (.between, us)) (hcs : Scans cs ts) :
    Scans (c :: cs) (us ++ ts) := by
  have hstep : Scan.step .between c = (.between, us) := h
  rw [Scans, run_cons, hstep, hcs]

/-- A character that no name and no number goes on with. -/
def isStop (c : Char) : Bool := !isNameRest c && c != '.' && c != '+' && c != '-'

theorem isNameRest_of_isStop {c : Char} (h : isStop c = true) : isNameRest c = false := by
  simp only [isStop, Bool.and_eq_true, Bool.not_eq_true'] at h
  exact h.1.1.1

/-- No number goes on with a stop. -/
theorem numberGoesOn_of_isStop {c : Char} (h : isStop c = true) (last : Char) :
    numberGoesOn last c = false := by
  simp only [isStop, Bool.and_eq_true, Bool.not_eq_true', bne_iff_ne] at h
  simp [numberGoesOn, h]

/-- After a lexeme that a character ends, scanning goes on as from the start. -/
theorem run_after {s : Scan} {t : Lexeme} {c : Char} (h : s.step c = Scan.after t c)
    (hcs : Scans (c :: cs) ts) : run Scan.step s (c :: cs) = (.between, t :: ts) := by
  have hstart : Scan.step .between c = Scan.start c := rfl
  rw [Scans, run_cons, hstart] at hcs
  rw [run_cons, h, Scan.after]
  simp only [Prod.mk.injEq] at hcs ⊢
  rw [List.cons_append, hcs.2]
  exact ⟨hcs.1, rfl⟩

theorem run_word {rest acc : List Char} (h : ∀ c ∈ rest, isNameRest c = true) :
    run Scan.step (.word acc) rest = (.word (rest.reverse ++ acc), []) := by
  induction rest generalizing acc with
  | nil => rfl
  | cons c rest ih =>
    obtain ⟨hc, hrest⟩ := List.forall_mem_cons.1 h
    have hstep : Scan.step (.word acc) c = (.word (c :: acc), []) := if_pos hc
    rw [run_cons, hstep, ih hrest, List.reverse_cons, List.append_assoc]
    rfl

theorem scans_name {x : String} (h : isName x = true) {c : Char} (hc : isNameRest c = false)
    (hcs : Scans (c :: cs) ts) : Scans (x.toList ++ c :: cs) (.word x :: ts) := by
  unfold isName isIdentifier at h
  cases hx : x.toList with
  | nil => simp [hx] at h
  | cons first rest =>
    simp only [hx, Bool.and_eq_true, List.all_eq_true] at h
    have hfirst : Scan.step .between first = (.word [first], []) := if_pos h.1
    have hend : Scan.step (.word (rest.reverse ++ [first])) c = Scan.after (.word x) c := by
      have hword : (rest.reverse ++ [first]).reverse = x.toList := by simp [hx]
      rw [Scan.step, if_neg (by simp [hc]), hword, String.ofList_toList]
    rw [Scans, List.cons_append, run_cons, hfirst, run_append, run_word h.2, run_after hend hcs]
    rfl

end Scans

/-! ## Numbers -/

/-- Characters that a number goes on with. -/
def GoesOn (acc rest : List Char) : Prop :=
  run Scan.step (.number acc) rest = (.number (rest.reverse ++ acc), [])

theorem goesOn_cons {last c : Char} {acc rest : List Char} (h : numberGoesOn last c = true)
    (hrest : GoesOn (c :: last :: acc) rest) : GoesOn (last :: acc) (c :: rest) := by
  have hstep : Scan.step (.number (last :: acc)) c = (.number (c :: last :: acc), []) := if_pos h
  rw [GoesOn, run_cons, hstep, hrest, List.reverse_cons, List.append_assoc]
  rfl

/-- Whether a number goes on with a character, whatever its last character is. -/
def isPlace (c : Char) : Bool := isNameRest c || c == '.'

theorem goesOn_of_places {last : Char} {acc rest more : List Char}
    (h : ∀ c ∈ rest, isPlace c = true)
    (hmore : ∀ last' acc', GoesOn (last' :: acc') more) : GoesOn (last :: acc) (rest ++ more) := by
  induction rest generalizing last acc with
  | nil => exact hmore _ _
  | cons c rest ih =>
    obtain ⟨hc, hrest⟩ := List.forall_mem_cons.1 h
    refine goesOn_cons ?_ (ih hrest)
    rw [isPlace] at hc
    rw [numberGoesOn, hc, Bool.true_or]

theorem isPlace_of_isDigit {c : Char} (h : c.isDigit = true) : isPlace c = true := by
  simp [isPlace, isNameRest, Char.isAlphanum, h]

/-- The characters of a number without sign. -/
def NumberText (cs : List Char) : Prop :=
  ∃ c rest, cs = c :: rest ∧ c.isDigit = true ∧ GoesOn [c] rest

theorem isNameStart_of_isDigit {c : Char} (h : c.isDigit = true) : isNameStart c = false := by
  have hnine : '9'.val.toNat = 57 := rfl
  have hunder : '_'.val.toNat = 95 := rfl
  have hcode : c.toNat = c.val.toNat := rfl
  simp only [Char.isDigit, Bool.and_eq_true, decide_eq_true_eq, UInt32.le_iff_toNat_le] at h
  rw [Bool.eq_false_iff, isNameStart, Ne, Bool.or_eq_true, not_or]
  refine ⟨?_, fun halpha => ?_⟩
  · rintro hline
    rw [beq_iff_eq.1 hline] at h
    omega
  · have hcodes := Text.code_of_isAlpha halpha
    omega

theorem scans_number {cs : List Char} {ts : List Lexeme} {s : String} (h : NumberText s.toList)
    {c : Char} (hc : isStop c = true) (hcs : Scans (c :: cs) ts) :
    Scans (s.toList ++ c :: cs) (.number s :: ts) := by
  obtain ⟨first, rest, hs, hdigit, hrest⟩ := h
  have hfirst : Scan.step .between first = (.number [first], []) := by
    show Scan.start first = _
    rw [Scan.start, if_neg (by simp [isNameStart_of_isDigit hdigit]), if_pos hdigit]
  have hend : Scan.step (.number (rest.reverse ++ [first])) c = Scan.after (.number s) c := by
    have hnumber : (rest.reverse ++ [first]).reverse = s.toList := by simp [hs]
    have hstop : ¬(rest.reverse ++ [first]).head?.any (numberGoesOn · c) = true := by
      cases (rest.reverse ++ [first]).head? <;> simp [numberGoesOn_of_isStop hc]
    rw [Scan.step, if_neg hstop, hnumber, String.ofList_toList]
  rw [Scans, hs, List.cons_append, run_cons, hfirst, run_append, hrest, run_after hend hcs]
  rfl

theorem goesOn_nil (last : Char) (acc : List Char) : GoesOn (last :: acc) [] := rfl

theorem numberText_of_digits {cs : List Char} (h : ∀ c ∈ cs, c.isDigit = true) (hne : cs ≠ []) :
    NumberText cs := by
  obtain ⟨first, rest, rfl⟩ := List.exists_cons_of_ne_nil hne
  obtain ⟨hfirst, hrest⟩ := List.forall_mem_cons.1 h
  refine ⟨first, rest, rfl, hfirst, ?_⟩
  rw [← List.append_nil rest]
  exact goesOn_of_places (fun c hc => isPlace_of_isDigit (hrest c hc)) goesOn_nil

theorem numberText_toString (n : Nat) : NumberText (toString n).toList := by
  refine numberText_of_digits (fun c hc => Text.isDigit_of_mem_toString hc) ?_
  rw [Nat.toString_eq_ofList_toDigits, String.toList_ofList]
  exact Nat.toDigits_ne_nil

/-- The text of a literal is a number, its sign apart. -/
theorem numberText_magnitude (r : Nat) : NumberText (Spelling.literal.writeMagnitude r) := by
  have hpoint : Spelling.literal.pointAlways = true := rfl
  have hzero (k : Nat) : ∀ c ∈ List.replicate k '0', isPlace c = true := fun c hc =>
    isPlace_of_isDigit (Number.isDigit_replicate k c hc)
  have hdigits : ∀ c ∈ Nat.toDigits 10 (Number.shortest Spelling.literal.tie r).coefficient,
      c.isDigit = true := Number.isDigit_toDigits
  have hne : Nat.toDigits 10 (Number.shortest Spelling.literal.tie r).coefficient ≠ [] :=
    Nat.toDigits_ne_nil
  unfold Spelling.writeMagnitude
  rw [if_pos hpoint]
  simp only
  generalize Nat.toDigits 10 (Number.shortest Spelling.literal.tie r).coefficient = digits
    at hdigits hne ⊢
  generalize (Number.shortest Spelling.literal.tie r).exponent = p
  obtain ⟨first, others, rfl⟩ := List.exists_cons_of_ne_nil hne
  obtain ⟨hfirst, hothers⟩ := List.forall_mem_cons.1 hdigits
  have hplaces : ∀ c ∈ others, isPlace c = true := fun c hc => isPlace_of_isDigit (hothers c hc)
  have hall {rest : List Char} (h : ∀ c ∈ rest, isPlace c = true) (last : Char) (acc : List Char) :
      GoesOn (last :: acc) rest := by
    rw [← List.append_nil rest]
    exact goesOn_of_places h goesOn_nil
  split_ifs
  · exact ⟨'0', ['.', '0'], rfl, rfl, rfl⟩
  · unfold Spelling.writePositional
    rw [if_pos hpoint]
    have hend : ∀ c ∈ ['.', '0'], isPlace c = true := List.all_eq_true.1 rfl
    split_ifs with hsmall
    · refine ⟨'0', _, rfl, rfl, hall (List.forall_mem_cons.2 ⟨rfl, ?_⟩) _ _⟩
      exact List.forall_mem_append.2 ⟨hzero _, fun c hc => isPlace_of_isDigit (hdigits c hc)⟩
    · refine ⟨first, _, rfl, hfirst, hall ?_ _ _⟩
      exact List.forall_mem_append.2 ⟨List.forall_mem_append.2 ⟨hplaces, hzero _⟩, hend⟩
    · obtain ⟨n, hn⟩ : ∃ n, (p + (first :: others).length).toNat = n + 1 :=
        Nat.exists_eq_succ_of_ne_zero (by omega)
      rw [hn]
      refine ⟨first, _, rfl, hfirst, hall ?_ _ _⟩
      refine List.forall_mem_append.2 ⟨fun c hc => hplaces c (List.mem_of_mem_take hc), ?_⟩
      exact List.forall_mem_cons.2 ⟨rfl, fun c hc => hplaces c (List.mem_of_mem_drop hc)⟩
  · -- a minus may follow the mark of the power of ten, but nothing else
    have hpower (e : Int) (last : Char) (acc : List Char) : GoesOn (last :: acc) ('e' ::
        if e < 0 then '-' :: Nat.toDigits 10 (-e).toNat
        else Spelling.literal.exponentPlus.toList ++ Nat.toDigits 10 e.toNat) := by
      refine goesOn_cons (by simp [numberGoesOn, isNameRest, Char.isAlphanum]) ?_
      have htoDigits (n : Nat) : ∀ c ∈ Nat.toDigits 10 n, isPlace c = true := fun c hc =>
        isPlace_of_isDigit (Number.isDigit_toDigits c hc)
      split_ifs
      · exact goesOn_cons rfl (hall (htoDigits _) _ _)
      · exact hall (htoDigits _) _ _
    unfold Spelling.writeScientific
    cases others with
    | nil => exact ⟨first, _, rfl, hfirst, hpower _ _ _⟩
    | cons second others =>
      refine ⟨first, '.' :: ((second :: others) ++ _), rfl, hfirst, goesOn_cons ?_ ?_⟩
      · simp [numberGoesOn]
      · exact goesOn_of_places hplaces (hpower _)

/-- The lexemes of a double: its sign is a mark of its own. -/
def literalLexemes (x : Float) : List Lexeme :=
  match Number.view x with
  | .finite true r => [.mark '-', .number (String.ofList (Spelling.literal.writeMagnitude r))]
  | .finite false r => [.number (String.ofList (Spelling.literal.writeMagnitude r))]
  | _ => []

theorem scans_literal {cs : List Char} {ts : List Lexeme} {x : Float} (hx : x.isFinite = true)
    {c : Char} (hc : isStop c = true) (hcs : Scans (c :: cs) ts) :
    Scans ((Spelling.literal.text x).toList ++ c :: cs) (literalLexemes x ++ ts) := by
  obtain ⟨negative, r, hview⟩ := Number.view_of_isFinite hx
  have hnumber : Scans (Spelling.literal.writeMagnitude r ++ c :: cs)
      (.number (String.ofList (Spelling.literal.writeMagnitude r)) :: ts) := by
    have htext := numberText_magnitude r
    rw [← String.toList_ofList (l := Spelling.literal.writeMagnitude r)] at htext
    have hscans := scans_number htext hc hcs
    rwa [String.toList_ofList] at hscans
  rw [Spelling.text, String.toList_ofList, Spelling.chars, literalLexemes, hview]
  cases negative with
  | false => exact hnumber
  | true =>
    have hmark : Scan.start '-' = (.between, [.mark '-']) := rfl
    have hsigned := scans_start hmark hnumber
    exact hsigned

/-! ## Quotes and comments -/

theorem run_quoted {rest : List Char} (h : ∀ c ∈ rest, c ≠ '\\' ∧ c ≠ '"') :
    run Scan.step (.quoted '"' false) rest = (.quoted '"' false, []) := by
  induction rest with
  | nil => rfl
  | cons c rest ih =>
    obtain ⟨hc, hrest⟩ := List.forall_mem_cons.1 h
    have hstep : Scan.step (.quoted '"' false) c = (.quoted '"' false, []) := by
      rw [Scan.step, if_neg hc.1, if_neg hc.2]
    rw [run_cons, hstep, ih hrest]
    rfl

/-- Characters that can stand in quotes as they are. -/
def isQuotable (c : Char) : Bool := c != '\\' && c != '"'

theorem scans_quoted {s : String} (h : Text.Only isQuotable s) {cs : List Char}
    {ts : List Lexeme} (hcs : Scans cs ts) :
    Scans ('"' :: (s.toList ++ '"' :: cs)) (.quoted :: ts) := by
  have hrest : ∀ c ∈ s.toList, c ≠ '\\' ∧ c ≠ '"' := fun c hc => by
    simpa [isQuotable] using h c hc
  have hopen : Scan.step .between '"' = (.quoted '"' false, []) := rfl
  have hclose : Scan.step (.quoted '"' false) '"' = (.between, [.quoted]) := rfl
  rw [Scans, run_cons, hopen, run_append, run_quoted hrest, run_cons, hclose, hcs]
  rfl

/-- A comment goes on as long as no slash comes. -/
theorem run_comment {rest : List Char} (h : '/' ∉ rest) (star : Bool) :
    ∃ star', run Scan.step (.comment star) rest = (.comment star', []) := by
  induction rest generalizing star with
  | nil => exact ⟨star, rfl⟩
  | cons c rest ih =>
    rw [List.mem_cons, not_or] at h
    have hstep : Scan.step (.comment star) c = (.comment (c == '*'), []) := by
      rw [Scan.step, if_neg (by simp [Ne.symm h.1])]
    obtain ⟨star', hrest⟩ := ih h.2 (c == '*')
    exact ⟨star', by rw [run_cons, hstep, hrest]; rfl⟩

theorem scans_comment {inner : List Char} (h : '/' ∉ inner) {cs : List Char} {ts : List Lexeme}
    (hcs : Scans cs ts) : Scans ('/' :: '*' :: (inner ++ '*' :: '/' :: cs)) ts := by
  have hopen : run Scan.step .between ['/', '*'] = (.comment false, []) := rfl
  have hclose (star : Bool) : run Scan.step (.comment star) ['*', '/'] = (.between, []) := by
    cases star <;> rfl
  obtain ⟨star, hinner⟩ := run_comment h false
  have hall : '/' :: '*' :: (inner ++ '*' :: '/' :: cs) =
      ['/', '*'] ++ (inner ++ (['*', '/'] ++ cs)) := rfl
  rw [Scans, hall, run_append, hopen, run_append, hinner, run_append, hclose, hcs]
  rfl

/-! ## Code -/

def TypeName.lexemes : TypeName → List Lexeme
  | .real => [.word "fmi2Real"]
  | .size => [.word "size_t"]
  | .reference => [.word "fmi2ValueReference"]
  | .component => [.word "ModelInstance"]
  | .reals => [.word "const", .word "fmi2Real"]

def Operator.mark : Operator → Char
  | .add => '+'
  | .multiply => '*'
  | .divide => '/'
  | .less => '<'

def Expr.lexemes : Expr Float → List Lexeme
  | .name x => [.word x]
  | .natural n => [.number (toString n)]
  | .real x => literalLexemes x
  | .quoted _ => [.quoted]
  | .entry table index => table.lexemes ++ .mark '[' :: (index.lexemes ++ [.mark ']'])
  | .member object field => object.lexemes ++ [.mark '-', .mark '>', .word field]
  | .paren e => .mark '(' :: (e.lexemes ++ [.mark ')'])
  | .cast type e => .mark '(' :: (type.lexemes ++ .mark ')' :: e.lexemes)
  | .binary op a b => a.lexemes ++ .mark op.mark :: b.lexemes
  | .sizeOf type => .word "sizeof" :: .mark '(' :: (type.lexemes ++ [.mark ')'])

/-- Whether the names in an expression are names, its numbers are finite and its strings can be
quoted as they are. -/
def Expr.isLegible : Expr Float → Bool
  | .name x => isName x
  | .natural _ | .sizeOf _ => true
  | .real x => x.isFinite
  | .quoted s => s.toList.all isQuotable
  | .entry table index => table.isLegible && index.isLegible
  | .member (.name x) field => isName x && isName field
  | .member _ _ => false
  | .paren e | .cast _ e => e.isLegible
  | .binary _ a b => a.isLegible && b.isLegible

theorem scans_mark {c : Char} {cs : List Char} {ts : List Lexeme}
    (h : Scan.start c = (.between, [.mark c])) (hcs : Scans cs ts) :
    Scans (c :: cs) (.mark c :: ts) :=
  scans_start h hcs

theorem scans_blank {cs : List Char} {ts : List Lexeme} (hcs : Scans cs ts) :
    Scans (' ' :: cs) ts :=
  Scans.append (rfl : Scans [' '] []) hcs

theorem scans_stem (type : TypeName) {c : Char} (hc : isNameRest c = false) {cs : List Char}
    {ts : List Lexeme} (hcs : Scans (c :: cs) ts) :
    Scans (type.stem.toList ++ c :: cs) (type.lexemes ++ ts) := by
  cases type with
  | reals =>
    have hconst : "const fmi2Real".toList = "const".toList ++ ' ' :: "fmi2Real".toList := by decide
    rw [TypeName.stem, hconst, List.append_assoc]
    exact scans_name (by decide) (by decide) (scans_blank (scans_name (by decide) hc hcs))
  | _ => exact scans_name (by decide) hc hcs

theorem scans_operator (op : Operator) {cs : List Char} {ts : List Lexeme} (hcs : Scans cs ts) :
    Scans (' ' :: (op.text.toList ++ ' ' :: cs)) (.mark op.mark :: ts) := by
  cases op with
  | add => exact Scans.append (rfl : Scans " + ".toList [.mark '+']) hcs
  | multiply => exact Scans.append (rfl : Scans " * ".toList [.mark '*']) hcs
  | divide => exact Scans.append (rfl : Scans " / ".toList [.mark '/']) hcs
  | less => exact Scans.append (rfl : Scans " < ".toList [.mark '<']) hcs

/-- A text is scanned to some lexemes wherever a stop comes after it. -/
def Stands (s : String) (us : List Lexeme) : Prop :=
  ∀ c cs ts, isStop c = true → Scans (c :: cs) ts → Scans (s.toList ++ c :: cs) (us ++ ts)

theorem stands_expr {e : Expr Float} (h : e.isLegible = true) : Stands e.text e.lexemes := by
  intro c cs ts hc hcs
  induction e generalizing c cs ts with
  | name x => exact scans_name h (isNameRest_of_isStop hc) hcs
  | natural n => exact scans_number (numberText_toString n) hc hcs
  | real x => exact scans_literal h hc hcs
  | quoted s =>
    have hs : Text.Only isQuotable s := List.all_eq_true.1 h
    have htext : (Expr.quoted s).text.toList ++ c :: cs = '"' :: (s.toList ++ '"' :: c :: cs) := by
      simp [Expr.text]
    rw [htext]
    exact scans_quoted hs hcs
  | entry table index iht ihi =>
    obtain ⟨htable, hindex⟩ := Bool.and_eq_true_iff.1 h
    have htext : (Expr.entry table index).text.toList ++ c :: cs =
        table.text.toList ++ '[' :: (index.text.toList ++ ']' :: c :: cs) := by
      simp [Expr.text]
    rw [htext, Expr.lexemes]
    simp only [List.append_assoc, List.cons_append, List.nil_append]
    exact iht htable _ _ _ rfl (scans_mark rfl (ihi hindex _ _ _ rfl (scans_mark rfl hcs)))
  | member object field ih =>
    cases object with
    | name x =>
      obtain ⟨hx, hfield⟩ := Bool.and_eq_true_iff.1 h
      have htext : (Expr.member (.name x) field).text.toList ++ c :: cs =
          x.toList ++ '-' :: '>' :: (field.toList ++ c :: cs) := by
        simp [Expr.text]
      rw [htext]
      exact scans_name hx rfl (scans_mark rfl (scans_mark rfl
        (scans_name hfield (isNameRest_of_isStop hc) hcs)))
    | _ => cases h
  | paren e ih =>
    have htext : (Expr.paren e).text.toList ++ c :: cs =
        '(' :: (e.text.toList ++ ')' :: c :: cs) := by
      simp [Expr.text]
    rw [htext, Expr.lexemes]
    simp only [List.append_assoc, List.cons_append, List.nil_append]
    exact scans_mark rfl (ih h _ _ _ rfl (scans_mark rfl hcs))
  | cast type e ih =>
    have htext : (Expr.cast type e).text.toList ++ c :: cs =
        '(' :: (type.stem.toList ++ ')' :: (e.text.toList ++ c :: cs)) := by
      simp [Expr.text]
    rw [htext, Expr.lexemes]
    simp only [List.append_assoc, List.cons_append]
    exact scans_mark rfl (scans_stem type rfl (scans_mark rfl (ih h _ _ _ hc hcs)))
  | binary op a b iha ihb =>
    obtain ⟨ha, hb⟩ := Bool.and_eq_true_iff.1 h
    have htext : (Expr.binary op a b).text.toList ++ c :: cs =
        a.text.toList ++ ' ' :: (op.text.toList ++ ' ' :: (b.text.toList ++ c :: cs)) := by
      simp [Expr.text]
    rw [htext, Expr.lexemes]
    simp only [List.append_assoc, List.cons_append]
    exact iha ha _ _ _ rfl (scans_operator op (ihb hb _ _ _ hc hcs))
  | sizeOf type =>
    have htext : (Expr.sizeOf type).text.toList ++ c :: cs =
        "sizeof".toList ++ '(' :: (type.stem.toList ++ ')' :: c :: cs) := by
      simp [Expr.text]
    rw [htext, Expr.lexemes]
    simp only [List.append_assoc, List.cons_append, List.nil_append]
    exact scans_name (by decide) rfl (scans_mark rfl (scans_stem type rfl (scans_mark rfl hcs)))

/-- Lexemes with commas between them. -/
def withCommas : List (List Lexeme) → List Lexeme
  | [] => []
  | [us] => us
  | us :: more => us ++ .mark ',' :: withCommas more

theorem stands_separated {α : Type} {text : α → String} {lexemes : α → List Lexeme} {xs : List α}
    (h : ∀ x ∈ xs, Stands (text x) (lexemes x)) :
    Stands (Text.separated ", " (xs.map text)) (withCommas (xs.map lexemes)) := by
  intro c cs ts hc hcs
  induction xs with
  | nil => exact hcs
  | cons x xs ih =>
    obtain ⟨hx, hxs⟩ := List.forall_mem_cons.1 h
    cases xs with
    | nil => exact hx c cs ts hc hcs
    | cons y xs =>
      have htext : (Text.separated ", " ((x :: y :: xs).map text)).toList ++ c :: cs =
          (text x).toList ++ ',' :: ' ' ::
            ((Text.separated ", " ((y :: xs).map text)).toList ++ c :: cs) := by
        rw [List.map_cons, List.map_cons, Text.separated, String.intercalate_cons_cons,
          String.toList_append, String.toList_append, ← List.map_cons, List.append_assoc,
          List.append_assoc]
        rfl
      rw [htext, List.map_cons, List.map_cons, withCommas, List.append_assoc, List.cons_append]
      · exact hx _ _ _ rfl (scans_mark rfl (scans_blank (ih hxs)))
      · exact List.cons_ne_nil _ _

def callLexemes (function : String) (args : List (Expr Float)) : List Lexeme :=
  .word function :: .mark '(' :: (withCommas (args.map Expr.lexemes) ++ [Lexeme.mark ')'])

theorem stands_call {function : String} {args : List (Expr Float)} (hf : isName function = true)
    (hargs : ∀ e ∈ args, e.isLegible = true) :
    Stands (callText function args) (callLexemes function args) := by
  intro c cs ts hc hcs
  have htext : (callText function args).toList ++ c :: cs = function.toList ++ '(' ::
      ((Text.separated ", " (args.map Expr.text)).toList ++ ')' :: c :: cs) := by
    simp [callText]
  rw [htext, callLexemes]
  simp only [List.append_assoc, List.cons_append, List.nil_append]
  exact scans_name hf rfl (scans_mark rfl (stands_separated (fun e he => stands_expr (hargs e he))
    _ _ _ rfl (scans_mark rfl hcs)))

def Rhs.lexemes : Rhs Float → List Lexeme
  | .expr e => e.lexemes
  | .call function args => callLexemes function args

def Rhs.isLegible : Rhs Float → Bool
  | .expr e => e.isLegible
  | .call function args => isName function && args.all Expr.isLegible

theorem stands_rhs {value : Rhs Float} (h : value.isLegible = true) :
    Stands value.text value.lexemes := by
  cases value with
  | expr e => exact stands_expr h
  | call function args =>
    obtain ⟨hf, hargs⟩ := Bool.and_eq_true_iff.1 h
    exact stands_call hf (List.all_eq_true.1 hargs)

/-- What comes before the names that are declared with a type. -/
def TypeName.declarator (type : TypeName) : List Lexeme :=
  match type with
  | .component | .reals => type.lexemes ++ [.mark '*']
  | _ => type.lexemes

theorem stands_declaration {type : TypeName} {names : String} {us : List Lexeme}
    (h : Stands names us) : Stands (type.declaration names) (type.declarator ++ us) := by
  intro c cs ts hc hcs
  have hnames := h c cs ts hc hcs
  have hblank : Scans (' ' :: (names.toList ++ c :: cs)) (us ++ ts) := scans_blank hnames
  have hpointer : Scans (' ' :: '*' :: (names.toList ++ c :: cs)) (.mark '*' :: (us ++ ts)) :=
    scans_blank (scans_mark rfl hnames)
  unfold TypeName.declaration TypeName.declarator
  cases type with
  | component | reals =>
    simp only [String.toList_append, List.append_assoc]
    exact scans_stem _ rfl hpointer
  | _ =>
    simp only [String.toList_append, List.append_assoc]
    exact scans_stem _ rfl hblank

/-! ## Statements -/

/-- The characters of lines, each with the line break that ends it. -/
def chars (lines : List String) : List Char := lines.flatMap fun line => line.toList ++ ['\n']

@[simp] theorem chars_nil : chars [] = [] := rfl

@[simp] theorem chars_cons (line : String) (lines : List String) :
    chars (line :: lines) = line.toList ++ '\n' :: chars lines := by
  simp [chars]

@[simp] theorem chars_append (lines more : List String) :
    chars (lines ++ more) = chars lines ++ chars more :=
  List.flatMap_append

mutual

/-- The lexemes of a statement, with the line breaks of all its lines. -/
def Stmt.lexemes : Stmt Float → List Lexeme
  | .declare type names =>
    type.declarator ++ (withCommas (names.map fun x => [.word x]) ++ [.mark ';', .lineBreak])
  | .define type name value =>
    type.declarator ++ .word name :: .mark '=' :: (value.lexemes ++ [.mark ';', .lineBreak])
  | .assign target value =>
    target.lexemes ++ .mark '=' :: (value.lexemes ++ [.mark ';', .lineBreak])
  | .accumulate target value =>
    target.lexemes ++ .mark '+' :: .mark '=' :: (value.lexemes ++ [.mark ';', .lineBreak])
  | .increment name => [.word name, .mark '+', .mark '+', .mark ';', .lineBreak]
  | .when condition action =>
    .word "if" :: .mark '(' :: (condition.lexemes ++ .mark ')' :: action.lexemes)
  | .count counter stepFirst bound body =>
    .word "for" :: .mark '(' :: .word counter :: .mark '=' :: .number "0" :: .mark ';' ::
      .word counter :: .mark '<' :: (bound.lexemes ++ .mark ';' ::
        ((if stepFirst then [.mark '+', .mark '+', .word counter]
          else [.word counter, .mark '+', .mark '+']) ++
        .mark ')' :: .mark '\x7b' :: .lineBreak ::
          (Stmt.blockLexemes body ++ [.mark '\x7d', .lineBreak])))
  | .call function args => callLexemes function args ++ [.mark ';', .lineBreak]
  | .give value => .word "return" :: (value.lexemes ++ [.mark ';', .lineBreak])
  | .discard name =>
    [.mark '(', .word "void", .mark ')', .word name, .mark ';', .lineBreak]

def Stmt.blockLexemes : List (Stmt Float) → List Lexeme
  | [] => []
  | s :: rest => s.lexemes ++ Stmt.blockLexemes rest

end

/-- Whether a statement stands on one line and is no condition itself. -/
def Stmt.isSimple : Stmt Float → Bool
  | .when _ _ | .count _ _ _ _ => false
  | _ => true

mutual

/-- Whether a statement is made of names and legible expressions, and what a condition is put on is
simple. -/
def Stmt.isLegible : Stmt Float → Bool
  | .declare _ names => names.all isName
  | .define _ name value => isName name && value.isLegible
  | .assign target value | .accumulate target value => target.isLegible && value.isLegible
  | .increment name | .discard name => isName name
  | .when condition action => condition.isLegible && action.isLegible && action.isSimple
  | .count counter _ bound body => isName counter && bound.isLegible && Stmt.allLegible body
  | .call function args => isName function && args.all Expr.isLegible
  | .give value => value.isLegible

def Stmt.allLegible : List (Stmt Float) → Bool
  | [] => true
  | s :: rest => s.isLegible && Stmt.allLegible rest

end

theorem scans_indent {indent : String} (h : Text.Only (· == ' ') indent) {cs : List Char}
    {ts : List Lexeme} (hcs : Scans cs ts) : Scans (indent.toList ++ cs) ts := by
  unfold Text.Only at h
  generalize indent.toList = blanks at h ⊢
  induction blanks with
  | nil => exact hcs
  | cons c blanks ih =>
    obtain ⟨hc, hblanks⟩ := List.forall_mem_cons.1 h
    rw [beq_iff_eq.1 hc]
    exact scans_blank (ih hblanks)

theorem scans_lineBreak {cs : List Char} {ts : List Lexeme} (hcs : Scans cs ts) :
    Scans ('\n' :: cs) (.lineBreak :: ts) :=
  Scans.append (rfl : Scans ['\n'] [.lineBreak]) hcs

theorem scans_ended {cs : List Char} {ts : List Lexeme} (hcs : Scans cs ts) :
    Scans (';' :: '\n' :: cs) (.mark ';' :: .lineBreak :: ts) :=
  scans_mark rfl (scans_lineBreak hcs)

theorem stands_name {x : String} (h : isName x = true) : Stands x [.word x] :=
  fun _ _ _ hc hcs => scans_name h (isNameRest_of_isStop hc) hcs

theorem lines_of_isSimple {s : Stmt Float} (h : s.isSimple = true) (indent : String) :
    ∃ line, s.lines indent = [line] := by
  cases s with
  | when condition action => cases h
  | count counter stepFirst bound body => cases h
  | _ => exact ⟨_, rfl⟩

/-- A counter that is raised by one. -/
theorem stands_raised {counter : String} (h : isName counter = true) (stepFirst : Bool) :
    Stands (if stepFirst then "++" ++ counter else counter ++ "++")
      (if stepFirst then [.mark '+', .mark '+', .word counter]
        else [.word counter, .mark '+', .mark '+']) := by
  intro c cs ts hc hcs
  cases stepFirst with
  | true =>
    have htext : ("++" ++ counter).toList ++ c :: cs =
        '+' :: '+' :: (counter.toList ++ c :: cs) := by
      simp
    simp only [if_true, htext]
    exact scans_mark rfl (scans_mark rfl (scans_name h (isNameRest_of_isStop hc) hcs))
  | false =>
    have htext : (counter ++ "++").toList ++ c :: cs =
        counter.toList ++ '+' :: '+' :: c :: cs := by
      simp
    simp only [Bool.false_eq_true, if_false, htext]
    exact scans_name h rfl (scans_mark rfl (scans_mark rfl hcs))

section Compound

variable {indent : String} {cs : List Char} {ts : List Lexeme}
  (hindent : Text.Only (· == ' ') indent)

include hindent

/-- A condition is scanned if the statement that it is put on is. -/
theorem scans_when {condition : Expr Float} {action : Stmt Float}
    (hcondition : condition.isLegible = true) (hsimple : action.isSimple = true)
    (haction : Scans (chars (action.lines "") ++ cs) (action.lexemes ++ ts)) :
    Scans (chars ((Stmt.when condition action).lines indent) ++ cs)
      ((Stmt.when condition action).lexemes ++ ts) := by
  obtain ⟨line, hline⟩ := lines_of_isSimple hsimple ""
  have htext : chars ((Stmt.when condition action).lines indent) ++ cs = indent.toList ++
      ("if".toList ++ ' ' :: '(' :: (condition.text.toList ++ ')' :: ' ' ::
        (chars (action.lines "") ++ cs))) := by
    simp [Stmt.lines, hline]
  have hlexemes : (Stmt.when condition action).lexemes ++ ts = Lexeme.word "if" :: .mark '(' ::
      (condition.lexemes ++ Lexeme.mark ')' :: (action.lexemes ++ ts)) := by
    simp [Stmt.lexemes]
  rw [htext, hlexemes]
  exact scans_indent hindent (scans_name (by decide) rfl (scans_blank (scans_mark rfl
    (stands_expr hcondition _ _ _ rfl (scans_mark rfl (scans_blank haction))))))

/-- A loop is scanned if its body is, with the brace after it. -/
theorem scans_count {counter : String} {bound : Expr Float} {body : List (Stmt Float)}
    (hcounter : isName counter = true) (hbound : bound.isLegible = true) (stepFirst : Bool)
    (hbody : Scans
      (chars (Stmt.block (indent ++ "    ") body) ++ (indent.toList ++ '\x7d' :: '\n' :: cs))
      (Stmt.blockLexemes body ++ Lexeme.mark '\x7d' :: .lineBreak :: ts)) :
    Scans (chars ((Stmt.count counter stepFirst bound body).lines indent) ++ cs)
      ((Stmt.count counter stepFirst bound body).lexemes ++ ts) := by
  have hopened := stands_raised hcounter stepFirst _ _ _ rfl (scans_mark (c := ')') rfl
    (scans_blank (scans_mark (c := '\x7b') rfl (scans_lineBreak hbody))))
  have htext : chars ((Stmt.count counter stepFirst bound body).lines indent) ++ cs =
      indent.toList ++ ("for".toList ++ ' ' :: '(' :: (counter.toList ++ ' ' :: '=' :: ' ' ::
        ("0".toList ++ ';' :: ' ' :: (counter.toList ++ ' ' :: '<' :: ' ' ::
          (bound.text.toList ++ ';' :: ' ' ::
            ((if stepFirst then "++" ++ counter else counter ++ "++").toList ++
              ')' :: ' ' :: '\x7b' :: '\n' :: (chars (Stmt.block (indent ++ "    ") body) ++
                (indent.toList ++ '\x7d' :: '\n' :: cs)))))))) := by
    simp [Stmt.lines]
  have hlexemes : (Stmt.count counter stepFirst bound body).lexemes ++ ts =
      Lexeme.word "for" :: .mark '(' :: .word counter :: .mark '=' :: .number "0" :: .mark ';' ::
        .word counter :: .mark '<' :: (bound.lexemes ++ Lexeme.mark ';' ::
          ((if stepFirst then [Lexeme.mark '+', .mark '+', .word counter]
            else [.word counter, .mark '+', .mark '+']) ++ Lexeme.mark ')' :: .mark '\x7b' ::
            .lineBreak ::
              (Stmt.blockLexemes body ++ Lexeme.mark '\x7d' :: .lineBreak :: ts))) := by
    simp [Stmt.lexemes]
  have hbounded := stands_expr hbound _ _ _ rfl (scans_mark (c := ';') rfl (scans_blank hopened))
  have hcompared := scans_name hcounter rfl (scans_blank (scans_mark (c := '<') rfl
    (scans_blank hbounded)))
  have hstarted := scans_name hcounter rfl (scans_blank (scans_mark (c := '=') rfl (scans_blank
    (scans_number (numberText_toString 0) rfl (scans_mark (c := ';') rfl
      (scans_blank hcompared))))))
  rw [htext, hlexemes]
  exact scans_indent hindent (scans_name (by decide) rfl (scans_blank (scans_mark rfl hstarted)))

end Compound

mutual

theorem scans_stmt (s : Stmt Float) (h : s.isLegible = true) {indent : String}
    (hindent : Text.Only (· == ' ') indent) {cs : List Char} {ts : List Lexeme}
    (hcs : Scans cs ts) : Scans (chars (s.lines indent) ++ cs) (s.lexemes ++ ts) := by
  cases s with
  | declare type names =>
    have hnames : Stands (Text.separated ", " (names.map id))
        (withCommas (names.map fun x => [.word x])) :=
      stands_separated fun x hx => stands_name (List.all_eq_true.1 h x hx)
    rw [List.map_id] at hnames
    have htext : chars ((Stmt.declare type names).lines indent) ++ cs = indent.toList ++
        ((type.declaration (Text.separated ", " names)).toList ++ ';' :: '\n' :: cs) := by
      simp [Stmt.lines]
    have hlexemes : (Stmt.declare type names).lexemes ++ ts = (type.declarator ++
        withCommas (names.map fun x => [.word x])) ++ Lexeme.mark ';' :: .lineBreak :: ts := by
      simp [Stmt.lexemes]
    rw [htext, hlexemes]
    exact scans_indent hindent (stands_declaration hnames _ _ _ rfl (scans_ended hcs))
  | define type name value =>
    obtain ⟨hname, hvalue⟩ := Bool.and_eq_true_iff.1 h
    have htext : chars ((Stmt.define type name value).lines indent) ++ cs = indent.toList ++
        ((type.declaration name).toList ++ ' ' :: '=' :: ' ' ::
          (value.text.toList ++ ';' :: '\n' :: cs)) := by
      simp [Stmt.lines]
    have hlexemes : (Stmt.define type name value).lexemes ++ ts =
        (type.declarator ++ [Lexeme.word name]) ++
          Lexeme.mark '=' :: (value.lexemes ++ Lexeme.mark ';' :: .lineBreak :: ts) := by
      simp [Stmt.lexemes]
    rw [htext, hlexemes]
    exact scans_indent hindent (stands_declaration (stands_name hname) _ _ _ rfl (scans_blank
      (scans_mark rfl (scans_blank (stands_expr hvalue _ _ _ rfl (scans_ended hcs))))))
  | assign target value =>
    obtain ⟨htarget, hvalue⟩ := Bool.and_eq_true_iff.1 h
    have htext : chars ((Stmt.assign target value).lines indent) ++ cs = indent.toList ++
        (target.text.toList ++ ' ' :: '=' :: ' ' :: (value.text.toList ++ ';' :: '\n' :: cs)) := by
      simp [Stmt.lines]
    have hlexemes : (Stmt.assign target value).lexemes ++ ts =
        target.lexemes ++ Lexeme.mark '=' ::
          (value.lexemes ++ Lexeme.mark ';' :: .lineBreak :: ts) := by
      simp [Stmt.lexemes]
    rw [htext, hlexemes]
    exact scans_indent hindent (stands_expr htarget _ _ _ rfl (scans_blank
      (scans_mark rfl (scans_blank (stands_rhs hvalue _ _ _ rfl (scans_ended hcs))))))
  | accumulate target value =>
    obtain ⟨htarget, hvalue⟩ := Bool.and_eq_true_iff.1 h
    have htext : chars ((Stmt.accumulate target value).lines indent) ++ cs = indent.toList ++
        (target.text.toList ++ ' ' :: '+' :: '=' :: ' ' ::
          (value.text.toList ++ ';' :: '\n' :: cs)) := by
      simp [Stmt.lines]
    have hlexemes : (Stmt.accumulate target value).lexemes ++ ts = target.lexemes ++
        Lexeme.mark '+' :: .mark '=' :: (value.lexemes ++ Lexeme.mark ';' :: .lineBreak :: ts) := by
      simp [Stmt.lexemes]
    rw [htext, hlexemes]
    exact scans_indent hindent (stands_expr htarget _ _ _ rfl (scans_blank (scans_mark rfl
      (scans_mark rfl (scans_blank (stands_rhs hvalue _ _ _ rfl (scans_ended hcs)))))))
  | increment name =>
    have htext : chars ((Stmt.increment name).lines indent) ++ cs = indent.toList ++
        (name.toList ++ '+' :: '+' :: ';' :: '\n' :: cs) := by
      simp [Stmt.lines]
    rw [htext]
    exact scans_indent hindent
      (scans_name h rfl (scans_mark rfl (scans_mark rfl (scans_ended hcs))))
  | when condition action =>
    simp only [Stmt.isLegible, Bool.and_eq_true] at h
    obtain ⟨⟨hcondition, haction⟩, hsimple⟩ := h
    exact scans_when hindent hcondition hsimple (scans_stmt action haction (by decide) hcs)
  | count counter stepFirst bound body =>
    simp only [Stmt.isLegible, Bool.and_eq_true] at h
    obtain ⟨⟨hcounter, hbound⟩, hbody⟩ := h
    have hdeeper : Text.Only (· == ' ') (indent ++ "    ") :=
      Text.only_append.2 ⟨hindent, by decide⟩
    exact scans_count hindent hcounter hbound stepFirst (scans_block body hbody hdeeper
      (scans_indent hindent (scans_mark rfl (scans_lineBreak hcs))))
  | call function args =>
    obtain ⟨hf, hargs⟩ := Bool.and_eq_true_iff.1 h
    have htext : chars ((Stmt.call function args).lines indent) ++ cs = indent.toList ++
        ((callText function args).toList ++ ';' :: '\n' :: cs) := by
      simp [Stmt.lines]
    rw [htext, Stmt.lexemes, List.append_assoc]
    exact scans_indent hindent
      (stands_call hf (List.all_eq_true.1 hargs) _ _ _ rfl (scans_ended hcs))
  | give value =>
    have htext : chars ((Stmt.give value).lines indent) ++ cs = indent.toList ++
        ("return".toList ++ ' ' :: (value.text.toList ++ ';' :: '\n' :: cs)) := by
      simp [Stmt.lines]
    rw [htext, Stmt.lexemes, List.cons_append, List.append_assoc]
    exact scans_indent hindent (scans_name (by decide) rfl (scans_blank
      (stands_expr h _ _ _ rfl (scans_ended hcs))))
  | discard name =>
    have htext : chars ((Stmt.discard name).lines indent) ++ cs = indent.toList ++
        '(' :: ("void".toList ++ ')' :: (name.toList ++ ';' :: '\n' :: cs)) := by
      simp [Stmt.lines]
    rw [htext]
    exact scans_indent hindent (scans_mark rfl (scans_name (by decide) rfl (scans_mark rfl
      (scans_name h rfl (scans_ended hcs)))))

theorem scans_block (body : List (Stmt Float)) (h : Stmt.allLegible body = true) {indent : String}
    (hindent : Text.Only (· == ' ') indent) {cs : List Char} {ts : List Lexeme}
    (hcs : Scans cs ts) :
    Scans (chars (Stmt.block indent body) ++ cs) (Stmt.blockLexemes body ++ ts) := by
  cases body with
  | nil => exact hcs
  | cons s rest =>
    obtain ⟨hs, hrest⟩ := Bool.and_eq_true_iff.1 h
    rw [Stmt.block, chars_append, Stmt.blockLexemes, List.append_assoc, List.append_assoc]
    exact scans_stmt s hs hindent (scans_block rest hrest hindent hcs)

end

/-! ## Functions -/

/-- The lexemes of a function, with the line breaks of all its lines. -/
def Function.lexemes (f : Function Float) : List Lexeme :=
  .word "static" :: ((f.returns.map TypeName.lexemes).getD [.word "void"] ++
    Lexeme.word f.name :: .mark '(' ::
      (withCommas (f.params.map fun p => p.1.declarator ++ [Lexeme.word p.2]) ++
        Lexeme.mark ')' :: .mark '\x7b' :: .lineBreak ::
          (Stmt.blockLexemes f.body ++ [Lexeme.mark '\x7d', .lineBreak])))

def Function.isLegible (f : Function Float) : Bool :=
  isName f.name && f.params.all (isName ·.2) && Stmt.allLegible f.body

theorem scans_function {f : Function Float} (h : f.isLegible = true) :
    Scans (chars f.lines) f.lexemes := by
  simp only [Function.isLegible, Bool.and_eq_true] at h
  obtain ⟨⟨hname, hparams⟩, hbody⟩ := h
  have hindent : Text.Only (· == ' ') "    " := by decide
  have hblock := scans_block f.body hbody hindent
    (scans_mark (c := '\x7d') rfl (scans_lineBreak scans_nil))
  have hopened := scans_mark (c := ')') rfl (scans_blank (scans_mark (c := '\x7b') rfl
    (scans_lineBreak hblock)))
  have hall : Stands (Text.separated ", " (f.params.map fun p => p.1.declaration p.2))
      (withCommas (f.params.map fun p => p.1.declarator ++ [Lexeme.word p.2])) :=
    stands_separated fun p hp => stands_declaration (stands_name (List.all_eq_true.1 hparams p hp))
  have hnamed := scans_name hname rfl (scans_mark (c := '(') rfl (hall _ _ _ rfl hopened))
  have hreturns : ∀ {cs ts}, Scans (' ' :: cs) ts → Scans
      (((f.returns.map TypeName.stem).getD "void").toList ++ ' ' :: cs)
      ((f.returns.map TypeName.lexemes).getD [.word "void"] ++ ts) := by
    intro cs ts hcs
    cases f.returns with
    | none => exact scans_name (by decide) rfl hcs
    | some type => exact scans_stem type rfl hcs
  have htext : chars f.lines = "static".toList ++ ' ' ::
      (((f.returns.map TypeName.stem).getD "void").toList ++ ' ' :: (f.name.toList ++ '(' ::
        ((Text.separated ", " (f.params.map fun p => p.1.declaration p.2)).toList ++
          ')' :: ' ' :: '\x7b' :: '\n' :: (chars (Stmt.block "    " f.body) ++
            '\x7d' :: '\n' :: [])))) := by
    simp [Function.lines]
  rw [htext]
  exact scans_name (by decide) rfl (scans_blank (hreturns (scans_blank hnamed)))

end Source
end LtiUnit
