import LtiUnit.Command.Line
import LtiUnit.Command.Value
import LtiUnit.Proofs.Arguments

/-!
# LtiUnit.Proofs.ListOptions

Lists on the command line. A list may be given as a single number, which may be negative, so it may
start with a hyphen. Behind an option of a transfer function such a text is not understood; attached
to the option it is. The other options for lists take it either way.

* `digit_of_list` — a list that starts with a hyphen goes on with a digit.
* `Name.Begins.read` — what a command line comes to from one of its options on.
* `separate_iff_attached` — where a list behind its option is read as one that is attached.
-/

namespace LtiUnit

namespace Json

/-- A text that starts with a hyphen is none in JSON notation unless a digit follows. -/
theorem scan_hyphen {cs : List Char} (h : ∀ c ds, cs = c :: ds → c.isDigit = false) :
    Token.scan ('-' :: cs) = none := by
  have hwhole : (cs.takeWhile isNumberChar).takeWhile Char.isDigit = [] := by
    cases cs with
    | nil => rfl
    | cons c cs =>
      have hc := h c cs rfl
      rw [List.takeWhile_cons]
      split
      · rw [List.takeWhile_cons, hc]
        rfl
      · rfl
  have hnumber : Numeral.ofChars? ('-' :: cs.takeWhile isNumberChar) = none := by
    simp only [Numeral.ofChars?, hwhole]
    rfl
  rw [Token.scan]
  simp [isBlank, mark?, hnumber]

end Json

namespace Command

theorem digit_of_list {name s : String} {xs : List Float} (h : list name s = .ok xs)
    {cs : List Char} (hs : s.toList = '-' :: cs) : ∃ c ds, cs = c :: ds ∧ c.isDigit = true := by
  refine Classical.not_not.1 fun hnone => ?_
  have hscan : Json.Token.scan s.toList = none := by
    rw [hs]
    exact Json.scan_hyphen fun c ds hcs => Bool.eq_false_iff.2 fun hc => hnone ⟨c, ds, hcs, hc⟩
  have hdatum : Json.datum? s = none := by
    rw [Json.datum?, Json.parse?, hscan]
    rfl
  rw [list, hdatum] at h
  cases h

/-! ## Options for lists -/

inductive ListOption where
  | num | den | zeros | poles | x0 | u0
  deriving DecidableEq, Repr

namespace ListOption

def name : ListOption → String
  | .num => "num"
  | .den => "den"
  | .zeros => "zeros"
  | .poles => "poles"
  | .x0 => "x0"
  | .u0 => "u0"

def letter? : ListOption → Option Char
  | .num => some 'n'
  | .den => some 'd'
  | .zeros => some 'z'
  | .poles => some 'p'
  | .x0 | .u0 => none

/-- The commands that an option belongs to. -/
def commands : ListOption → List Name
  | .num | .den => [.tf]
  | .zeros | .poles => [.zpk]
  | .x0 | .u0 => [.ss, .tf, .zpk, .pid, .build]

/-- Whether its value may start with a hyphen where it stands by itself. -/
def hyphens : ListOption → Bool
  | .num | .den => false
  | .zeros | .poles | .x0 | .u0 => true

/-- The text that a command line gives for an option. -/
def text? : ListOption → Task → Option String
  | .num, .model (.transferFunction s _) _ => some s
  | .den, .model (.transferFunction _ s) _ => some s
  | .zeros, .model (.zeroPoleGain s _ _) _ => some s
  | .poles, .model (.zeroPoleGain _ s _) _ => some s
  | .x0, .model _ options => options.x0
  | .u0, .model _ options => options.u0
  | _, _ => none

variable {o : ListOption} {n : Name}

theorem ofLong?_name (h : n ∈ o.commands) :
    n.grammar.ofLong? o.name = some ⟨o.name, o.letter?, .value .text o.hyphens⟩ := by
  revert h
  cases o <;> cases n <;> decide

theorem isLong (h : n ∈ o.commands) :
    Progress.IsLong n.grammar o.name ⟨o.name, o.letter?, .value .text o.hyphens⟩ where
  nonempty := by cases o <;> decide
  noEquals := by cases o <;> decide
  found := ofLong?_name h

theorem text?_task (h : n ∈ o.commands) {p : Progress} {value : String}
    (hp : p.found.lookup o.name = some value) : o.text? (n.task p) = some value := by
  have hfound : p.text? o.name = some value := hp
  cases o with
  | num | den =>
    obtain rfl : n = .tf := List.mem_singleton.1 h
    exact congrArg (fun s => some (s.getD "")) hfound
  | zeros | poles =>
    obtain rfl : n = .zpk := List.mem_singleton.1 h
    exact congrArg (fun s => some (s.getD "")) hfound
  | x0 | u0 =>
    cases n with
    | doctor => exact absurd h (by decide)
    | _ => exact hfound

end ListOption

/-- No option goes by a digit. -/
theorem ofShort?_digit (n : Name) {c : Char} (hc : c.isDigit = true) :
    n.grammar.ofShort? c = none := by
  have hletters : ∀ o ∈ n.grammar.options, o.short.all (fun letter => !letter.isDigit) = true := by
    cases n <;> decide
  refine List.find?_eq_none.2 fun o ho heq => ?_
  have hshort := hletters o ho
  rw [eq_of_beq heq] at hshort
  simp [hc] at hshort

/-! ## Command lines -/

theorem map_eq_ok_iff {ε α β : Type} {x : Except ε α} {f : α → β} {z : β} :
    x.map f = .ok z ↔ ∃ y, x = .ok y ∧ f y = z := by
  cases x <;> simp [Except.map]

theorem ok_iff_of_toOption {ε α : Type} {x y : Except ε α} (h : x.toOption = y.toOption) (z : α) :
    x = .ok z ↔ y = .ok z := by
  cases x <;> cases y <;> simp_all [Except.toOption]

theorem readUpToCommand_append {g : Grammar} {p q : Progress} {front : List String} {word : String}
    (h : g.readUpToCommand p (front ++ [word]) = .ok (q, some (word, []))) (rest : List String) :
    g.readUpToCommand p (front ++ word :: rest) = .ok (q, some (word, rest)) := by
  induction front generalizing p with
  | nil =>
    simp only [List.nil_append, Grammar.readUpToCommand] at h ⊢
    split at h
    · rename_i hword
      cases h
      rw [if_pos hword]
    · cases hp : p.take g word with
      | error e =>
        rw [hp] at h
        cases h
      | ok p' =>
        rw [hp] at h
        cases h
  | cons arg front ih =>
    simp only [List.cons_append, Grammar.readUpToCommand] at h ⊢
    split at h
    · simp at h
    · rename_i harg
      rw [if_neg harg]
      cases hp : p.take g arg with
      | error e =>
        rw [hp] at h
        cases h
      | ok p' =>
        rw [hp] at h
        exact ih h

/-- The beginnings of command lines of a command up to where one of its options may stand: some
options, the command, and some of its own arguments. -/
inductive Name.Begins (n : Name) : List String → Prop
  | intro (front before : List String) {q p : Progress}
    (hfront : topGrammar.readUpToCommand .start (front ++ [n.text]) = .ok (q, some (n.text, [])))
    (hbefore : before.foldlM (Progress.take n.grammar) .start = .ok p) (hp : p.TakesOption) :
    n.Begins (front ++ n.text :: before)

/-- What a command line comes to depends on how its options are read from there on. -/
theorem Name.Begins.read {n : Name} {pre : List String} (h : n.Begins pre) :
    ∃ verbosity p, p.TakesOption ∧ ∀ rest, Line.read (pre ++ rest) =
      (n.grammar.readFrom rest p).map fun q =>
        ⟨if q.times "verbose" = 0 then verbosity else q.times "verbose", n.task q⟩ := by
  obtain @⟨front, before, q, p, hfront, hbefore, hp⟩ := h
  refine ⟨q.times "verbose", p, hp, fun rest => ?_⟩
  have hname : Name.ofText? n.text = some n := by cases n <;> rfl
  have hread : n.grammar.read (before ++ rest) = n.grammar.readFrom rest p := by
    rw [Grammar.read_eq_readFrom, Grammar.readFrom_append, hbefore]
    rfl
  rw [List.append_assoc, List.cons_append, Line.read, readUpToCommand_append hfront]
  simp only [bind, Except.bind, hname, hread]
  cases n.grammar.readFrom rest p <;> rfl

namespace ListOption

/-- An option with its value attached. -/
def attached (o : ListOption) (s : String) : List String := ["--" ++ o.name ++ "=" ++ s]

/-- An option with its value behind it. -/
def separate (o : ListOption) (s : String) : List String := ["--" ++ o.name, s]

/-- A list with a hyphen in front is not understood behind an option that does not take it. -/
theorem readFrom_refused {o : ListOption} {n : Name} (ho : n ∈ o.commands)
    (hhyphens : o.hyphens = false) {s : String} {xs : List Float} (hs : list o.name s = .ok xs)
    (hhead : s.toList.head? = some '-') {p : Progress} (hp : p.TakesOption) (rest : List String) :
    n.grammar.readFrom (o.separate s ++ rest) p =
      p.settle >>= fun _ => .error .unknownArgument := by
  obtain ⟨cs, hcs⟩ := List.head?_eq_some_iff.1 hhead
  obtain ⟨c, ds, rfl, hc⟩ := digit_of_list hs hcs
  have hlong := isLong ho
  rw [hhyphens] at hlong
  refine Progress.readFrom_refused hp hlong hcs ?_ (ofShort?_digit n hc) rest
  rintro rfl
  cases hc

/-- A list that is attached to its option is what the command line gives for it. Behind its option
it is read in the same way, unless it starts with a hyphen and the option does not take that, and
then the command line is not understood. -/
theorem separate_iff_attached (o : ListOption) (n : Name) (ho : n ∈ o.commands) (s : String)
    (xs : List Float) (hs : list o.name s = .ok xs) (pre : List String) (hpre : n.Begins pre)
    (rest : List String) (line : Line) :
    (Line.read (pre ++ (o.attached s ++ rest)) = .ok line → o.text? line.task = some s) ∧
    (Line.read (pre ++ (o.separate s ++ rest)) = .ok line ↔
      Line.read (pre ++ (o.attached s ++ rest)) = .ok line ∧
        (o.hyphens = true ∨ s.toList.head? ≠ some '-')) ∧
    (Line.read (pre ++ (o.attached s ++ rest)) = .ok line → o.hyphens = false →
      s.toList.head? = some '-' →
        Line.read (pre ++ (o.separate s ++ rest)) = .error .unknownArgument) := by
  obtain ⟨verbosity, p, hp, hread⟩ := hpre.read
  have hlong := isLong ho
  simp only [hread, map_eq_ok_iff]
  refine ⟨?_, ?_, ?_⟩
  · rintro ⟨q, hq, rfl⟩
    exact text?_task ho (Progress.found_of_attached hp hlong hq).2
  · by_cases hvalue : o.hyphens = true ∨ s.toList.head? ≠ some '-'
    · have hplain : o.hyphens = true ∨ ∀ c cs, s.toList ≠ '-' :: c :: cs :=
        hvalue.imp_right fun hhead c cs hcs => hhead (by rw [hcs]; rfl)
      have hsame := Progress.readFrom_separate hp hlong hplain rest
      simp only [separate, attached, List.cons_append, List.nil_append, hvalue, and_true,
        ok_iff_of_toOption hsame]
    · refine iff_of_false ?_ fun h => hvalue h.2
      rintro ⟨q, hq, -⟩
      rw [not_or, Bool.not_eq_true, Classical.not_not] at hvalue
      rw [readFrom_refused ho hvalue.1 hs hvalue.2 hp] at hq
      cases hsettled : p.settle <;> rw [hsettled] at hq <;> cases hq
  · rintro ⟨q, hq, -⟩ hhyphens hhead
    obtain ⟨settled, hsettled⟩ := (Progress.found_of_attached hp hlong hq).1
    rw [readFrom_refused ho hhyphens hs hhead hp, hsettled]
    rfl

theorem list_minusOne (o : ListOption) : list o.name "-1" = .ok [-1] := by
  have hsaid : (list o.name "-1").toOption = (Except.ok [-1] : Except ValueError _).toOption := by
    cases o <;> decide +kernel
  exact (ok_iff_of_toOption hsaid _).2 rfl

/-- A zero of `-1` behind its option. -/
theorem separate_iff_attached_zeros : ∃ line,
    Line.read ["zpk", "--zeros=-1", "--poles", "[-2]"] = .ok line ∧
      Line.read ["zpk", "--zeros", "-1", "--poles", "[-2]"] = .ok line ∧
      zeros.text? line.task = some "-1" := by
  obtain ⟨line, hline⟩ : ∃ line,
      Line.read (["zpk"] ++ (zeros.attached "-1" ++ ["--poles", "[-2]"])) = .ok line := ⟨_, rfl⟩
  have hpre : Name.zpk.Begins ["zpk"] := .intro [] [] rfl rfl ⟨rfl, nofun⟩
  obtain ⟨htext, hsame, -⟩ := separate_iff_attached zeros .zpk (by decide) "-1" [-1]
    (list_minusOne zeros) ["zpk"] hpre ["--poles", "[-2]"] line
  exact ⟨line, hline, hsame.2 ⟨hline, .inl rfl⟩, htext hline⟩

/-- A numerator of `-1` is a list, and it is read if it is attached to its option, but not behind
it. -/
theorem separate_refused_numerator :
    list num.name "-1" = .ok [-1] ∧ Name.tf ∈ num.commands ∧ Name.tf.Begins ["tf"] ∧
      (∃ line, Line.read (["tf"] ++ (num.attached "-1" ++ ["--den", "[1, 10]"])) = .ok line ∧
        num.text? line.task = some "-1") ∧
      Line.read (["tf"] ++ (num.separate "-1" ++ ["--den", "[1, 10]"])) =
        .error .unknownArgument := by
  exact ⟨list_minusOne num, by decide, .intro [] [] rfl rfl ⟨rfl, nofun⟩, ⟨_, rfl, rfl⟩, rfl⟩

end ListOption

end Command
end LtiUnit
