import LtiUnit.Command.Arguments

/-!
# LtiUnit.Proofs.Arguments

Reading arguments, where it makes no difference to what is understood whether a value that is held
is looked at before the next argument or with it. Only which of several errors is reported depends
on that, so outcomes are compared as far as they are successful.

* `looksFirst_readFrom` — what is read from some arguments on.
* `lookup_of_readFrom` — a value that is noted stays.
* `readFrom_separate` — a value behind its option is read as one that is attached, unless it starts
  with a hyphen and the option does not take that.
-/

namespace LtiUnit
namespace Command

/-- Read arguments on from a point. -/
def Grammar.readFrom (g : Grammar) (args : List String) (p : Progress) :
    Except UsageError Progress := do
  let p ← args.foldlM (Progress.take g) p
  p.finish g

theorem Grammar.read_eq_readFrom (g : Grammar) (args : List String) :
    g.read args = g.readFrom args .start := rfl

theorem Grammar.readFrom_append (g : Grammar) (args more : List String) (p : Progress) :
    g.readFrom (args ++ more) p = args.foldlM (Progress.take g) p >>= g.readFrom more := by
  simp only [readFrom, List.foldlM_append, bind_assoc]
  rfl

theorem Grammar.readFrom_cons (g : Grammar) (arg : String) (args : List String) :
    g.readFrom (arg :: args) = fun p => p.take g arg >>= g.readFrom args := by
  funext p
  simp only [readFrom, List.foldlM_cons, bind_assoc]
  rfl

theorem toOption_bind {ε α β : Type} (x : Except ε α) (next : α → Except ε β) :
    (x >>= next).toOption = x.toOption.bind fun y => (next y).toOption := by
  cases x <;> rfl

namespace Progress

variable {g : Grammar} {p q : Progress} {o : OptionSpec}

/-- Whether no option waits for its value. -/
def IsReady (p : Progress) : Prop := ∀ name kind hyphens, p.pending ≠ .waiting name kind hyphens

/-- Whether an option may stand at this point. -/
structure TakesOption (p : Progress) : Prop where
  front : p.trailing = false
  ready : p.IsReady

/-! ## Looking at a value -/

theorem note_eq_ok {name value : String} {kind : ValueKind} (h : p.note name kind value = .ok q) :
    p.found.lookup name = none ∧
      q = { p with found := p.found ++ [(name, value)], pending := .none } := by
  unfold note at h
  cases hfound : p.found.lookup name with
  | some _ =>
    rw [hfound] at h
    cases h
  | none =>
    rw [hfound] at h
    cases hcheck : checkValue kind value with
    | error e =>
      rw [hcheck] at h
      cases h
    | ok _ =>
      rw [hcheck] at h
      cases h
      exact ⟨rfl, rfl⟩

/-- Either there is no value to look at, or the one that is held is noted. -/
theorem settle_eq_ok (h : p.settle = .ok q) :
    (p.pending = .none ∧ q = p) ∨
      ∃ name kind value, p.pending = .holding name kind value ∧ p.note name kind value = .ok q := by
  unfold settle at h
  split at h
  · rename_i hnone
    cases h
    exact .inl ⟨hnone, rfl⟩
  · cases h
  · rename_i hholding
    exact .inr ⟨_, _, _, hholding, h⟩

/-- After a value has been looked at there is none to look at. -/
theorem pending_of_settle (h : p.settle = .ok q) : q.pending = .none := by
  obtain ⟨hnone, rfl⟩ | ⟨_, _, _, -, hnote⟩ := settle_eq_ok h
  · exact hnone
  · rw [(note_eq_ok hnote).2]

theorem trailing_of_settle (h : p.settle = .ok q) : q.trailing = p.trailing := by
  obtain ⟨-, rfl⟩ | ⟨_, _, _, -, hnote⟩ := settle_eq_ok h
  · rfl
  · rw [(note_eq_ok hnote).2]

theorem settle_trailing (p : Progress) :
    { p with trailing := true }.settle = p.settle.map fun q => { q with trailing := true } := by
  rcases p with ⟨found, counted, _ | _ | ⟨name, kind, value⟩, trailing⟩
  · rfl
  · rfl
  · simp only [settle, note]
    split
    · rfl
    · cases checkValue kind value <;> rfl

theorem settle_of_pending (h : p.pending = .none) : p.settle = .ok p := by
  obtain ⟨found, counted, pending, trailing⟩ := p
  subst h
  rfl

theorem settle_bind_settle {α : Type} (p : Progress) (act : Progress → Except UsageError α) :
    (p.settle >>= fun q => q.settle >>= act) = p.settle >>= act := by
  cases h : p.settle with
  | error e => rfl
  | ok q =>
    have hq := settle_of_pending (pending_of_settle h)
    change q.settle >>= act = act q
    rw [hq]
    rfl

/-- Whether it makes no difference to what is read if a value that is held is looked at first. -/
def LooksFirst {α : Type} (act : Progress → Except UsageError α) : Prop :=
  ∀ p : Progress, p.IsReady → (act p).toOption = (p.settle >>= act).toOption

theorem looksFirst_settle {α : Type} (act : Progress → Except UsageError α) :
    LooksFirst fun p => p.settle >>= act :=
  fun p _ => congrArg Except.toOption (settle_bind_settle p act).symm

theorem looksFirst_error {α : Type} (e : UsageError) :
    LooksFirst fun _ => (.error e : Except UsageError α) := by
  intro p _
  cases p.settle <;> rfl

theorem toOption_settle_bind {α β : Type} {act : Progress → Except UsageError α}
    (h : (act p).toOption = (p.settle >>= act).toOption) (next : α → Except UsageError β) :
    (act p >>= next).toOption = (p.settle >>= fun q => act q >>= next).toOption := by
  simp only [← bind_assoc, toOption_bind _ next, h]

theorem LooksFirst.bind {α β : Type} {act : Progress → Except UsageError α} (h : LooksFirst act)
    (next : α → Except UsageError β) : LooksFirst fun p => act p >>= next :=
  fun p hp => toOption_settle_bind (h p hp) next

theorem looksFirst_act (o : OptionSpec) : LooksFirst fun p => p.act o := looksFirst_settle _

theorem looksFirst_expect (name : String) (kind : ValueKind) (hyphens : Bool)
    (attached : Option String) : LooksFirst fun p => p.expect name kind hyphens attached :=
  looksFirst_settle _

theorem looksFirst_takeLong (cs : List Char) : LooksFirst fun p => p.takeLong g cs := by
  rcases hcut : cutValue cs with ⟨name, attached⟩
  cases hfind : g.ofLong? (String.ofList name) with
  | none => simpa only [takeLong, hcut, hfind] using looksFirst_error _
  | some o =>
    cases heffect : o.effect with
    | value kind hyphens =>
      simpa only [takeLong, hcut, hfind, heffect] using looksFirst_expect _ _ _ _
    | _ =>
      cases attached with
      | some value => simpa only [takeLong, hcut, hfind, heffect] using looksFirst_error _
      | none => simpa only [takeLong, hcut, hfind, heffect] using looksFirst_act o

theorem looksFirst_takeShort (c : Char) (cs : List Char) :
    LooksFirst fun p => p.takeShort g (c :: cs) := by
  cases hfind : g.ofShort? c with
  | none => simpa only [takeShort, hfind] using looksFirst_error _
  | some o =>
    cases heffect : o.effect with
    | value kind hyphens =>
      simpa only [takeShort, hfind, heffect] using looksFirst_expect _ _ _ _
    | _ =>
      simp only [takeShort, hfind, heffect]
      exact (looksFirst_act o).bind fun p => p.takeShort g cs

/-- A value counts as given before it is looked at. -/
theorem has_of_settle (h : p.settle = .ok q) (name : String) : q.has name = p.has name := by
  obtain ⟨-, rfl⟩ | ⟨other, kind, value, hpending, hnote⟩ := settle_eq_ok h
  · rfl
  · obtain ⟨-, rfl⟩ := note_eq_ok hnote
    have hlast : (List.lookup name [(other, value)]).isSome = (other == name) := by
      rw [List.lookup_cons, Bool.beq_comm]
      cases other == name <;> rfl
    simp only [has, hpending, List.lookup_append, Option.isSome_or, hlast, Bool.or_false]

theorem looksFirst_takePositional (arg : String) : LooksFirst fun p => p.takePositional g arg := by
  intro p _
  cases hname : g.positional with
  | none =>
    have hfails (q : Progress) : (q.takePositional g arg).toOption = none := by
      simp only [takePositional, hname]
      split <;> rfl
    rw [hfails, toOption_bind]
    cases p.settle with
    | error e => rfl
    | ok q => exact (hfails q).symm
  | some name =>
    cases hp : p.settle with
    | error e =>
      simp only [takePositional, hname, hp]
      split <;> rfl
    | ok q =>
      have hq := settle_of_pending (pending_of_settle hp)
      change _ = (q.takePositional g arg).toOption
      simp only [takePositional, hname, hp, hq, has_of_settle hp]

/-! ## Taking an argument -/

section Take

variable {arg : String} {c : Char} {cs : List Char}

theorem TakesOption.take_escape (hp : p.TakesOption) (h : arg.toList = ['-', '-']) :
    p.take g arg = .ok { p with trailing := true } := by
  cases hpending : p.pending with
  | waiting name kind hyphens => exact absurd hpending (hp.ready name kind hyphens)
  | _ =>
    rw [take, hp.front, if_neg Bool.false_ne_true, hpending, h]
    rfl

theorem TakesOption.take_long (hp : p.TakesOption) (h : arg.toList = '-' :: '-' :: cs)
    (hcs : cs ≠ []) : p.take g arg = p.takeLong g cs := by
  obtain ⟨d, ds, rfl⟩ := List.exists_cons_of_ne_nil hcs
  cases hpending : p.pending with
  | waiting name kind hyphens => exact absurd hpending (hp.ready name kind hyphens)
  | _ =>
    rw [take, hp.front, if_neg Bool.false_ne_true, hpending, h]
    rfl

theorem TakesOption.take_short (hp : p.TakesOption) (h : arg.toList = '-' :: c :: cs)
    (hc : c ≠ '-') : p.take g arg = p.takeShort g (c :: cs) := by
  cases hpending : p.pending with
  | waiting name kind hyphens => exact absurd hpending (hp.ready name kind hyphens)
  | _ => simp [take, hp.front, hpending, h, hc]

theorem TakesOption.take_plain (hp : p.TakesOption) (h : ∀ c cs, arg.toList ≠ '-' :: c :: cs) :
    p.take g arg = p.takePositional g arg := by
  cases hpending : p.pending with
  | waiting name kind hyphens => exact absurd hpending (hp.ready name kind hyphens)
  | _ => simp [take, hp.front, hpending, h]

theorem take_trailing (h : p.trailing = true) : p.take g arg = p.takePositional g arg := by
  rw [take, h, if_pos rfl]

/-- What arguments look like: the one behind which no options follow, long options, short ones, and
all others. -/
theorem argument_cases (cs : List Char) :
    cs = ['-', '-'] ∨ (∃ ds, ds ≠ [] ∧ cs = '-' :: '-' :: ds) ∨
      (∃ c ds, c ≠ '-' ∧ cs = '-' :: c :: ds) ∨ ∀ c ds, cs ≠ '-' :: c :: ds := by
  by_cases h : ∃ c ds, cs = '-' :: c :: ds
  · obtain ⟨c, ds, rfl⟩ := h
    by_cases hc : c = '-'
    · subst hc
      cases ds with
      | nil => exact .inl rfl
      | cons d ds => exact .inr (.inl ⟨_, List.cons_ne_nil d ds, rfl⟩)
    · exact .inr (.inr (.inl ⟨c, ds, hc, rfl⟩))
  · exact .inr (.inr (.inr fun c ds hcs => h ⟨c, ds, hcs⟩))

end Take

theorem TakesOption.settle (hp : p.TakesOption) (h : p.settle = .ok q) : q.TakesOption where
  front := (trailing_of_settle h).trans hp.front
  ready _ _ _ hq := nomatch hq.symm.trans (pending_of_settle h)

/-- An action agrees with one for which it makes no difference, at a point and after the value there
has been looked at. -/
theorem LooksFirst.of_eq {α : Type} {act act' : Progress → Except UsageError α}
    (hact : LooksFirst act') (hp : p.IsReady) (h : act p = act' p)
    (hsettled : ∀ q, p.settle = .ok q → act q = act' q) :
    (act p).toOption = (p.settle >>= act).toOption := by
  rw [h, hact p hp]
  cases hq : p.settle with
  | error e => rfl
  | ok q => exact congrArg Except.toOption (hsettled q hq).symm

theorem looksFirst_readFrom (args : List String) : LooksFirst (g.readFrom args) := by
  induction args with
  | nil => exact looksFirst_settle _
  | cons arg args ih =>
    intro p hp
    rw [Grammar.readFrom_cons]
    change (p.take g arg >>= g.readFrom args).toOption = _
    cases htrailing : p.trailing with
    | true =>
      refine toOption_settle_bind ((looksFirst_takePositional arg).of_eq hp
        (take_trailing htrailing) fun q hq => take_trailing ?_) _
      rw [trailing_of_settle hq, htrailing]
    | false =>
      have hopen : p.TakesOption := ⟨htrailing, hp⟩
      rcases argument_cases arg.toList with h | ⟨cs, hcs, h⟩ | ⟨c, cs, hc, h⟩ | h
      · -- the value that is held is still held behind the two hyphens
        have hlast := ih { p with trailing := true } hp
        rw [settle_trailing] at hlast
        rw [hopen.take_escape h]
        refine hlast.trans ?_
        cases hq : p.settle with
        | error e => rfl
        | ok q =>
          change _ = (q.take g arg >>= g.readFrom args).toOption
          rw [(hopen.settle hq).take_escape h]
          rfl
      · exact toOption_settle_bind ((looksFirst_takeLong cs).of_eq hp (hopen.take_long h hcs)
          fun q hq => (hopen.settle hq).take_long h hcs) _
      · exact toOption_settle_bind ((looksFirst_takeShort c cs).of_eq hp (hopen.take_short h hc)
          fun q hq => (hopen.settle hq).take_short h hc) _
      · exact toOption_settle_bind ((looksFirst_takePositional arg).of_eq hp (hopen.take_plain h)
          fun q hq => (hopen.settle hq).take_plain h) _

/-! ## Values stay -/

/-- Whether what has been found stays, in front of what is found later. -/
def Keeps (act : Progress → Except UsageError Progress) : Prop :=
  ∀ p q, act p = .ok q → p.found <+: q.found

theorem keeps_note (name : String) (kind : ValueKind) (value : String) :
    Keeps fun p => p.note name kind value := by
  intro p q h
  rw [(note_eq_ok h).2]
  exact List.prefix_append ..

theorem keeps_settle : Keeps settle := by
  intro p q h
  obtain ⟨-, rfl⟩ | ⟨_, _, _, -, hnote⟩ := settle_eq_ok h
  · exact List.prefix_rfl
  · exact keeps_note _ _ _ p q hnote

theorem Keeps.bind {act next : Progress → Except UsageError Progress} (h : Keeps act)
    (hnext : Keeps next) : Keeps fun p => act p >>= next := by
  intro p r hr
  cases hq : act p with
  | error e =>
    simp only [hq] at hr
    cases hr
  | ok q =>
    simp only [hq] at hr
    exact (h p q hq).trans (hnext q r hr)

theorem keeps_act (o : OptionSpec) : Keeps fun p => p.act o := by
  refine keeps_settle.bind fun p q h => ?_
  split at h
  · cases h
  · cases h
  · cases h
    exact List.prefix_rfl
  · exact keeps_note _ _ _ p q h
  · exact keeps_note _ _ _ p q h

theorem keeps_expect (name : String) (kind : ValueKind) (hyphens : Bool)
    (attached : Option String) : Keeps fun p => p.expect name kind hyphens attached := by
  refine keeps_settle.bind fun p q h => ?_
  cases attached with
  | some value => exact keeps_note _ _ _ p q h
  | none =>
    cases h
    exact List.prefix_rfl

theorem keeps_takeLong (cs : List Char) : Keeps fun p => p.takeLong g cs := by
  intro p q h
  simp only [takeLong] at h
  split at h
  · cases h
  · split at h
    · exact keeps_expect _ _ _ _ p q h
    · cases h
    · exact keeps_act _ p q h

theorem keeps_takeShort (cs : List Char) : Keeps fun p => p.takeShort g cs := by
  induction cs with
  | nil =>
    intro p q h
    cases h
    exact List.prefix_rfl
  | cons c cs ih =>
    intro p q h
    simp only [takeShort] at h
    split at h
    · cases h
    · split at h
      · exact keeps_expect _ _ _ _ p q h
      · exact (keeps_act _).bind ih p q h

theorem keeps_takePositional (arg : String) : Keeps fun p => p.takePositional g arg := by
  intro p q h
  simp only [takePositional] at h
  split at h
  · split at h
    · cases h
    · cases hp : p.settle with
      | error e =>
        rw [hp] at h
        cases h
      | ok p' =>
        rw [hp] at h
        cases h
        exact keeps_settle p p' hp
  · split at h <;> cases h

theorem keeps_take (arg : String) : Keeps fun p => p.take g arg := by
  intro p q h
  simp only [take] at h
  split at h
  · exact keeps_takePositional arg p q h
  · split at h
    case h_2 =>
      cases h
      exact List.prefix_rfl
    case h_3 => exact keeps_takeLong _ p q h
    case h_4 => exact keeps_takeShort _ p q h
    -- the argument is a value: it is held, or it is a positional one
    case h_1 | h_5 =>
      split at h
      · cases h
        exact List.prefix_rfl
      · exact keeps_takePositional arg p q h

theorem keeps_readFrom (args : List String) : Keeps (g.readFrom args) := by
  induction args with
  | nil =>
    refine keeps_settle.bind fun p q h => ?_
    split at h
    · cases h
      exact List.prefix_rfl
    · cases h
  | cons arg args ih =>
    rw [Grammar.readFrom_cons]
    exact (keeps_take arg).bind ih

/-- A value that has been found is there in the end. -/
theorem lookup_of_readFrom {args : List String} {name value : String}
    (h : g.readFrom args p = .ok q) (hp : p.found.lookup name = some value) :
    q.found.lookup name = some value := by
  obtain ⟨more, hmore⟩ := keeps_readFrom args p q h
  rw [← hmore, List.lookup_append, hp, Option.some_or]

/-! ## Values behind their options -/

theorem cutValue_append {name : List Char} (h : '=' ∉ name) (value : List Char) :
    cutValue (name ++ '=' :: value) = (name, some value) := by
  induction name with
  | nil => rfl
  | cons c name ih =>
    rw [List.mem_cons, not_or] at h
    have hc : c ≠ '=' := fun hc => h.1 hc.symm
    simp [cutValue, ih h.2]

theorem cutValue_of_not_mem {name : List Char} (h : '=' ∉ name) : cutValue name = (name, none) := by
  induction name with
  | nil => rfl
  | cons c name ih =>
    rw [List.mem_cons, not_or] at h
    have hc : c ≠ '=' := fun hc => h.1 hc.symm
    simp [cutValue, ih h.2]

section Values

variable {name : String} {short : Option Char} {kind : ValueKind} {hyphens : Bool}
  {value : String}

/-- A name that can stand behind two hyphens. -/
structure IsLong (g : Grammar) (name : String) (o : OptionSpec) : Prop where
  nonempty : name.toList ≠ []
  noEquals : '=' ∉ name.toList
  found : g.ofLong? name = some o

theorem take_attached (hp : p.TakesOption)
    (hname : IsLong g name ⟨name, short, .value kind hyphens⟩) (value : String) :
    p.take g ("--" ++ name ++ "=" ++ value) = p.expect name kind hyphens (some value) := by
  have hchars : ("--" ++ name ++ "=" ++ value).toList =
      '-' :: '-' :: (name.toList ++ '=' :: value.toList) := by
    simp
  rw [hp.take_long hchars (by simp)]
  simp only [takeLong, cutValue_append hname.noEquals, String.ofList_toList, hname.found,
    Option.map_some]

theorem take_separate (hp : p.TakesOption)
    (hname : IsLong g name ⟨name, short, .value kind hyphens⟩) :
    p.take g ("--" ++ name) = p.expect name kind hyphens none := by
  have hchars : ("--" ++ name).toList = '-' :: '-' :: name.toList := by simp
  rw [hp.take_long hchars hname.nonempty]
  simp only [takeLong, cutValue_of_not_mem hname.noEquals, String.ofList_toList, hname.found,
    Option.map_none]

/-- Behind an option that waits for its value everything is that value but what starts with a
hyphen, and that as well if the option takes it. -/
theorem take_value (hp : p.trailing = false)
    (hvalue : hyphens = true ∨ ∀ c cs, value.toList ≠ '-' :: c :: cs) :
    { p with pending := .waiting name kind hyphens }.take g value =
      .ok { p with pending := .holding name kind value } := by
  cases hyphens with
  | true => simp [take, hp]
  | false =>
    have hplain := hvalue.resolve_left (by simp)
    simp [take, hp, hplain]

/-- A value behind its option is read as one that is attached. -/
theorem readFrom_separate (hp : p.TakesOption)
    (hname : IsLong g name ⟨name, short, .value kind hyphens⟩)
    (hvalue : hyphens = true ∨ ∀ c cs, value.toList ≠ '-' :: c :: cs) (args : List String) :
    (g.readFrom (("--" ++ name) :: value :: args) p).toOption =
      (g.readFrom (("--" ++ name ++ "=" ++ value) :: args) p).toOption := by
  simp only [Grammar.readFrom_cons, take_attached hp hname, take_separate hp hname, expect]
  cases hq : p.settle with
  | error e => rfl
  | ok q =>
    have hopen := hp.settle hq
    have hheld := looksFirst_readFrom (g := g) args { q with pending := .holding name kind value }
      (fun _ _ _ h => nomatch h)
    change (take g { q with pending := .waiting name kind hyphens } value >>=
        g.readFrom args).toOption = (q.note name kind value >>= g.readFrom args).toOption
    rw [take_value hopen.front hvalue]
    exact hheld

/-- A value that is attached is there in the end, and what was held in front of it was good. -/
theorem found_of_attached (hp : p.TakesOption)
    (hname : IsLong g name ⟨name, short, .value kind hyphens⟩) {args : List String}
    (h : g.readFrom (("--" ++ name ++ "=" ++ value) :: args) p = .ok q) :
    (∃ settled, p.settle = .ok settled) ∧ q.found.lookup name = some value := by
  simp only [Grammar.readFrom_cons, take_attached hp hname, expect] at h
  cases hsettled : p.settle with
  | error e =>
    rw [hsettled] at h
    cases h
  | ok settled =>
    rw [hsettled] at h
    change (settled.note name kind value >>= g.readFrom args) = .ok q at h
    refine ⟨⟨settled, rfl⟩, ?_⟩
    cases hnoted : settled.note name kind value with
    | error e =>
      rw [hnoted] at h
      cases h
    | ok noted =>
      rw [hnoted] at h
      obtain ⟨hnew, rfl⟩ := note_eq_ok hnoted
      refine lookup_of_readFrom h ?_
      simp [List.lookup_append, hnew]

/-- What starts with a hyphen behind an option that does not take that, and is no option itself, is
not understood. -/
theorem readFrom_refused (hp : p.TakesOption)
    (hname : IsLong g name ⟨name, short, .value kind false⟩) {c : Char} {cs : List Char}
    (hvalue : value.toList = '-' :: c :: cs) (hc : c ≠ '-') (hnone : g.ofShort? c = none)
    (args : List String) :
    g.readFrom (("--" ++ name) :: value :: args) p =
      p.settle >>= fun _ => .error .unknownArgument := by
  simp only [Grammar.readFrom_cons, take_separate hp hname, expect]
  cases hq : p.settle with
  | error e => rfl
  | ok q =>
    have hopen := (hp.settle hq).front
    have hshort : { q with pending := .waiting name kind false }.take g value =
        { q with pending := .waiting name kind false }.takeShort g (c :: cs) := by
      simp [take, hopen, hvalue, hc]
    change (take g { q with pending := .waiting name kind false } value >>= g.readFrom args) = _
    simp only [hshort, takeShort, hnone]
    rfl

end Values

end Progress
end Command
end LtiUnit
