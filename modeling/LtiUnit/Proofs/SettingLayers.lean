import LtiUnit.Command.Settings
import LtiUnit.Proofs.Location

/-!
# LtiUnit.Proofs.SettingLayers

Settings stand in layers: the options over the configuration file, that over the environment, and
that over the usual values. What a layer says about a setting is read off the inputs alone
(`Inputs.told`), and the highest layer that says anything decides (`Inputs.Decides`).

* `value_iff_decides` — every setting in force is the one that its layers decide.
* `resolve_congr` — inputs whose layers decide alike lead to the same settings.
* `settings_masked` — layers below the one that decides do not count.
-/

namespace LtiUnit

/-- Paths that are written with a slash in front are absolute. -/
theorem Path.isAbsolute_ofText_iff (s : String) :
    (ofText s).isAbsolute = true ↔ s.toList.head? = some '/' := by
  have hpieces : (ofText s).segments = (Text.cutAt '/' s.toList).map String.ofList := rfl
  rw [isAbsolute_iff, hpieces]
  cases h : s.toList with
  | nil => simp [Text.cutAt]
  | cons c cs =>
    obtain ⟨piece, more, hcut⟩ := List.exists_cons_of_ne_nil (Text.cutAt_ne_nil '/' cs)
    by_cases hc : c = '/'
    · simp [Text.cutAt, hc, hcut]
    · simp [Text.cutAt, hc, hcut]

theorem Render.validStepSize_iff (x : Float) :
    validStepSize x = true ↔ x.isFinite = true ∧ 0 < x := by
  rw [validStepSize, Bool.and_eq_true, decide_eq_true_iff]

namespace Command

/-- Everything that settings are resolved from. -/
structure Inputs where
  options : BuildOptions
  found : Option FoundConfig
  directory : Path
  environment : String → Option String

inductive Setting where
  | stepSize | runtimeDirectory | compiler | keepSources
  deriving DecidableEq, Repr

abbrev Setting.Value : Setting → Type
  | .stepSize => Float
  | .runtimeDirectory => Path
  | .compiler => String
  | .keepSources => Bool

inductive Layer where
  | options | file | environment | usual
  deriving DecidableEq, Repr

namespace Layer

/-- The layers, from the highest to the lowest. -/
def all : List Layer := [.options, .file, .environment, .usual]

def rank : Layer → Nat
  | .options => 0
  | .file => 1
  | .environment => 2
  | .usual => 3

/-- Whether a layer stands over another one. -/
def Over (l l' : Layer) : Prop := l.rank < l'.rank

instance (l l' : Layer) : Decidable (l.Over l') := Nat.decLt ..

theorem mem_all (l : Layer) : l ∈ all := by cases l <;> decide

/-- In front of a layer stand those that are over it. -/
theorem mem_front_iff {front rest : List Layer} {l l' : Layer} (h : all = front ++ l :: rest) :
    l' ∈ front ↔ l'.Over l := by
  have hordered : all.Pairwise Over := by decide
  rw [h, List.pairwise_append, List.pairwise_cons] at hordered
  obtain ⟨-, ⟨hrest, -⟩, hfront⟩ := hordered
  refine ⟨fun hl' => hfront l' hl' l (List.mem_cons_self ..), fun hover => ?_⟩
  have hmem := mem_all l'
  rw [h, List.mem_append, List.mem_cons] at hmem
  rcases hmem with hmem | rfl | hmem
  · exact hmem
  · exact absurd hover (Nat.lt_irrefl _)
  · exact absurd hover (Nat.lt_asymm (hrest l' hmem))

end Layer

/-- The setting that is in force. Only the compiler may be left open: it is then the usual one of
the platform. -/
def Settings.value (s : Settings) : (k : Setting) → Option k.Value
  | .stepSize => some s.stepSize
  | .runtimeDirectory => some s.runtimeDirectory
  | .compiler => s.compiler
  | .keepSources => some s.keepSources

namespace Inputs

def resolve (i : Inputs) : Except Float Settings :=
  Settings.resolve i.options i.found i.directory i.environment

/-- The flags of the compiler stand in the configuration file only. -/
def flags (i : Inputs) : List String := (i.found.map (·.config.flags)).getD []

/-- What a layer says about a setting. A compiler that is blank in the environment is not
defined there. -/
def told (i : Inputs) : (k : Setting) → Layer → Option k.Value
  | .stepSize, .options => i.options.dt
  | .stepSize, .file => i.found.bind (·.config.stepSize)
  | .stepSize, .environment => none
  | .stepSize, .usual => some usualStepSize
  | .runtimeDirectory, .options => i.options.runtimeDirectory
  | .runtimeDirectory, .file => i.found.bind (·.runtimeDirectory)
  | .runtimeDirectory, .environment => (i.environment runtimeVariable).map Path.ofText
  | .runtimeDirectory, .usual => some (i.directory.child "runtime")
  | .compiler, .options => none
  | .compiler, .file => i.found.bind (·.config.compiler)
  | .compiler, .environment => (i.environment compilerVariable).filter fun s => !Text.isBlank s
  | .compiler, .usual => none
  | .keepSources, .options => if i.options.noSources then some false else none
  | .keepSources, .file => i.found.bind (·.config.keepSources)
  | .keepSources, .environment => none
  | .keepSources, .usual => some true

/-- A layer decides a setting if it says something about it and none over it does. -/
structure Decides (i : Inputs) (k : Setting) (l : Layer) (x : k.Value) : Prop where
  said : i.told k l = some x
  silent : ∀ l', l'.Over l → i.told k l' = none

variable {i i' : Inputs} {k : Setting} {l : Layer}

/-- What the options and the configuration file tell does not depend on anything else. -/
theorem told_congr (hoptions : i'.options = i.options) (hfound : i'.found = i.found)
    (hl : l.Over .environment) : i'.told k l = i.told k l := by
  cases l with
  | options => cases k <;> simp only [told, hoptions]
  | file => cases k <;> simp only [told, hfound]
  | environment => exact absurd hl (by decide)
  | usual => exact absurd hl (by decide)

/-! ## The layer that decides -/

/-- What the first of the layers says that says anything. -/
def highest (i : Inputs) (k : Setting) : Option k.Value := Layer.all.findSome? (i.told k)

theorem highest_eq_some_iff {x : k.Value} : i.highest k = some x ↔ ∃ l, i.Decides k l x := by
  rw [highest, List.findSome?_eq_some_iff]
  constructor
  · rintro ⟨front, l, rest, hall, hsaid, hsilent⟩
    exact ⟨l, hsaid, fun l' hl' => hsilent l' ((Layer.mem_front_iff hall).2 hl')⟩
  · rintro ⟨l, hsaid, hsilent⟩
    obtain ⟨front, rest, hall⟩ := List.append_of_mem (Layer.mem_all l)
    exact ⟨front, l, rest, hall, hsaid, fun l' hl' => hsilent l' ((Layer.mem_front_iff hall).1 hl')⟩

/-- Layers below the one that decides do not count. -/
theorem Decides.congr {x : k.Value} (h : i.Decides k l x)
    (hsame : ∀ l', ¬l.Over l' → i'.told k l' = i.told k l') : i'.Decides k l x where
  said := (hsame l (Nat.lt_irrefl _)).trans h.said
  silent l' hl' := (hsame l' (Nat.lt_asymm hl')).trans (h.silent l' hl')

theorem highest_eq (i : Inputs) (k : Setting) :
    i.highest k = (i.told k .options <|> i.told k .file <|> i.told k .environment <|>
      i.told k .usual) := by
  simp only [highest, Layer.all, List.findSome?]
  cases i.told k .options <;> cases i.told k .file <;> cases i.told k .environment <;>
    cases i.told k .usual <;> rfl

theorem highest_stepSize (i : Inputs) :
    i.highest .stepSize = some (Settings.decidedStepSize i.options i.found) := by
  have hlayers (a b : Option Float) (x : Float) :
      (a <|> b <|> none <|> some x) = some ((a <|> b).getD x) := by
    cases a <;> cases b <;> rfl
  exact (i.highest_eq .stepSize).trans (hlayers ..)

theorem highest_runtimeDirectory (i : Inputs) :
    i.highest .runtimeDirectory = some ((i.options.runtimeDirectory <|>
      i.found.bind (·.runtimeDirectory) <|> (i.environment runtimeVariable).map Path.ofText).getD
        (i.directory.child "runtime")) := by
  have hlayers (a b c : Option Path) (x : Path) :
      (a <|> b <|> c <|> some x) = some ((a <|> b <|> c).getD x) := by
    cases a <;> cases b <;> cases c <;> rfl
  exact (i.highest_eq .runtimeDirectory).trans (hlayers ..)

theorem highest_compiler (i : Inputs) :
    i.highest .compiler = (i.found.bind (·.config.compiler) <|>
      (i.environment compilerVariable).filter fun s => !Text.isBlank s) := by
  have hlayers (a b : Option String) : (none <|> a <|> b <|> none) = (a <|> b) := by
    cases a <;> cases b <;> rfl
  exact (i.highest_eq .compiler).trans (hlayers ..)

theorem highest_keepSources (i : Inputs) :
    i.highest .keepSources =
      some (!i.options.noSources && (i.found.bind (·.config.keepSources)).getD true) := by
  have hlayers (no : Bool) (a : Option Bool) :
      ((if no then some false else none) <|> a <|> none <|> some true) =
        some (!no && a.getD true) := by
    cases no <;> cases a <;> rfl
  exact (i.highest_eq .keepSources).trans (hlayers ..)

/-! ## The settings in force -/

theorem value_of_resolve {t : Settings} (h : i.resolve = .ok t) (k : Setting) :
    t.value k = i.highest k := by
  rw [resolve, Settings.resolve] at h
  split at h
  · cases h
    cases k with
    | stepSize => exact i.highest_stepSize.symm
    | runtimeDirectory => exact i.highest_runtimeDirectory.symm
    | compiler => exact i.highest_compiler.symm
    | keepSources => exact i.highest_keepSources.symm
  · cases h

theorem flags_of_resolve {t : Settings} (h : i.resolve = .ok t) : t.flags = i.flags := by
  rw [resolve, Settings.resolve] at h
  split at h
  · cases h
    rfl
  · cases h

/-- Settings are in force exactly as their layers decide. -/
theorem value_iff_decides {t : Settings} (h : i.resolve = .ok t) (k : Setting) (x : k.Value) :
    t.value k = some x ↔ ∃ l, i.Decides k l x := by
  rw [value_of_resolve h, highest_eq_some_iff]

/-- The step size that is refused is the one that its layers decide. -/
theorem resolve_eq_error_iff (x : Float) :
    i.resolve = .error x ↔
      (∃ l, i.Decides .stepSize l x) ∧ ¬(x.isFinite = true ∧ 0 < x) := by
  have hdecided : (∃ l, i.Decides .stepSize l x) ↔
      Settings.decidedStepSize i.options i.found = x := by
    rw [← highest_eq_some_iff, highest_stepSize, Option.some.injEq]
  rw [hdecided, ← Render.validStepSize_iff, resolve, Settings.resolve]
  constructor
  · intro h
    split at h
    · cases h
    · rename_i hvalid
      cases h
      exact ⟨rfl, hvalid⟩
  · rintro ⟨rfl, hvalid⟩
    exact if_neg hvalid

/-- The settings depend on what the layers decide and on the flags of the compiler, and on nothing
else. -/
theorem resolve_congr (hflags : i'.flags = i.flags) (h : ∀ k, i'.highest k = i.highest k) :
    i'.resolve = i.resolve := by
  have hstep := h .stepSize
  have hruntime := h .runtimeDirectory
  have hcompiler := h .compiler
  have hkeep := h .keepSources
  rw [highest_stepSize, highest_stepSize, Option.some.injEq] at hstep
  rw [highest_runtimeDirectory, highest_runtimeDirectory, Option.some.injEq] at hruntime
  rw [highest_compiler, highest_compiler] at hcompiler
  rw [highest_keepSources, highest_keepSources, Option.some.injEq] at hkeep
  rw [flags, flags] at hflags
  simp only [resolve, Settings.resolve, hstep, hruntime, hcompiler, hkeep, hflags]

/-- Whether a directory that is written in a file of another directory is meant by a path: one that
is written absolute stands for itself, and one that is written relative counts from that
directory. -/
structure CountsFrom (directory : Path) (written : String) (p : Path) : Prop where
  absolute : written.toList.head? = some '/' → p.text = written
  relative : written.toList.head? ≠ some '/' →
    ∀ w, p.locationFrom w = (Path.ofText written).locationFrom (directory.locationFrom w)

theorem countsFrom_join (directory : Path) (written : String) :
    CountsFrom directory written (directory.join (.ofText written)) where
  absolute h := by
    rw [Path.join, (Path.isAbsolute_ofText_iff written).2 h, Bool.true_or, if_pos rfl,
      Path.text_ofText]
  relative _ w := Path.locationFrom_join ..

/-- Every setting in force is that of the highest layer which says anything about it, where a
relative directory in the configuration file counts from that file. What lower layers say about the
setting makes no difference to the whole. There are no settings exactly if the step size so decided
is not finite and positive. -/
theorem settings_masked (i : Inputs) :
    (∀ t, i.resolve = .ok t →
      t.flags = i.flags ∧ ∀ k x, t.value k = some x ↔ ∃ l, i.Decides k l x) ∧
    (∀ c written, i.found = some c → c.config.runtime = some written →
      ∃ p, i.told .runtimeDirectory .file = some p ∧ CountsFrom c.directory written p) ∧
    (∀ k l x, i.Decides k l x → ∀ i' : Inputs, i'.flags = i.flags →
      (∀ k' l', (k' = k → ¬l.Over l') → i'.told k' l' = i.told k' l') → i'.resolve = i.resolve) ∧
    ∀ x, i.resolve = .error x ↔
      (∃ l, i.Decides .stepSize l x) ∧ ¬(x.isFinite = true ∧ 0 < x) := by
  refine ⟨fun t ht => ⟨flags_of_resolve ht, value_iff_decides ht⟩, ?_, ?_, resolve_eq_error_iff⟩
  · intro c written hfound hwritten
    refine ⟨_, ?_, countsFrom_join c.directory written⟩
    simp only [told, hfound, Option.bind_some, FoundConfig.runtimeDirectory, hwritten,
      Option.map_some]
  · intro k l x hdecides i' hflags hsame
    refine resolve_congr hflags fun k' => ?_
    by_cases hk : k' = k
    · subst hk
      have hdecides' := hdecides.congr fun l' hl' => hsame k' l' fun _ => hl'
      rw [highest_eq_some_iff.2 ⟨l, hdecides⟩, highest_eq_some_iff.2 ⟨l, hdecides'⟩]
    · rw [highest_eq, highest_eq]
      simp only [hsame k' _ fun h => absurd h hk]

/-- With a configuration in `/project` that gives a step size and the directory `rt`, and a blank
compiler in the environment, other runtime directories make no difference. -/
theorem settings_masked_project :
    let c : FoundConfig := ⟨⟨some 0.01, none, none, ["-O2"], some "rt"⟩, .ofText "/project"⟩
    let i : Inputs := ⟨.ofProgress .start, some c, .ofText "/work", fun name =>
      if name = compilerVariable then some " " else some "/env/rt"⟩
    let i' : Inputs := { i with directory := .ofText "/other", environment := fun _ => some " " }
    ∃ t, i.resolve = .ok t ∧ t.value .compiler = none ∧
      t.runtimeDirectory.locationFrom [] = ["rt", "project"] ∧ i'.resolve = .ok t := by
  intro c i i'
  have hstep : Render.validStepSize 0.01 = true := by decide +kernel
  obtain ⟨t, ht⟩ : ∃ t, i.resolve = .ok t := ⟨_, if_pos hstep⟩
  obtain ⟨hvalues, hcounts, hmasked, -⟩ := settings_masked i
  obtain ⟨p, hsaid, hp⟩ := hcounts c "rt" rfl rfl
  have hdecides : i.Decides .runtimeDirectory .file p :=
    ⟨hsaid, fun l' hl' => by
      cases l' with
      | options => rfl
      | file => exact absurd hl' (by decide)
      | environment => exact absurd hl' (by decide)
      | usual => exact absurd hl' (by decide)⟩
  have hruntime := ((hvalues t ht).2 .runtimeDirectory p).2 ⟨_, hdecides⟩
  have hcompiler : ∀ l, i.told .compiler l = none := by
    intro l
    cases l <;> decide
  refine ⟨t, ht, ?_, ?_, ?_⟩
  · refine Option.eq_none_iff_forall_ne_some.2 fun x hx => ?_
    obtain ⟨l, hl⟩ := ((hvalues t ht).2 .compiler x).1 hx
    cases (hcompiler l).symm.trans hl.said
  · cases hruntime
    rw [hp.relative (by decide)]
    decide
  · refine (hmasked .runtimeDirectory .file p hdecides i' rfl fun k' l' hsame => ?_).trans ht
    cases l' with
    | options => exact told_congr rfl rfl (by decide)
    | file => exact told_congr rfl rfl (by decide)
    | environment =>
      cases k' with
      | runtimeDirectory => exact absurd (by decide) (hsame rfl)
      | compiler => decide
      | stepSize => rfl
      | keepSources => rfl
    | usual =>
      cases k' with
      | runtimeDirectory => exact absurd (by decide) (hsame rfl)
      | compiler => rfl
      | stepSize => rfl
      | keepSources => rfl

end Inputs
end Command
end LtiUnit
