import LtiUnit.Json.Datum
import LtiUnit.Model.Description.Reader
import LtiUnit.Model.Description.Writer
import LtiUnit.Proofs.JsonNumber
import Mathlib.Control.Traversable.Instances

/-!
# LtiUnit.Proofs.WrittenDescription

Model descriptions written as JSON documents and read again.

Writing and reading go field by field. What a written field says is what its numbers say, put where
they were (`datum?_array`, `datum?_ofOption`); so the fields together say the description with each
number replaced by what is read for its digits (`mapM_fields`, `ofDatum?_table`). Such a
replacement keeps the form, the lengths and what is left out (`mapM?_eq_some`), and it is the
identity exactly if it is so on each number (`map_eq_map`).

* `written_toJson` — the document is one that the JSON reader takes.
* `datum?_compact`, `reads_compact` — what is read for its text, and when it is the description.
* `reads_compact_eleventh` — a description that is read as another one.
-/

namespace LtiUnit
namespace Model

open Json (Value)

/-- What is read for a double that has been written. -/
def reread (x : Float) : Option Float := Json.float? (Number.Spelling.json.chars x)

namespace Description

variable {α β : Type}

/-- All numbers of a description replaced by others, if there is one for each. -/
def mapM? (g : α → Option β) : Description α → Option (Description β)
  | .stateSpace f => do
    return .stateSpace
      ⟨← f.A.mapM (List.mapM (List.mapM g)), ← f.B.mapM (List.mapM (List.mapM g)),
        ← f.C.mapM (List.mapM (List.mapM g)), ← f.D.mapM (List.mapM (List.mapM g)),
        ← f.x0.mapM (List.mapM g), ← f.u0.mapM (List.mapM g)⟩
  | .transferFunction f => do
    return .transferFunction
      ⟨← f.num.mapM g, ← f.den.mapM g, ← f.x0.mapM (List.mapM g), ← f.u0.mapM g⟩
  | .zeroPoleGain f => do
    return .zeroPoleGain
      ⟨← f.zeros.mapM g, ← f.poles.mapM g, ← g f.gain, ← f.x0.mapM (List.mapM g), ← f.u0.mapM g⟩
  | .controller f => do
    return .controller
      ⟨← g f.kp, ← g f.ki, ← g f.kd, ← g f.t, ← f.x0.mapM (List.mapM g), ← f.u0.mapM g⟩

/-! ## Writing and reading data -/

/-- What a list says, by what its items say. -/
def listOf (said : β → Datum) (items : List β) : Datum := .list (items.map said)

/-- What an optional value says. -/
def optionOf (said : β → Datum) : Option β → Datum
  | none => .nothing
  | some x => said x

section Data

variable {write : α → Value} {g : α → Option β} {said : β → Datum} {depth : Nat}

theorem data?_map {items : List α} (h : ∀ x ∈ items, (write x).datum? depth = (g x).map said) :
    Value.data? depth (items.map write) = (items.mapM g).map (List.map said) := by
  induction items with
  | nil => rfl
  | cons x items ih =>
    obtain ⟨hx, hitems⟩ := List.forall_mem_cons.1 h
    rw [List.map_cons, Value.data?, hx, ih hitems, List.mapM_cons]
    cases g x with
    | none => rfl
    | some y =>
      cases items.mapM g with
      | none => rfl
      | some ys => rfl

theorem datum?_array {items : List α} (h : ∀ x ∈ items, (write x).datum? depth = (g x).map said) :
    (Value.array (items.map write)).datum? (depth + 1) = (items.mapM g).map (listOf said) := by
  rw [Value.datum?, if_neg (Nat.succ_ne_zero depth), Nat.add_sub_cancel, data?_map h,
    Option.map_map]
  rfl

theorem datum?_ofOption {o : Option α} (h : ∀ x ∈ o, (write x).datum? depth = (g x).map said) :
    (ofOption write o).datum? depth = (o.mapM g).map (optionOf said) := by
  cases o with
  | none => rfl
  | some x =>
    rw [ofOption, h x rfl]
    cases hg : g x <;> simp [Option.mapM, hg, optionOf]

variable {read : Datum → Option β}

theorem toList?_listOf (h : ∀ y, read (said y) = some y) (items : List β) :
    Datum.toList? read (listOf said items) = some items := by
  rw [listOf, Datum.toList?]
  induction items with
  | nil => rfl
  | cons y items ih => simp [h, ih]

theorem toOption?_optionOf (h : ∀ y, read (said y) = some y) (hsaid : ∀ y, said y ≠ .nothing)
    (o : Option β) : Datum.toOption? read (optionOf said o) = some o := by
  cases o with
  | none => rfl
  | some y =>
    rw [optionOf, Datum.toOption?]
    · rw [h]
      rfl
    · exact hsaid y

end Data

/-! ## Fields -/

section Fields

variable {depth : Nat}

theorem datum?_ofFloat {x : Float} (h : x.isFinite = true) :
    (ofFloat x).datum? depth = (reread x).map .number := by
  rw [ofFloat, if_pos h, Value.datum?]
  rfl

theorem datum?_ofFloats {xs : List Float} (h : ∀ x ∈ xs, x.isFinite = true) :
    (ofFloats xs).datum? (depth + 1) = (xs.mapM reread).map (listOf .number) :=
  datum?_array fun x hx => datum?_ofFloat (h x hx)

theorem datum?_ofRows {rows : List (List Float)} (h : ∀ xs ∈ rows, ∀ x ∈ xs, x.isFinite = true) :
    (ofRows rows).datum? (depth + 2) =
      (rows.mapM (List.mapM reread)).map (listOf (listOf .number)) :=
  datum?_array fun xs hxs => datum?_ofFloats (h xs hxs)

theorem toFloat?_number (x : Float) : Datum.toFloat? (.number x) = some x := rfl

theorem toFloats?_listOf (xs : List Float) : Datum.toFloats? (listOf .number xs) = some xs :=
  toList?_listOf toFloat?_number xs

theorem toRows?_listOf (rows : List (List Float)) :
    Datum.toRows? (listOf (listOf .number) rows) = some rows :=
  toList?_listOf toFloats?_listOf rows

theorem text?_partsOf (s : String) : Json.text? (Json.partsOf s) = some s := by
  have hchars (cs : List Char) : Json.characters? (cs.map .char) = some cs := by
    induction cs with
    | nil => rfl
    | cons c cs ih => rw [List.map_cons, Json.characters?, ih, Option.map_some]
  rw [Json.text?, Json.partsOf, hchars, Option.map_some, String.ofList_toList]

theorem members?_map (members : List (String × Value)) :
    Value.members? depth (members.map fun m => (Json.partsOf m.1, m.2)) =
      members.mapM fun m => (m.2.datum? depth).map (m.1, ·) := by
  induction members with
  | nil => rfl
  | cons m members ih =>
    rw [List.map_cons, Value.members?, text?_partsOf, ih, List.mapM_cons]
    cases m.2.datum? depth <;> rfl

end Fields

/-- All numbers of a description. -/
def numbers : Description α → List α
  | .stateSpace f =>
    f.A.toList.flatten.flatten ++ f.B.toList.flatten.flatten ++ f.C.toList.flatten.flatten ++
      f.D.toList.flatten.flatten ++ f.x0.toList.flatten ++ f.u0.toList.flatten
  | .transferFunction f => f.num ++ f.den ++ f.x0.toList.flatten ++ f.u0.toList
  | .zeroPoleGain f => f.zeros ++ f.poles ++ [f.gain] ++ f.x0.toList.flatten ++ f.u0.toList
  | .controller f => [f.kp, f.ki, f.kd, f.t] ++ f.x0.toList.flatten ++ f.u0.toList

/-- What the fields of a description say. -/
def saidFields : Description Float → Members
  | .stateSpace f =>
    [("A", optionOf (listOf (listOf .number)) f.A), ("B", optionOf (listOf (listOf .number)) f.B),
      ("C", optionOf (listOf (listOf .number)) f.C), ("D", optionOf (listOf (listOf .number)) f.D),
      ("x0", optionOf (listOf .number) f.x0), ("u0", optionOf (listOf .number) f.u0)]
  | .transferFunction f =>
    [("num", listOf .number f.num), ("den", listOf .number f.den),
      ("x0", optionOf (listOf .number) f.x0), ("u0", optionOf .number f.u0)]
  | .zeroPoleGain f =>
    [("zeros", listOf .number f.zeros), ("poles", listOf .number f.poles),
      ("gain", .number f.gain), ("x0", optionOf (listOf .number) f.x0),
      ("u0", optionOf .number f.u0)]
  | .controller f =>
    [("kp", .number f.kp), ("ki", .number f.ki), ("kd", .number f.kd), ("T", .number f.t),
      ("x0", optionOf (listOf .number) f.x0), ("u0", optionOf .number f.u0)]

theorem mapM_fields {d : Description Float} (h : ∀ x ∈ d.numbers, x.isFinite = true) :
    (fields d).mapM (fun m => (m.2.datum? 126).map (m.1, ·)) =
      (d.mapM? reread).map saidFields := by
  have hrows {o : Option (List (List Float))}
      (ho : ∀ x ∈ o.toList.flatten.flatten, x.isFinite = true) :
      (ofOption ofRows o).datum? 126 =
        (o.mapM (List.mapM (List.mapM reread))).map (optionOf (listOf (listOf .number))) :=
    datum?_ofOption fun rows hrows => datum?_ofRows fun xs hxs x hx => ho x (List.mem_flatten.2
      ⟨xs, List.mem_flatten.2 ⟨rows, Option.mem_toList.2 hrows, hxs⟩, hx⟩)
  have hfloats {o : Option (List Float)} (ho : ∀ x ∈ o.toList.flatten, x.isFinite = true) :
      (ofOption ofFloats o).datum? 126 =
        (o.mapM (List.mapM reread)).map (optionOf (listOf .number)) :=
    datum?_ofOption fun xs hxs => datum?_ofFloats fun x hx =>
      ho x (List.mem_flatten.2 ⟨xs, Option.mem_toList.2 hxs, hx⟩)
  have hfloat {o : Option Float} (ho : ∀ x ∈ o.toList, x.isFinite = true) :
      (ofOption ofFloat o).datum? 126 = (o.mapM reread).map (optionOf .number) :=
    datum?_ofOption fun x hx => datum?_ofFloat (ho x (Option.mem_toList.2 hx))
  have hlist {xs : List Float} (hxs : ∀ x ∈ xs, x.isFinite = true) :
      (ofFloats xs).datum? 126 = (xs.mapM reread).map (listOf .number) := datum?_ofFloats hxs
  have hone {x : Float} (hx : x.isFinite = true) :
      (ofFloat x).datum? 126 = (reread x).map .number := datum?_ofFloat hx
  cases d with
  | stateSpace f =>
    simp only [numbers, List.forall_mem_append] at h
    obtain ⟨⟨⟨⟨⟨hA, hB⟩, hC⟩, hD⟩, hx0⟩, hu0⟩ := h
    simp [fields, hrows hA, hrows hB, hrows hC, hrows hD, hfloats hx0, hfloats hu0, mapM?,
      saidFields, Option.map_bind, Option.bind_map, Option.bind_assoc, Function.comp_def]
  | transferFunction f =>
    simp only [numbers, List.forall_mem_append] at h
    obtain ⟨⟨⟨hnum, hden⟩, hx0⟩, hu0⟩ := h
    simp [fields, hlist hnum, hlist hden, hfloats hx0, hfloat hu0, mapM?, saidFields,
      Option.map_bind, Option.bind_map, Option.bind_assoc, Function.comp_def]
  | zeroPoleGain f =>
    simp only [numbers, List.forall_mem_append, List.forall_mem_singleton] at h
    obtain ⟨⟨⟨⟨hzeros, hpoles⟩, hgain⟩, hx0⟩, hu0⟩ := h
    simp [fields, hlist hzeros, hlist hpoles, hone hgain, hfloats hx0, hfloat hu0, mapM?,
      saidFields, Option.map_bind, Option.bind_map, Option.bind_assoc, Function.comp_def]
  | controller f =>
    simp only [numbers, List.forall_mem_append, List.forall_mem_cons] at h
    obtain ⟨⟨⟨hkp, hki, hkd, ht, -⟩, hx0⟩, hu0⟩ := h
    simp [fields, hone hkp, hone hki, hone hkd, hone ht, hfloats hx0, hfloat hu0, mapM?,
      saidFields, Option.map_bind, Option.bind_map, Option.bind_assoc, Function.comp_def]

/-! ## The form -/

theorem toRows?_optionOf (o : Option (List (List Float))) :
    Datum.toOption? Datum.toRows? (optionOf (listOf (listOf .number)) o) = some o :=
  toOption?_optionOf toRows?_listOf (fun _ h => Datum.noConfusion h) o

theorem toFloats?_optionOf (o : Option (List Float)) :
    Datum.toOption? Datum.toFloats? (optionOf (listOf .number) o) = some o :=
  toOption?_optionOf toFloats?_listOf (fun _ h => Datum.noConfusion h) o

theorem toFloat?_optionOf (o : Option Float) :
    Datum.toOption? Datum.toFloat? (optionOf .number o) = some o :=
  toOption?_optionOf toFloat?_number (fun _ h => Datum.noConfusion h) o

theorem ofMembers?_saidFields (d : Description Float) :
    ofMembers? d.kind (saidFields d) = some d := by
  cases d with
  | stateSpace f =>
    simp [kind, ofMembers?, saidFields, matrix?, vector?, Members.withDefault?, Members.valuesOf,
      toRows?_optionOf, toFloats?_optionOf]
  | transferFunction f =>
    simp [kind, ofMembers?, saidFields, vector?, scalar?, Members.required?, Members.withDefault?,
      Members.valuesOf, toFloats?_listOf, toFloats?_optionOf, toFloat?_optionOf]
  | zeroPoleGain f =>
    simp [kind, ofMembers?, saidFields, vector?, scalar?, Members.withDefault?, Members.valuesOf,
      toFloats?_listOf, toFloat?_number, toFloats?_optionOf, toFloat?_optionOf]
  | controller f =>
    simp [kind, ofMembers?, saidFields, vector?, scalar?, Members.withDefault?, Members.valuesOf,
      toFloat?_number, toFloats?_optionOf, toFloat?_optionOf]

/-- The kind comes first, and no field has its name. -/
theorem ofDatum?_kind {kind : String} {ms : Members} (h : ∀ m ∈ ms, m.1 ≠ "kind") :
    ofDatum? (.table (("kind", .text kind) :: ms)) = ofMembers? kind ms := by
  have hfields : ms.filter (["kind"].contains ·.1) = [] := by
    rw [List.filter_eq_nil_iff]
    exact fun m hm => by simpa using h m hm
  have hkept : ms.filter (·.1 != "kind") = ms := by
    rw [List.filter_eq_self]
    exact fun m hm => bne_iff_ne.2 (h m hm)
  have hkind : Members.required? (("kind", .text kind) :: ms) ["kind"] Datum.toText? =
      some kind := by
    rw [Members.required?, Members.valuesOf, List.filter_cons_of_pos (by simp), hfields]
    rfl
  rw [ofDatum?, hkind, List.filter_cons_of_neg (by simp), hkept]
  rfl

theorem ofDatum?_table (d : Description Float) :
    ofDatum? (.table (("kind", .text d.kind) :: saidFields d)) = some d := by
  have hfields : ∀ m ∈ saidFields d, m.1 ≠ "kind" := by
    cases d <;> simp [saidFields]
  rw [ofDatum?_kind hfields, ofMembers?_saidFields]

/-! ## What becomes of the numbers -/

/-- All numbers of a description replaced by others. -/
def map (f : α → β) : Description α → Description β
  | .stateSpace s =>
    .stateSpace
      ⟨s.A.map (List.map (List.map f)), s.B.map (List.map (List.map f)),
        s.C.map (List.map (List.map f)), s.D.map (List.map (List.map f)), s.x0.map (List.map f),
        s.u0.map (List.map f)⟩
  | .transferFunction s =>
    .transferFunction ⟨s.num.map f, s.den.map f, s.x0.map (List.map f), s.u0.map f⟩
  | .zeroPoleGain s =>
    .zeroPoleGain ⟨s.zeros.map f, s.poles.map f, f s.gain, s.x0.map (List.map f), s.u0.map f⟩
  | .controller s =>
    .controller ⟨f s.kp, f s.ki, f s.kd, f s.t, s.x0.map (List.map f), s.u0.map f⟩

theorem kind_map (f : α → β) (d : Description α) : (d.map f).kind = d.kind := by
  cases d <;> rfl

section Traversals

variable {γ : Type} {p : α → Option β} {f : α → γ} {k : β → γ}

theorem list_mapM_iff (h : ∀ x y, p x = some y ↔ f x = k y) {xs : List α} {ys : List β} :
    xs.mapM p = some ys ↔ xs.map f = ys.map k := by
  induction xs generalizing ys with
  | nil => cases ys <;> simp
  | cons x xs ih =>
    rw [List.mapM_cons]
    simp only [Option.bind_eq_bind, Option.bind_eq_some_iff, Option.pure_def, Option.some.injEq, h,
      ih]
    cases ys with
    | nil => simp
    | cons y ys =>
      constructor
      · rintro ⟨_, hx, _, hxs, heq⟩
        cases heq
        simp [hx, hxs]
      · intro heq
        exact ⟨y, (List.cons.inj heq).1, ys, (List.cons.inj heq).2, rfl⟩

theorem option_mapM_iff (h : ∀ x y, p x = some y ↔ f x = k y) {o : Option α} {o' : Option β} :
    o.mapM p = some o' ↔ o.map f = o'.map k := by
  cases o with
  | none => cases o' <;> simp [Option.mapM]
  | some x =>
    cases o' with
    | none => cases hx : p x <;> simp [Option.mapM, hx]
    | some y => simp [Option.mapM, h]

end Traversals

theorem mapM?_eq_some {g : α → Option β} {d : Description α} {e : Description β} :
    d.mapM? g = some e ↔ d.map g = e.map some := by
  have hnumber (x : α) (y : β) : g x = some y ↔ g x = some y := .rfl
  have hlist (xs : List α) (ys : List β) : xs.mapM g = some ys ↔ xs.map g = ys.map some :=
    list_mapM_iff hnumber
  have hrows (xs : List (List α)) (ys : List (List β)) :
      xs.mapM (List.mapM g) = some ys ↔ xs.map (List.map g) = ys.map (List.map some) :=
    list_mapM_iff hlist
  rcases d with ⟨⟨⟩⟩ | ⟨⟨⟩⟩ | ⟨⟨⟩⟩ | ⟨⟨⟩⟩ <;> rcases e with ⟨⟨⟩⟩ | ⟨⟨⟩⟩ | ⟨⟨⟩⟩ | ⟨⟨⟩⟩ <;>
    simp [mapM?, map, Option.bind_eq_some_iff, hlist, option_mapM_iff hlist, option_mapM_iff hrows,
      option_mapM_iff hnumber]

theorem map_eq_map {f g : α → β} {d : Description α} :
    d.map f = d.map g ↔ ∀ x ∈ d.numbers, f x = g x := by
  have hnumber {o : Option α} : o.map f = o.map g ↔ ∀ x ∈ o.toList, f x = g x := by
    cases o <;> simp
  have hlist {xs : List α} : xs.map f = xs.map g ↔ ∀ x ∈ xs, f x = g x := List.map_inj_left
  have hvector {o : Option (List α)} :
      o.map (List.map f) = o.map (List.map g) ↔ ∀ x ∈ o.toList.flatten, f x = g x := by
    cases o <;> simp
  have hmatrix {o : Option (List (List α))} :
      o.map (List.map (List.map f)) = o.map (List.map (List.map g)) ↔
        ∀ x ∈ o.toList.flatten.flatten, f x = g x := by
    cases o with
    | none => simp
    | some rows =>
      simp only [Option.map_some, Option.some.injEq, List.map_inj_left, Option.toList_some,
        List.flatten_cons, List.flatten_nil, List.append_nil, List.mem_flatten]
      exact ⟨fun h x ⟨ys, hys, hx⟩ => h ys hys x hx, fun h ys hys x hx => h x ⟨ys, hys, hx⟩⟩
  rcases d with ⟨⟨⟩⟩ | ⟨⟨⟩⟩ | ⟨⟨⟩⟩ | ⟨⟨⟩⟩ <;>
    simp only [map, numbers, Description.stateSpace.injEq, MatrixForm.mk.injEq,
      Description.transferFunction.injEq, QuotientForm.mk.injEq, Description.zeroPoleGain.injEq,
      FactoredForm.mk.injEq, Description.controller.injEq, ControllerForm.mk.injEq, hnumber, hlist,
      hvector, hmatrix, List.forall_mem_append, List.forall_mem_cons, List.not_mem_nil,
      IsEmpty.forall_iff, implies_true, true_and, and_assoc]

theorem map_map {γ : Type} (f : α → β) (g : β → γ) (d : Description α) :
    (d.map f).map g = d.map (g ∘ f) := by
  cases d <;> simp [map, Option.map_map, Function.comp_def]

theorem numbers_map (f : α → β) (d : Description α) : (d.map f).numbers = d.numbers.map f := by
  have hvector (o : Option (List α)) :
      (o.map (List.map f)).toList.flatten = o.toList.flatten.map f := by
    cases o <;> simp
  have hmatrix (o : Option (List (List α))) :
      (o.map (List.map (List.map f))).toList.flatten.flatten =
        o.toList.flatten.flatten.map f := by
    cases o <;> simp
  have hnumber (o : Option α) : (o.map f).toList = o.toList.map f := by
    cases o <;> rfl
  cases d <;> simp [map, numbers, hvector, hmatrix, hnumber]

/-- Nothing is put in place of a description if there is a number that nothing is put in place
of. -/
theorem mapM?_eq_none [Inhabited β] {g : α → Option β} {d : Description α} :
    d.mapM? g = none ↔ ∃ x ∈ d.numbers, g x = none := by
  constructor
  · intro hnone
    by_contra hall
    simp only [not_exists, not_and] at hall
    have hsome : d.map g = (d.map fun x => (g x).getD default).map some := by
      rw [map_map, map_eq_map]
      intro x hx
      obtain ⟨y, hy⟩ := Option.ne_none_iff_exists'.1 (hall x hx)
      simp [hy]
    rw [mapM?_eq_some.2 hsome] at hnone
    cases hnone
  · rintro ⟨x, hx, hnone⟩
    cases he : d.mapM? g with
    | none => rfl
    | some e =>
      have hnumbers := congrArg numbers (mapM?_eq_some.1 he)
      rw [numbers_map, numbers_map] at hnumbers
      have hmem : g x ∈ e.numbers.map some := hnumbers ▸ List.mem_map_of_mem hx
      rw [hnone] at hmem
      simp at hmem

/-- Two ways to replace all numbers come to the same if they do on each of them, and if neither is
one for all of them. -/
theorem mapM?_eq_mapM? [Inhabited β] {f g : α → Option β} {d : Description α} :
    d.mapM? f = d.mapM? g ↔ (∀ x ∈ d.numbers, f x = g x) ∨
      (∃ x ∈ d.numbers, f x = none) ∧ ∃ x ∈ d.numbers, g x = none := by
  constructor
  · intro heq
    cases hf : d.mapM? f with
    | none => exact .inr ⟨mapM?_eq_none.1 hf, mapM?_eq_none.1 (heq ▸ hf)⟩
    | some e =>
      have hg : d.mapM? g = some e := heq ▸ hf
      exact .inl (map_eq_map.1 ((mapM?_eq_some.1 hf).trans (mapM?_eq_some.1 hg).symm))
  · rintro (hall | ⟨hf, hg⟩)
    · refine Option.ext fun e => ?_
      rw [mapM?_eq_some, mapM?_eq_some, map_eq_map.2 hall]
    · rw [mapM?_eq_none.2 hf, mapM?_eq_none.2 hg]

/-! ## The text -/

section Written

open Json (Written WrittenString)

theorem writtenString_partsOf {s : String} (h : ∀ c ∈ s.toList, ¬c.toNat < 0x20) :
    WrittenString (Json.partsOf s) := by
  intro p hp
  obtain ⟨c, hc, rfl⟩ := List.mem_map.1 hp
  exact ⟨c, rfl, h c hc⟩

theorem written_ofFloat {x : Float} (h : x.isFinite = true) : Written (ofFloat x) := by
  rw [ofFloat, if_pos h]
  exact .number (Json.writtenNumber_chars h)

theorem written_array {write : α → Value} {items : List α} (h : ∀ x ∈ items, Written (write x)) :
    Written (.array (items.map write)) := by
  refine .array fun v hv => ?_
  obtain ⟨x, hx, rfl⟩ := List.mem_map.1 hv
  exact h x hx

theorem written_ofOption {write : α → Value} {o : Option α} (h : ∀ x ∈ o, Written (write x)) :
    Written (ofOption write o) := by
  cases o with
  | none => exact .null
  | some x => exact h x rfl

theorem written_fields {d : Description Float} (h : ∀ x ∈ d.numbers, x.isFinite = true) :
    ∀ m ∈ fields d, Written m.2 := by
  have hlist {xs : List Float} (hxs : ∀ x ∈ xs, x.isFinite = true) : Written (ofFloats xs) :=
    written_array fun x hx => written_ofFloat (hxs x hx)
  have hnumber {o : Option Float} (ho : ∀ x ∈ o.toList, x.isFinite = true) :
      Written (ofOption ofFloat o) :=
    written_ofOption fun x hx => written_ofFloat (ho x (Option.mem_toList.2 hx))
  have hvector {o : Option (List Float)} (ho : ∀ x ∈ o.toList.flatten, x.isFinite = true) :
      Written (ofOption ofFloats o) :=
    written_ofOption fun xs hxs => hlist fun x hx =>
      ho x (List.mem_flatten.2 ⟨xs, Option.mem_toList.2 hxs, hx⟩)
  have hmatrix {o : Option (List (List Float))}
      (ho : ∀ x ∈ o.toList.flatten.flatten, x.isFinite = true) : Written (ofOption ofRows o) :=
    written_ofOption fun rows hrows => written_array fun xs hxs => hlist fun x hx =>
      ho x (List.mem_flatten.2 ⟨xs, List.mem_flatten.2 ⟨rows, Option.mem_toList.2 hrows, hxs⟩, hx⟩)
  cases d with
  | stateSpace f =>
    simp only [numbers, List.forall_mem_append] at h
    obtain ⟨⟨⟨⟨⟨hA, hB⟩, hC⟩, hD⟩, hx0⟩, hu0⟩ := h
    simp only [fields, List.forall_mem_cons]
    exact ⟨hmatrix hA, hmatrix hB, hmatrix hC, hmatrix hD, hvector hx0, hvector hu0,
      List.forall_mem_nil _⟩
  | transferFunction f =>
    simp only [numbers, List.forall_mem_append] at h
    obtain ⟨⟨⟨hnum, hden⟩, hx0⟩, hu0⟩ := h
    simp only [fields, List.forall_mem_cons]
    exact ⟨hlist hnum, hlist hden, hvector hx0, hnumber hu0, List.forall_mem_nil _⟩
  | zeroPoleGain f =>
    simp only [numbers, List.forall_mem_append, List.forall_mem_singleton] at h
    obtain ⟨⟨⟨⟨hzeros, hpoles⟩, hgain⟩, hx0⟩, hu0⟩ := h
    simp only [fields, List.forall_mem_cons]
    exact ⟨hlist hzeros, hlist hpoles, written_ofFloat hgain, hvector hx0, hnumber hu0,
      List.forall_mem_nil _⟩
  | controller f =>
    simp only [numbers, List.forall_mem_append, List.forall_mem_cons] at h
    obtain ⟨⟨⟨hkp, hki, hkd, ht, -⟩, hx0⟩, hu0⟩ := h
    simp only [fields, List.forall_mem_cons]
    exact ⟨written_ofFloat hkp, written_ofFloat hki, written_ofFloat hkd, written_ofFloat ht,
      hvector hx0, hnumber hu0, List.forall_mem_nil _⟩

theorem printable_fields (d : Description Float) :
    ∀ m ∈ fields d, ∀ c ∈ m.1.toList, ¬c.toNat < 0x20 := by
  cases d <;> simp [fields]

theorem written_toJson {d : Description Float} (h : ∀ x ∈ d.numbers, x.isFinite = true) :
    Written d.toJson := by
  have hkind : ∀ c ∈ d.kind.toList, ¬c.toNat < 0x20 := by
    cases d <;> simp [kind]
  refine .object ?_ ?_
  · rw [List.forall_mem_map]
    exact List.forall_mem_cons.2 ⟨writtenString_partsOf (by simp),
      fun m hm => writtenString_partsOf (printable_fields d m hm)⟩
  · rw [List.forall_mem_map]
    exact List.forall_mem_cons.2 ⟨.string (writtenString_partsOf hkind), written_fields h⟩

end Written

/-- What is read for the text of a description whose numbers are finite: a description of the same
form, with everything in its place, and for each number the number that is read for its digits. So
the description itself is read exactly if each of its numbers is. -/
theorem datum?_compact {d : Description Float} (h : ∀ x ∈ d.numbers, x.isFinite = true) :
    (Json.datum? d.toJson.compact).bind ofDatum? = d.mapM? reread := by
  have hkind : (Value.ofString d.kind).datum? 126 = some (.text d.kind) := by
    rw [Value.ofString, Value.datum?, text?_partsOf]
    rfl
  have hmembers : d.toJson.datum? Json.deepest =
      (d.mapM? reread).map fun e => .table (("kind", .text d.kind) :: saidFields e) := by
    rw [toJson, Value.ofMembers, Json.deepest, Value.datum?, if_neg (by decide), members?_map,
      List.mapM_cons, hkind, mapM_fields h]
    cases d.mapM? reread <;> rfl
  rw [Json.datum?, Json.parse?_compact (written_toJson h), Option.bind_some, hmembers]
  cases he : d.mapM? reread with
  | none => rfl
  | some e =>
    have hform : e.kind = d.kind := by
      rw [← kind_map some e, ← mapM?_eq_some.1 he, kind_map]
    rw [Option.map_some, Option.bind_some, ← hform, ofDatum?_table]

theorem reads_compact (d : Description Float) (h : ∀ x ∈ d.numbers, x.isFinite = true) :
    (Json.datum? d.toJson.compact).bind ofDatum? = d.mapM? reread ∧
      ((Json.datum? d.toJson.compact).bind ofDatum? = some d ↔
        ∀ x ∈ d.numbers, reread x = some x) := by
  refine ⟨datum?_compact h, ?_⟩
  rw [datum?_compact h, mapM?_eq_some, map_eq_map]

/-- A controller of whole and half gains, started at a negative zero. -/
theorem reads_compact_halves :
    let d : Description Float := .controller ⟨2, 0.5, 0, 0, some [-0.0], none⟩
    (∀ x ∈ d.numbers, x.isFinite = true) ∧ (Json.datum? d.toJson.compact).bind ofDatum? = some d := by
  intro d
  have hfinite : ∀ x ∈ d.numbers, x.isFinite = true := by decide +kernel
  have hread {x : Float} (n : Json.Numeral)
      (hn : Json.Numeral.ofChars? (Number.Spelling.json.chars x) = some n) (hpower : n.power = none)
      (hlow : -308 ≤ n.significand.2) (hhigh : n.significand.2 < 0)
      (hx : (let y := Json.pointMagnitude n.significand.1 (-n.significand.2).toNat
        if n.negative then -y else y) = x) : reread x = some x := by
    rw [reread, Json.float?_of_point hn hpower hlow hhigh, hx]
  refine ⟨hfinite, (reads_compact d hfinite).2.2 ?_⟩
  have htwo : reread 2 = some 2 := hread ⟨false, ['2'], some ['0'], none⟩ (by decide +kernel) rfl
    (by decide) (by decide) (by decide +kernel)
  have hhalf : reread 0.5 = some 0.5 := hread ⟨false, ['0'], some ['5'], none⟩ (by decide +kernel)
    rfl (by decide) (by decide) (by decide +kernel)
  have hzero : reread 0 = some 0 := hread ⟨false, ['0'], some ['0'], none⟩ (by decide +kernel) rfl
    (by decide) (by decide) (by decide +kernel)
  have hstart : reread (-0.0) = some (-0.0) := hread ⟨true, ['0'], some ['0'], none⟩
    (by decide +kernel) rfl (by decide) (by decide) (by decide +kernel)
  simp only [d, numbers, Option.toList_some, Option.toList_none, List.flatten_cons,
    List.flatten_nil, List.cons_append, List.nil_append, List.forall_mem_cons]
  exact ⟨htwo, hhalf, hzero, hzero, hstart, List.forall_mem_nil _⟩

/-- The double next to one eleventh has 16 significant digits. Reading them rounds twice and ends
at the double after it. -/
theorem reads_compact_eleventh :
    let d (gain : Float) : Description Float := .controller ⟨gain, 0, 0, 0, none, none⟩
    (∀ x ∈ (d (1 / 11)).numbers, x.isFinite = true) ∧
      (Json.datum? (d (1 / 11)).toJson.compact).bind ofDatum? ≠ some (d (1 / 11)) := by
  intro d
  have hfinite : ∀ x ∈ (d (1 / 11)).numbers, x.isFinite = true := by decide +kernel
  have hread : reread (1 / 11) = some (Float.ofBits 0x3FB745D1745D1747) := by
    rw [reread, Json.float?_of_point (n := ⟨false, ['0'], some "09090909090909091".toList, none⟩)
      (by decide +kernel) rfl (by decide) (by decide)]
    decide +kernel
  refine ⟨hfinite, ?_⟩
  rw [datum?_compact hfinite, Ne, mapM?_eq_some, map_eq_map]
  intro hall
  have hsame : reread (1 / 11) = some (1 / 11) := hall _ (List.mem_cons_self ..)
  rw [hread] at hsame
  exact absurd hsame (by decide +kernel)

end Description
end Model
end LtiUnit
