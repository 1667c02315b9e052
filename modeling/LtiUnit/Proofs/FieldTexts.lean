import LtiUnit.Proofs.TomlReader
import LtiUnit.Proofs.WrittenDescription

/-!
# LtiUnit.Proofs.FieldTexts

The fields of a description that are given, what they say in a model file, and the texts in which
their numbers may be written there.

* `ofDatum?_gathered` — what the fields say is read as the description, with every number replaced.
* `datum?_spelled` — the text of a field says the same whether it is read as JSON on its own or
  in a document.
* `readsAs_text` — and as TOML, with the numbers read as those of TOML are.
-/

namespace LtiUnit
namespace Model
namespace Description

variable {α : Type}

/-- What a field of a description holds. -/
inductive FieldValue (α : Type) where
  | number (x : α)
  | vector (xs : List α)
  | matrix (rows : List (List α))

/-- What a field says if its numbers are read. -/
def FieldValue.datum? (read : α → Option Float) : FieldValue α → Option Datum
  | .number x => (read x).map .number
  | .vector xs => (xs.mapM read).map (listOf .number)
  | .matrix rows => (rows.mapM (List.mapM read)).map (listOf (listOf .number))

/-- A field that may be left out. -/
def given (key : String) (rows : Option (List (List α))) : List (String × FieldValue α) :=
  (rows.map fun rows => (key, .matrix rows)).toList

/-- The fields of a description without start values. Matrices that are left out have none. -/
def dynamicFields : Description α → List (String × FieldValue α)
  | .stateSpace f => given "A" f.A ++ given "B" f.B ++ given "C" f.C ++ given "D" f.D
  | .transferFunction f => [("num", .vector f.num), ("den", .vector f.den)]
  | .zeroPoleGain f =>
    [("zeros", .vector f.zeros), ("poles", .vector f.poles), ("gain", .number f.gain)]
  | .controller f =>
    [("kp", .number f.kp), ("ki", .number f.ki), ("kd", .number f.kd), ("T", .number f.t)]

/-- The names of these fields, of those too that are left out. -/
def keys : Description α → List String
  | .stateSpace _ => ["A", "B", "C", "D"]
  | .transferFunction _ => ["num", "den"]
  | .zeroPoleGain _ => ["zeros", "poles", "gain"]
  | .controller _ => ["kp", "ki", "kd", "T"]

theorem keys_sublist (d : Description α) : (d.dynamicFields.map Prod.fst).Sublist d.keys := by
  have hgiven (key : String) (rows : Option (List (List α))) :
      ((given key rows).map Prod.fst).Sublist [key] := by
    cases rows with
    | none => exact List.nil_sublist _
    | some rows => exact .refl _
  cases d with
  | stateSpace f =>
    simp only [dynamicFields, List.map_append]
    exact (((hgiven "A" f.A).append (hgiven "B" f.B)).append (hgiven "C" f.C)).append
      (hgiven "D" f.D)
  | _ => exact .refl _

/-- What the fields say if their numbers are read. -/
def saidBy (read : α → Option Float) (d : Description α) : List (String × Option Datum) :=
  d.dynamicFields.map fun m => (m.1, m.2.datum? read)

/-- No start values are given. -/
def IsRested : Description α → Prop
  | .stateSpace f => f.x0 = none ∧ f.u0 = none
  | .transferFunction f => f.x0 = none ∧ f.u0 = none
  | .zeroPoleGain f => f.x0 = none ∧ f.u0 = none
  | .controller f => f.x0 = none ∧ f.u0 = none

theorem gather?_append (ms ns : List (String × Option Datum)) :
    Members.gather? (ms ++ ns) =
      (Members.gather? ms).bind fun xs => (Members.gather? ns).map (xs ++ ·) := by
  induction ms with
  | nil => simp [Members.gather?]
  | cons m ms ih =>
    rw [List.cons_append, Members.gather?, Members.gather?, mapM_cons_eq, mapM_cons_eq,
      ← Members.gather?, ← Members.gather?, ih]
    cases m.2 with
    | none => rfl
    | some d =>
      cases Members.gather? ms with
      | none => rfl
      | some xs => cases Members.gather? ns <;> rfl

/-- The member of a matrix, if there is one. -/
def givenMember (key : String) (rows : Option (List (List Float))) : Members :=
  (rows.map fun rows => (key, listOf (listOf .number) rows)).toList

theorem gather?_given (key : String) (rows : Option (List (List α))) (read : α → Option Float) :
    Members.gather? ((given key rows).map fun m => (m.1, m.2.datum? read)) =
      (rows.mapM (List.mapM (List.mapM read))).map (givenMember key) := by
  cases rows with
  | none => rfl
  | some rows =>
    cases h : rows.mapM (List.mapM read) <;>
      simp [given, givenMember, Members.gather?, FieldValue.datum?, Option.mapM, h]

theorem fst_of_mem_givenMember {key : String} {rows : Option (List (List Float))}
    {m : String × Datum} (h : m ∈ givenMember key rows) : m.1 = key := by
  obtain ⟨_, -, rfl⟩ := Option.map_eq_some_iff.1 (Option.mem_toList.1 h)
  rfl

theorem valuesOf_append (ms ns : Members) (names : List String) :
    Members.valuesOf (ms ++ ns) names = ms.valuesOf names ++ ns.valuesOf names := by
  simp [Members.valuesOf]

theorem valuesOf_givenMember (key : String) (rows : Option (List (List Float)))
    (names : List String) : (givenMember key rows).valuesOf names =
      if names.contains key then (rows.map (listOf (listOf .number))).toList else [] := by
  cases rows <;> simp [givenMember, Members.valuesOf, List.filter_cons, apply_ite]

/-- The members of those matrices that are given. -/
def givenMatrices (A B C D : Option (List (List Float))) : Members :=
  givenMember "A" A ++ givenMember "B" B ++ givenMember "C" C ++ givenMember "D" D

theorem valuesOf_givenMatrices (A B C D : Option (List (List Float))) (names : List String) :
    (givenMatrices A B C D).valuesOf names =
      (givenMember "A" A).valuesOf names ++ (givenMember "B" B).valuesOf names ++
        (givenMember "C" C).valuesOf names ++ (givenMember "D" D).valuesOf names := by
  simp only [givenMatrices, valuesOf_append]

theorem matrix?_of_valuesOf {ms : Members} {names : List String}
    {rows : Option (List (List Float))}
    (h : ms.valuesOf names = (rows.map (listOf (listOf .number))).toList) :
    matrix? ms names = some rows := by
  rw [matrix?, Members.withDefault?, h]
  cases rows with
  | none => rfl
  | some rows => exact toRows?_optionOf (some rows)

theorem ofMembers?_givenMatrices (A B C D : Option (List (List Float))) :
    ofMembers? "ss" (givenMatrices A B C D) = some (.stateSpace ⟨A, B, C, D, none, none⟩) := by
  have hA : matrix? (givenMatrices A B C D) ["A", "a"] = some A :=
    matrix?_of_valuesOf (by simp [valuesOf_givenMatrices, valuesOf_givenMember])
  have hB : matrix? (givenMatrices A B C D) ["B", "b"] = some B :=
    matrix?_of_valuesOf (by simp [valuesOf_givenMatrices, valuesOf_givenMember])
  have hC : matrix? (givenMatrices A B C D) ["C", "c"] = some C :=
    matrix?_of_valuesOf (by simp [valuesOf_givenMatrices, valuesOf_givenMember])
  have hD : matrix? (givenMatrices A B C D) ["D", "d"] = some D :=
    matrix?_of_valuesOf (by simp [valuesOf_givenMatrices, valuesOf_givenMember])
  have hstart {name : String} (h : (givenMatrices A B C D).valuesOf [name] = []) :
      vector? (givenMatrices A B C D) name = some none := by
    rw [vector?, Members.withDefault?, h]
  have hx : vector? (givenMatrices A B C D) "x0" = some none :=
    hstart (by simp [valuesOf_givenMatrices, valuesOf_givenMember])
  have hu : vector? (givenMatrices A B C D) "u0" = some none :=
    hstart (by simp [valuesOf_givenMatrices, valuesOf_givenMember])
  simp [ofMembers?, hA, hB, hC, hD, hx, hu]

/-- What the fields of a description say that are given. -/
def givenFields : Description Float → Members
  | .stateSpace f => givenMatrices f.A f.B f.C f.D
  | .transferFunction f => [("num", listOf .number f.num), ("den", listOf .number f.den)]
  | .zeroPoleGain f =>
    [("zeros", listOf .number f.zeros), ("poles", listOf .number f.poles),
      ("gain", .number f.gain)]
  | .controller f =>
    [("kp", .number f.kp), ("ki", .number f.ki), ("kd", .number f.kd), ("T", .number f.t)]

theorem gather?_saidBy {d : Description α} (h : d.IsRested) (read : α → Option Float) :
    Members.gather? (d.saidBy read) = (d.mapM? read).map givenFields := by
  cases d with
  | stateSpace f =>
    obtain ⟨A, B, C, D, x0, u0⟩ := f
    obtain ⟨rfl, rfl⟩ := h
    simp only [saidBy, dynamicFields, List.map_append, gather?_append, gather?_given, mapM?]
    cases A.mapM (List.mapM (List.mapM read)) <;> cases B.mapM (List.mapM (List.mapM read)) <;>
      cases C.mapM (List.mapM (List.mapM read)) <;> cases D.mapM (List.mapM (List.mapM read)) <;>
      rfl
  | transferFunction f =>
    obtain ⟨num, den, x0, u0⟩ := f
    obtain ⟨rfl, rfl⟩ := h
    simp [saidBy, dynamicFields, Members.gather?, FieldValue.datum?, mapM?, givenFields,
      Option.map_bind, Option.bind_map, Option.bind_assoc, Function.comp_def]
  | zeroPoleGain f =>
    obtain ⟨zeros, poles, gain, x0, u0⟩ := f
    obtain ⟨rfl, rfl⟩ := h
    simp [saidBy, dynamicFields, Members.gather?, FieldValue.datum?, mapM?, givenFields,
      Option.map_bind, Option.bind_map, Option.bind_assoc, Function.comp_def]
  | controller f =>
    obtain ⟨kp, ki, kd, t, x0, u0⟩ := f
    obtain ⟨rfl, rfl⟩ := h
    simp [saidBy, dynamicFields, Members.gather?, FieldValue.datum?, mapM?, givenFields,
      Option.map_bind, Option.bind_map, Option.bind_assoc, Function.comp_def]

theorem ofMembers?_givenFields {e : Description Float} (h : e.IsRested) :
    ofMembers? e.kind (givenFields e) = some e := by
  cases e with
  | stateSpace f =>
    obtain ⟨A, B, C, D, x0, u0⟩ := f
    obtain ⟨rfl, rfl⟩ := h
    exact ofMembers?_givenMatrices A B C D
  | transferFunction f =>
    obtain ⟨num, den, x0, u0⟩ := f
    obtain ⟨rfl, rfl⟩ := h
    simp [kind, ofMembers?, givenFields, vector?, scalar?, Members.required?,
      Members.withDefault?, Members.valuesOf, toFloats?_listOf]
  | zeroPoleGain f =>
    obtain ⟨zeros, poles, gain, x0, u0⟩ := f
    obtain ⟨rfl, rfl⟩ := h
    simp [kind, ofMembers?, givenFields, vector?, scalar?, Members.withDefault?,
      Members.valuesOf, toFloats?_listOf, toFloat?_number]
  | controller f =>
    obtain ⟨kp, ki, kd, t, x0, u0⟩ := f
    obtain ⟨rfl, rfl⟩ := h
    simp [kind, ofMembers?, givenFields, vector?, scalar?, Members.withDefault?,
      Members.valuesOf, toFloat?_number]

theorem isRested_map {β : Type} (f : α → β) (d : Description α) :
    (d.map f).IsRested ↔ d.IsRested := by
  cases d <;> simp [map, IsRested]

/-- No field has the name of the kind. -/
theorem key_of_mem_givenFields (e : Description Float) : ∀ m ∈ givenFields e, m.1 ≠ "kind" := by
  cases e with
  | stateSpace f =>
    intro m hm
    simp only [givenFields, givenMatrices, List.mem_append] at hm
    rcases hm with ((hm | hm) | hm) | hm <;> rw [fst_of_mem_givenMember hm] <;> decide
  | _ => simp [givenFields]

/-- What is read for a description without start values that has been gathered from its fields. -/
theorem ofDatum?_gathered {d : Description α} (h : d.IsRested) (read : α → Option Float) :
    (Members.gather? (d.saidBy read)).bind
      (fun ms => ofDatum? (.table (("kind", .text d.kind) :: ms))) = d.mapM? read := by
  rw [gather?_saidBy h]
  cases he : d.mapM? read with
  | none => rfl
  | some e =>
    have hform : e.kind = d.kind := by
      rw [← kind_map some e, ← mapM?_eq_some.1 he, kind_map]
    have hrested : e.IsRested := by
      rw [← isRested_map some, ← mapM?_eq_some.1 he, isRested_map]
      exact h
    rw [Option.map_some, Option.bind_some, ofDatum?_kind (key_of_mem_givenFields e), ← hform,
      ofMembers?_givenFields hrested]

/-! ## Texts of fields -/

open Json (Value)

/-- The texts of a field. -/
def FieldValue.Text : FieldValue (List Char) → List Char → Prop
  | .number token => NumberText token
  | .vector xs => ListText NumberText xs
  | .matrix rows => ListText (ListText NumberText) rows

/-- The text is that of a field, with blanks around it. -/
def FieldValue.Spelled (field : FieldValue (List Char)) (s : String) : Prop :=
  Padded Blanks FieldValue.Text field s.toList

/-- What a field is in a JSON document. -/
def FieldValue.value : FieldValue (List Char) → Value
  | .number token => .number token
  | .vector xs => .array (xs.map .number)
  | .matrix rows => .array (rows.map fun xs => .array (xs.map .number))

theorem datum?_value (field : FieldValue (List Char)) (depth : Nat) :
    field.value.datum? (depth + 2) = field.datum? Json.float? := by
  have hnumber {depth : Nat} (token : List Char) :
      (Value.number token).datum? depth = (Json.float? token).map .number := by
    rw [Value.datum?]
  have hvector {depth : Nat} (xs : List (List Char)) :
      (Value.array (xs.map .number)).datum? (depth + 1) =
        (xs.mapM Json.float?).map (listOf .number) :=
    datum?_array fun token _ => hnumber token
  cases field with
  | number token => exact hnumber token
  | vector xs => exact hvector xs
  | matrix rows => exact datum?_array fun xs _ => hvector xs

theorem writtenAs_text {field : FieldValue (List Char)} {cs : List Char} (h : field.Text cs) :
    Json.WrittenAs cs field.value := by
  have hnumber (token text : List Char) (h : NumberText token text) :
      Json.WrittenAs text (.number token) := Json.writtenAs_numberText h
  cases field with
  | number token => exact hnumber token cs h
  | vector xs => exact Json.writtenAs_listText hnumber h
  | matrix rows =>
    exact Json.writtenAs_listText (fun xs text => Json.writtenAs_listText hnumber) h

theorem writtenAs_spelled {field : FieldValue (List Char)} {s : String} (h : field.Spelled s) :
    Json.WrittenAs s.toList field.value :=
  .padded (fun _ => Json.isBlank_of_blanks) (fun _ => writtenAs_text) h

theorem datum?_spelled {field : FieldValue (List Char)} {s : String} (h : field.Spelled s) :
    Json.datum? s = field.datum? Json.float? := by
  rw [Json.datum?, Json.parse?_of_writtenAs (writtenAs_spelled h)]
  exact datum?_value field 125

theorem mapM_map_some {β γ : Type} (g : α → Option β) (said : β → γ) (xs : List α) :
    xs.mapM (fun x => (g x).map said) = (xs.mapM g).map (List.map said) := by
  induction xs with
  | nil => rfl
  | cons x xs ih =>
    rw [mapM_cons_eq, mapM_cons_eq, ih]
    cases g x with
    | none => rfl
    | some y => cases xs.mapM g <;> rfl

theorem readsAs_text {field : FieldValue (List Char)} {cs : List Char} {depth : Nat}
    (h : field.Text cs) :
    Toml.ReadsAs (Toml.value? (depth + 2)) cs (field.datum? Toml.float?) := by
  have hnumber {depth : Nat} (token text : List Char) (h : NumberText token text) :
      Toml.ReadsAs (Toml.value? depth) text ((Toml.float? token).map .number) :=
    Toml.readsAs_number h
  have hvector {depth : Nat} (xs : List (List Char)) (text : List Char)
      (h : ListText NumberText xs text) : Toml.ReadsAs (Toml.value? (depth + 1)) text
        ((xs.mapM Toml.float?).map (listOf .number)) := by
    have hlist : Toml.ReadsAs (Toml.value? (depth + 1)) text _ := Toml.readsAs_listText hnumber h
    rwa [mapM_map_some, Option.map_map] at hlist
  cases field with
  | number token => exact hnumber token cs h
  | vector xs => exact hvector xs cs h
  | matrix rows =>
    have hlist : Toml.ReadsAs (Toml.value? (depth + 2)) cs _ := Toml.readsAs_listText hvector h
    rwa [mapM_map_some, Option.map_map] at hlist

end Description
end Model
end LtiUnit
