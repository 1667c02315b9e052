import LtiUnit.Command.Run
import LtiUnit.Proofs.Arguments
import LtiUnit.Proofs.FieldTexts
import LtiUnit.Proofs.Progress

/-!
# LtiUnit.Proofs.Routes

The three ways to a model of given numbers: typed on the command line, from a model file in JSON
notation, and from one in TOML notation.

All three read the same texts of lists, and each comes to the description with every number replaced
by what its reader makes of it (`toOption_describe`, `toOption_json`, `toOption_toml`).

* `routes_agree_iff` — so they come to the same description exactly if the readers agree on its
  numbers.
* `routes_differ_eleventh` — and they do not on all.
-/

namespace LtiUnit

/-! ## Texts of models -/

namespace Command

open Model (Description)
open Model.Description (FieldValue)

/-- The texts of the numbers of a model, as they are typed on the command line or stand in a
file. -/
inductive Texts where
  | stateSpace (a b c d : Option String)
  | transferFunction (num den : String)
  | zeroPoleGain (zeros poles gain : String)

namespace Texts

/-- The texts are those of a description without start values. -/
inductive Spells : Texts → Description (List Char) → Prop
  | stateSpace {A B C D : Option (List (List (List Char)))} {a b c d : Option String}
    (ha : Option.Rel (fun rows => FieldValue.Spelled (.matrix rows)) A a)
    (hb : Option.Rel (fun rows => FieldValue.Spelled (.matrix rows)) B b)
    (hc : Option.Rel (fun rows => FieldValue.Spelled (.matrix rows)) C c)
    (hd : Option.Rel (fun rows => FieldValue.Spelled (.matrix rows)) D d) :
    Spells (.stateSpace a b c d) (.stateSpace ⟨A, B, C, D, none, none⟩)
  | transferFunction {xs ys : List (List Char)} {num den : String}
    (hnum : FieldValue.Spelled (.vector xs) num) (hden : FieldValue.Spelled (.vector ys) den) :
    Spells (.transferFunction num den) (.transferFunction ⟨xs, ys, none, none⟩)
  | zeroPoleGain {xs ys : List (List Char)} {token : List Char} {zeros poles gain : String}
    (hzeros : FieldValue.Spelled (.vector xs) zeros)
    (hpoles : FieldValue.Spelled (.vector ys) poles)
    (hgain : FieldValue.Spelled (.number token) gain) :
    Spells (.zeroPoleGain zeros poles gain) (.zeroPoleGain ⟨xs, ys, token, none, none⟩)

def kind : Texts → String
  | .stateSpace .. => "ss"
  | .transferFunction .. => "tf"
  | .zeroPoleGain .. => "zpk"

/-- The texts that are given, under their names. -/
def fields : Texts → List (String × String)
  | .stateSpace a b c d =>
    (a.map ("A", ·)).toList ++ (b.map ("B", ·)).toList ++ (c.map ("C", ·)).toList ++
      (d.map ("D", ·)).toList
  | .transferFunction num den => [("num", num), ("den", den)]
  | .zeroPoleGain zeros poles gain => [("zeros", zeros), ("poles", poles), ("gain", gain)]

/-- The kind as a text in quotes, and the other texts. -/
def members (t : Texts) : List (String × String) := ("kind", "\"" ++ t.kind ++ "\"") :: t.fields

/-- A member as it stands in a file in JSON notation. -/
def jsonMember (m : String × String) : String := "\"" ++ m.1 ++ "\":" ++ m.2

/-- The line of a member in a file in TOML notation. -/
def tomlLine (m : String × String) : String := m.1 ++ " = " ++ m.2 ++ "\n"

/-- The model file in JSON notation. -/
def json (t : Texts) : String :=
  "\x7b" ++ Text.separated "," (t.members.map jsonMember) ++ "\x7d"

/-- The model file in TOML notation. -/
def toml (t : Texts) : String := String.join (t.members.map tomlLine)

/-- What is typed on the command line. The gain is a number there. -/
def source (t : Texts) (gain : Float) : ModelSource :=
  match t with
  | .stateSpace a b c d => .stateSpace a b c d
  | .transferFunction num den => .transferFunction num den
  | .zeroPoleGain zeros poles _ => .zeroPoleGain zeros poles gain

variable {t : Texts} {d : Description (List Char)}

/-- A text of letters. -/
def IsWord (s : String) : Prop := s.toList ≠ [] ∧ ∀ c ∈ s.toList, c.isAlpha = true

instance (s : String) : Decidable (IsWord s) :=
  decidable_of_iff (s.toList ≠ [] ∧ s.toList.all Char.isAlpha = true)
    (and_congr_right fun _ => List.all_eq_true)

theorem isWord_kind (t : Texts) : IsWord t.kind := by
  have hkinds : ∀ kind ∈ ["ss", "tf", "zpk"], IsWord kind := by decide
  exact hkinds _ (by cases t <;> simp [kind])

theorem Spells.kind (h : t.Spells d) : t.kind = d.kind := by
  cases h <;> rfl

theorem Spells.isRested (h : t.Spells d) : d.IsRested := by
  cases h <;> exact ⟨rfl, rfl⟩

/-- A field and its text under the same name. -/
structure Named (field : String × FieldValue (List Char)) (m : String × String) : Prop where
  key : field.1 = m.1
  isWord : IsWord m.1
  spelled : field.2.Spelled m.2

theorem named {key s : String} {field : FieldValue (List Char)} (hkey : IsWord key)
    (h : field.Spelled s) : Named (key, field) (key, s) := ⟨rfl, hkey, h⟩

theorem Spells.fields (h : t.Spells d) : List.Forall₂ Named d.dynamicFields t.fields := by
  have hgiven {key : String} {rows : Option (List (List (List Char)))} {s : Option String}
      (hkey : IsWord key) (h : Option.Rel (fun rows => FieldValue.Spelled (.matrix rows)) rows s) :
      List.Forall₂ Named (Description.given key rows) (s.map (key, ·)).toList := by
    cases h with
    | none => exact .nil
    | some h => exact .cons (named hkey h) .nil
  cases h with
  | stateSpace ha hb hc hd =>
    exact List.rel_append (List.rel_append (List.rel_append (hgiven (by decide) ha)
      (hgiven (by decide) hb)) (hgiven (by decide) hc)) (hgiven (by decide) hd)
  | transferFunction hnum hden =>
    exact .cons (named (by decide) hnum) (.cons (named (by decide) hden) .nil)
  | zeroPoleGain hzeros hpoles hgain =>
    exact .cons (named (by decide) hzeros)
      (.cons (named (by decide) hpoles) (.cons (named (by decide) hgain) .nil))

/-! ### In JSON notation -/

theorem toList_quoted {s : String} (h : IsWord s) :
    (Json.quoted (Json.partsOf s)).toList = '"' :: (s.toList ++ ['"']) := by
  have hchar (c : Char) (hc : c.isAlpha = true) : (Json.charText c).toList = [c] := by
    have hchar : c.toString.toList = [c] := String.toList_singleton c
    have hcode := Text.code_of_isAlpha hc
    unfold Json.charText
    split
    case h_8 => rw [if_neg (by omega), hchar]
    all_goals exact absurd hc (by decide)
  have hjoin (cs : List Char) (hcs : ∀ c ∈ cs, c.isAlpha = true) :
      (String.join ((cs.map Json.Part.char).map Json.Part.text)).toList = cs := by
    induction cs with
    | nil => rfl
    | cons c cs ih =>
      obtain ⟨hc, hcs⟩ := List.forall_mem_cons.1 hcs
      rw [List.map_cons, List.map_cons, String.join_cons, String.toList_append, ih hcs]
      exact congrArg (· ++ cs) (hchar c hc)
  rw [Json.quoted, String.toList_append, String.toList_append, Json.partsOf, hjoin _ h.2]
  rfl

theorem writtenString_of_isWord {s : String} (h : IsWord s) :
    Json.WrittenString (Json.partsOf s) :=
  Description.writtenString_partsOf fun c hc => by
    have hcode := Text.code_of_isAlpha (h.2 c hc)
    omega

theorem memberAs_jsonMember {key s : String} {v : Json.Value} (hkey : IsWord key)
    (h : Json.WrittenAs s.toList v) :
    Json.MemberAs (jsonMember (key, s)).toList (Json.partsOf key, v) := by
  have hmember := Json.memberAs_quoted (writtenString_of_isWord hkey) h
  have htext : (jsonMember (key, s)).toList = '"' :: (key.toList ++ '"' :: ':' :: s.toList) := by
    simp [jsonMember]
  rw [toList_quoted hkey] at hmember
  rw [htext]
  simpa using hmember

theorem Spells.memberAs (h : t.Spells d) :
    List.Forall₂ Json.MemberAs (t.members.map fun m => (jsonMember m).toList)
      ((("kind", .ofString t.kind) :: d.dynamicFields.map fun m => (m.1, m.2.value)).map
        fun m => (Json.partsOf m.1, m.2)) := by
  have hkind : Json.WrittenAs ("\"" ++ t.kind ++ "\"").toList (.ofString t.kind) := by
    have hword := isWord_kind t
    have htext : ("\"" ++ t.kind ++ "\"").toList = (Json.quoted (Json.partsOf t.kind)).toList := by
      rw [toList_quoted hword]
      simp
    rw [htext]
    exact Json.writtenAs_scalar fun rest _ => Json.scan_quoted (writtenString_of_isWord hword) rest
  refine .cons (memberAs_jsonMember (by decide) hkind) ?_
  rw [List.map_map, List.forall₂_map_left_iff, List.forall₂_map_right_iff]
  refine h.fields.flip.imp ?_
  rintro ⟨key, s⟩ ⟨_, field⟩ ⟨rfl, hword, hspelled⟩
  exact memberAs_jsonMember hword (Description.writtenAs_spelled hspelled)

theorem gather?_cons (key : String) (said : Datum) (ms : List (String × Option Datum)) :
    Members.gather? ((key, some said) :: ms) = (Members.gather? ms).map ((key, said) :: ·) := by
  rw [Members.gather?, mapM_cons_eq]
  rfl

theorem Spells.datum?_json (h : t.Spells d) :
    Json.datum? t.json = (Members.gather? (d.saidBy Json.float?)).map
      fun ms => .table (("kind", .text t.kind) :: ms) := by
  have htext : t.json.toList = '\x7b' ::
      (Text.joinWith ',' (t.members.map fun m => (jsonMember m).toList) ++ ['\x7d']) := by
    rw [json, String.toList_append, String.toList_append, Text.toList_separated rfl, List.map_map]
    rfl
  have hwritten := Json.writtenAs_members h.memberAs
  rw [← htext] at hwritten
  have hkind : (Json.Value.ofString t.kind).datum? 126 = some (.text t.kind) := by
    rw [Json.Value.ofString, Json.Value.datum?, Description.text?_partsOf]
    rfl
  have hfields : (d.dynamicFields.map fun m => (m.1, m.2.value)).mapM
      (fun m => (m.2.datum? 126).map (m.1, ·)) = Members.gather? (d.saidBy Json.float?) := by
    rw [Members.gather?, Description.saidBy, List.mapM_map, List.mapM_map]
    congr 1
    funext m
    exact congrArg _ (Description.datum?_value m.2 124)
  rw [Json.datum?, Json.parse?_of_writtenAs hwritten, Option.bind_some, Json.deepest,
    Json.Value.datum?, if_neg (by decide), Description.members?_map, mapM_cons_eq, hkind, hfields,
    Option.map_some, Option.bind_some, Option.map_map]
  rfl

/-! ### In TOML notation -/

theorem isKey_of_isWord {s : String} (h : IsWord s) : Toml.IsKey s :=
  ⟨h.1, fun c hc => by simp [Toml.isKeyChar, Char.isAlphanum, h.2 c hc]⟩

theorem lineAs_tomlLine {key s : String} {o : Option Datum} (hkey : IsWord key)
    (h : Toml.Valued o s.toList) : Toml.LineAs (tomlLine (key, s)).toList (key, o) where
  key := isKey_of_isWord hkey
  value := ⟨s.toList, h, by simp [tomlLine, Toml.lineOf]⟩

theorem valued_spelled {field : FieldValue (List Char)} {s : String} (h : field.Spelled s) :
    Toml.Valued (field.datum? Toml.float?) s.toList := by
  obtain ⟨before, text, after, hbefore, htext, hafter, heq⟩ := h
  have hreads : Toml.ReadsAs (Toml.value? (77 + 2)) text (field.datum? Toml.float?) :=
    Description.readsAs_text htext
  exact ⟨before, text, after, hbefore, hreads, hafter, heq⟩

theorem Spells.lineAs (h : t.Spells d) :
    List.Forall₂ Toml.LineAs (t.members.map fun m => (tomlLine m).toList)
      (("kind", some (.text t.kind)) :: d.saidBy Toml.float?) := by
  have hkind : Toml.Valued (some (.text t.kind)) ("\"" ++ t.kind ++ "\"").toList := by
    have hword := isWord_kind t
    have hreads : Toml.ReadsAs (Toml.value? (Toml.deepest - 1)) _ _ :=
      Toml.readsAs_word hword.1 hword.2
    rw [String.ofList_toList] at hreads
    exact ⟨[], _, [], List.forall_mem_nil _, hreads, List.forall_mem_nil _, by simp⟩
  refine .cons (lineAs_tomlLine (by decide) hkind) ?_
  rw [List.forall₂_map_left_iff, Description.saidBy, List.forall₂_map_right_iff]
  refine h.fields.flip.imp ?_
  rintro ⟨key, s⟩ ⟨_, field⟩ ⟨rfl, hword, hspelled⟩
  exact lineAs_tomlLine hword (valued_spelled hspelled)

theorem nodup_keys (d : Description (List Char)) :
    ("kind" :: (d.saidBy Toml.float?).map Prod.fst).Nodup := by
  have hkeys : ("kind" :: d.keys).Nodup := by
    cases d <;> simp [Description.keys]
  have hsublist := (Description.keys_sublist d).cons_cons "kind"
  rw [Description.saidBy, List.map_map]
  exact hkeys.sublist hsublist

theorem Spells.members?_toml (h : t.Spells d) :
    Toml.members? t.toml =
      (Members.gather? (d.saidBy Toml.float?)).map (("kind", .text t.kind) :: ·) := by
  have htext : t.toml.toList = (t.members.map fun m => (tomlLine m).toList).flatten := by
    rw [toml, String.toList_join, List.flatMap_map, List.flatMap_def]
  rw [Toml.members?_lines htext h.lineAs (nodup_keys d), gather?_cons]

end Texts

/-! ## Routes -/

section Routes

variable {t : Texts} {d : Description (List Char)} {ε ε' α : Type}

theorem toOption_mapError (x : Except ε α) (wrap : ε → ε') :
    (x.mapError wrap).toOption = x.toOption := by
  cases x <;> rfl

theorem toOption_matrix {rows : List (List (List Char))} {s : String}
    (h : FieldValue.Spelled (.matrix rows) s) (name : String) :
    (matrix name s).toOption = rows.mapM (List.mapM Json.float?) := by
  rw [matrix, Description.datum?_spelled h, FieldValue.datum?]
  cases rows.mapM (List.mapM Json.float?) with
  | none => rfl
  | some xs => simp [Description.toRows?_listOf, Except.toOption]

theorem toOption_list {xs : List (List Char)} {s : String}
    (h : FieldValue.Spelled (.vector xs) s) (name : String) :
    (list name s).toOption = xs.mapM Json.float? := by
  rw [list, Description.datum?_spelled h, FieldValue.datum?]
  cases xs.mapM Json.float? with
  | none => rfl
  | some ys =>
    have hread := Description.toFloats?_listOf ys
    simp only [Option.map_some, Description.listOf] at hread ⊢
    simp [hread, Except.toOption]

theorem toOption_optional {rows : Option (List (List (List Char)))} {s : Option String}
    (h : Option.Rel (fun rows => FieldValue.Spelled (.matrix rows)) rows s) (name : String) :
    (optional (matrix name) s).toOption = rows.mapM (List.mapM (List.mapM Json.float?)) := by
  cases h with
  | none => rfl
  | @some xs s h =>
    have hmatrix := toOption_matrix h name
    rw [optional, Option.mapM, ← hmatrix]
    cases matrix name s <;> rfl

/-- What is typed comes to the description with its numbers read as those of JSON are. -/
theorem toOption_describe (h : t.Spells d) {gain : Float}
    (hgain : ∀ form, d = .zeroPoleGain form → Json.float? form.gain = some gain) (f : Files) :
    ((t.source gain).describe f).toOption = d.mapM? Json.float? := by
  cases h with
  | stateSpace ha hb hc hd =>
    simp only [Texts.source, ModelSource.describe, toOption_bind, toOption_mapError,
      toOption_optional ha, toOption_optional hb, toOption_optional hc, toOption_optional hd,
      Description.mapM?]
    rfl
  | transferFunction hnum hden =>
    simp only [Texts.source, ModelSource.describe, toOption_bind, toOption_mapError,
      toOption_list hnum, toOption_list hden, Description.mapM?]
    rfl
  | zeroPoleGain hzeros hpoles _ =>
    simp only [Texts.source, ModelSource.describe, toOption_bind, toOption_mapError,
      toOption_list hzeros, toOption_list hpoles, Description.mapM?, hgain _ rfl]
    rfl

theorem toOption_loadModel {f : Files} {p : Path} {s : String} (hs : f.text? p = .ok s) :
    (loadModel f p).toOption =
      (if p.extension? == some jsonEnding then Json.datum? s
        else (Toml.members? s).map .table).bind Description.ofDatum? := by
  simp only [loadModel, hs]
  split <;> rename_i h
  · exact h.symm
  · exact h.symm

theorem toOption_json (h : t.Spells d) {f : Files} {p : Path} (hs : f.text? p = .ok t.json)
    (hp : p.extension? = some jsonEnding) :
    ((ModelSource.file p).describe f).toOption = d.mapM? Json.float? := by
  rw [ModelSource.describe, toOption_loadModel hs, hp, beq_self_eq_true, if_pos rfl, h.datum?_json,
    ← Description.ofDatum?_gathered h.isRested, ← h.kind]
  cases Members.gather? (d.saidBy Json.float?) <;> rfl

theorem toOption_toml (h : t.Spells d) {f : Files} {p : Path} (hs : f.text? p = .ok t.toml)
    (hp : p.extension? ≠ some jsonEnding) :
    ((ModelSource.file p).describe f).toOption = d.mapM? Toml.float? := by
  rw [ModelSource.describe, toOption_loadModel hs, beq_eq_false_iff_ne.2 hp, h.members?_toml,
    ← Description.ofDatum?_gathered h.isRested, ← h.kind]
  cases Members.gather? (d.saidBy Toml.float?) <;> rfl

/-- The readers agree on the numbers of a description: on each of them, or in that each of them
finds one that it does not take. -/
def ReadAlike (d : Description (List Char)) : Prop :=
  (∀ x ∈ d.numbers, Toml.float? x = Json.float? x) ∨
    (∃ x ∈ d.numbers, Toml.float? x = none) ∧ ∃ x ∈ d.numbers, Json.float? x = none

/-- What is typed and what stands in a file in JSON notation is read as one description, or both are
not read; what stands in a file in TOML notation is read with the numbers that TOML has for the same
digits. So all three come to the same, a description or none, exactly if the digits are read
alike. -/
theorem routes_agree_iff (h : t.Spells d) {gain : Float}
    (hgain : ∀ form, d = .zeroPoleGain form → Json.float? form.gain = some gain) {f : Files}
    {p q : Path} (hjson : f.text? p = .ok t.json) (hp : p.extension? = some jsonEnding)
    (htoml : f.text? q = .ok t.toml) (hq : q.extension? ≠ some jsonEnding) :
    ((t.source gain).describe f).toOption = d.mapM? Json.float? ∧
      ((ModelSource.file p).describe f).toOption = d.mapM? Json.float? ∧
      ((ModelSource.file q).describe f).toOption = d.mapM? Toml.float? ∧
      (((ModelSource.file q).describe f).toOption = ((ModelSource.file p).describe f).toOption ↔
        ReadAlike d) := by
  have hread := toOption_toml h htoml hq
  have hread' := toOption_json h hjson hp
  refine ⟨toOption_describe h hgain f, hread', hread, ?_⟩
  rw [hread, hread']
  exact Description.mapM?_eq_mapM?

end Routes

/-! ## A pair of model files -/

section Pair

open Files (follow_eq_within_iff)
open LtiUnit.Path (ofText)

variable {t : Texts} {name : String} {s : String}

theorem isFileName_plant : ∀ name ∈ ["plant.json", "plant.toml"], Path.isFileName name = true := by
  have hlong : ∀ name ∈ ["plant.json", "plant.toml"], 3 ≤ name.length ∧ '/' ∉ name.toList := by
    decide
  exact fun name h => Path.isFileName_of_length (hlong name h).1 (hlong name h).2

/-- The model files of some texts, one beside the other. -/
def Texts.files (t : Texts) : Files where
  entries :=
    [(["plant.json"], .file (.ofText t.json) false), (["plant.toml"], .file (.ofText t.toml) false)]
  here := []
  unique := by simp
  grounded := by simp
  proper := by simpa using isFileName_plant

theorem text?_of_follow {f : Files} {p : Path} {d : Location} {executable : Bool}
    {hname : Path.isFileName name = true}
    (hfollow : f.follow p = .ok (.within name d false hname))
    (hget : f.get? (name :: d) = some (.file (.ofText s) executable)) : f.text? p = .ok s := by
  have hcontent : f.content? p = .ok (.ofText s) := by
    simp only [Files.content?, Files.find?_of_file hfollow hget, bind, Except.bind]
    rfl
  simp only [Files.text?, hcontent, bind, Except.bind, Content.text?_ofText]
  rfl

theorem text?_json (t : Texts) : t.files.text? (ofText "plant.json") = .ok t.json := by
  have hname := isFileName_plant "plant.json" (by simp)
  have hfollow : t.files.follow (ofText "plant.json") =
      .ok (.within "plant.json" [] false hname) :=
    follow_eq_within_iff.2 ⟨⟨by decide, by decide⟩, by decide, [], 0, [], by decide, rfl, rfl, rfl⟩
  exact text?_of_follow hfollow rfl

theorem text?_toml (t : Texts) : t.files.text? (ofText "plant.toml") = .ok t.toml := by
  have hname := isFileName_plant "plant.toml" (by simp)
  have hfollow : t.files.follow (ofText "plant.toml") =
      .ok (.within "plant.toml" [] false hname) :=
    follow_eq_within_iff.2 ⟨⟨by decide, by decide⟩, by decide, [], 0, [], by decide, rfl, rfl, rfl⟩
  exact text?_of_follow hfollow rfl

/-- A lag of first order by its gain. -/
def lag {α : Type} (gain first last : α) : Description α :=
  .transferFunction ⟨[gain], [first, last], none, none⟩

/-- The texts of such a lag, by the digits of its gain. -/
def Texts.lag (gain : String) : Texts := .transferFunction ("[" ++ gain ++ "]") "[2.5, 1.0]"

/-- The numbers in these texts. -/
def lagTokens (gain : String) : Description (List Char) :=
  lag gain.toList "2.5".toList "1.0".toList

theorem Texts.lag_spells {gain : String} (h : IsDecimal gain.toList) :
    (Texts.lag gain).Spells (lagTokens gain) := by
  have hnumber {cs before : List Char} (hbefore : Gap before) (hcs : IsDecimal cs) :
      Padded Gap NumberText cs (before ++ cs) :=
    ⟨before, cs, [], hbefore, ⟨rfl, hcs⟩, .nil, by simp⟩
  have hspelled {xs : List (List Char)} {s : String} (h : ListText NumberText xs s.toList) :
      FieldValue.Spelled (.vector xs) s :=
    ⟨[], _, [], List.forall_mem_nil _, h, List.forall_mem_nil _, by simp⟩
  refine .transferFunction (hspelled ?_) (hspelled ?_)
  · have htext := ListText.items (.cons (hnumber .nil h) .nil)
    simpa [Text.joinWith] using htext
  · have hparts : List.Forall₂ (Padded Gap NumberText) ["2.5".toList, "1.0".toList]
        ["2.5".toList, " 1.0".toList] :=
      .cons (hnumber .nil ⟨_, rfl, rfl⟩) (.cons (hnumber (.blank rfl .nil) ⟨_, rfl, rfl⟩) .nil)
    exact .items hparts

theorem jsonFloat?_eq {token : List Char} (n : Json.Numeral) {x : Float}
    (hn : Json.Numeral.ofChars? token = some n) (hpower : n.power = none)
    (hlow : -308 ≤ n.significand.2) (hhigh : n.significand.2 < 0)
    (hx : (let y := Json.pointMagnitude n.significand.1 (-n.significand.2).toNat
      if n.negative then -y else y) = x) : Json.float? token = some x := by
  rw [Json.float?_of_point hn hpower hlow hhigh, hx]

theorem mapM?_json {gain : String} {x : Float} (h : Json.float? gain.toList = some x) :
    (lagTokens gain).mapM? Json.float? = some (lag x 2.5 1) := by
  have hfirst : Json.float? "2.5".toList = some 2.5 := jsonFloat?_eq
    ⟨false, ['2'], some ['5'], none⟩ rfl rfl (by decide) (by decide) (by decide +kernel)
  have hlast : Json.float? "1.0".toList = some 1 := jsonFloat?_eq
    ⟨false, ['1'], some ['0'], none⟩ rfl rfl (by decide) (by decide) (by decide +kernel)
  simp only [lagTokens, lag, Description.mapM?, List.mapM_cons, List.mapM_nil, h, hfirst, hlast]
  rfl

theorem mapM?_toml {gain : String} {x : Float} (h : Toml.float? gain.toList = some x) :
    (lagTokens gain).mapM? Toml.float? = some (lag x 2.5 1) := by
  have hfirst : Toml.float? "2.5".toList = some 2.5 := by decide +kernel
  have hlast : Toml.float? "1.0".toList = some 1 := by decide +kernel
  simp only [lagTokens, lag, Description.mapM?, List.mapM_cons, List.mapM_nil, h, hfirst, hlast]
  rfl

/-- A lag with a gain of one half is the same by all routes. -/
theorem routes_agree_iff_half :
    let t := Texts.lag "0.5"
    ((t.source 0).describe t.files).toOption = some (lag 0.5 2.5 1) ∧
      ((ModelSource.file (ofText "plant.json")).describe t.files).toOption =
        some (lag 0.5 2.5 1) ∧
      ((ModelSource.file (ofText "plant.toml")).describe t.files).toOption =
        some (lag 0.5 2.5 1) := by
  intro t
  have hjson : Json.float? "0.5".toList = some 0.5 := jsonFloat?_eq
    ⟨false, ['0'], some ['5'], none⟩ rfl rfl (by decide) (by decide) (by decide +kernel)
  have htoml : Toml.float? "0.5".toList = some 0.5 := by decide +kernel
  have hspells : t.Spells (lagTokens "0.5") := Texts.lag_spells ⟨_, rfl, rfl⟩
  have hgain : ∀ form, lagTokens "0.5" = .zeroPoleGain form → Json.float? form.gain = some 0 :=
    fun _ h => by cases h
  obtain ⟨htyped, hfile, hfile', -⟩ := routes_agree_iff hspells hgain (text?_json t) (by decide)
    (text?_toml t) (by decide)
  exact ⟨htyped.trans (mapM?_json hjson), hfile.trans (mapM?_json hjson),
    hfile'.trans (mapM?_toml htoml)⟩

/-- A lag with the double next to one eleventh as its gain is not the same by all routes: the
digits of the gain are rounded twice if they are read as JSON, and end at the double after it. -/
theorem routes_differ_eleventh :
    let t := Texts.lag "0.09090909090909091"
    t.Spells (lagTokens "0.09090909090909091") ∧
      ((t.source 0).describe t.files).toOption =
        some (lag (Float.ofBits 0x3FB745D1745D1747) 2.5 1) ∧
      ((ModelSource.file (ofText "plant.json")).describe t.files).toOption =
        some (lag (Float.ofBits 0x3FB745D1745D1747) 2.5 1) ∧
      ((ModelSource.file (ofText "plant.toml")).describe t.files).toOption =
        some (lag (1 / 11) 2.5 1) ∧
      ((ModelSource.file (ofText "plant.toml")).describe t.files).toOption ≠
        ((ModelSource.file (ofText "plant.json")).describe t.files).toOption := by
  intro t
  have hjson : Json.float? "0.09090909090909091".toList = some (Float.ofBits 0x3FB745D1745D1747) :=
    jsonFloat?_eq ⟨false, ['0'], some "09090909090909091".toList, none⟩ rfl rfl (by decide)
      (by decide) (by decide +kernel)
  have htoml : Toml.float? "0.09090909090909091".toList = some (1 / 11) := by decide +kernel
  have hspells : t.Spells (lagTokens "0.09090909090909091") := Texts.lag_spells ⟨_, rfl, rfl⟩
  have hgain : ∀ form, lagTokens "0.09090909090909091" = .zeroPoleGain form →
      Json.float? form.gain = some 0 := fun _ h => by cases h
  have hread := (toOption_json hspells (text?_json t) (by decide)).trans (mapM?_json hjson)
  have hread' := (toOption_toml hspells (text?_toml t) (by decide)).trans (mapM?_toml htoml)
  refine ⟨hspells, (toOption_describe hspells hgain _).trans (mapM?_json hjson), hread, hread', ?_⟩
  rw [hread, hread']
  decide +kernel

end Pair

end Command
end LtiUnit
