import LtiUnit.Files.Path

/-!
# LtiUnit.Files.Tree

Directories and files as they stand at one moment. The entries are kept in a list, in no order that
counts; what they come to is `get?`, which says what stands at a location. Every operation has one
lemma that says what it does to this view: `get?_addDirectory`, `get?_setFile` and
`get?_removeBelow`.
-/

namespace LtiUnit

/-- What a file holds. Archives are taken for the files that are packed in them, under their names,
and the programs of a machine for the names by which it knows them. -/
inductive Content where
  | data (bytes : ByteArray)
  | archive (files : List (String × Content))
  | program (name : String)

def Content.ofText (s : String) : Content := .data s.toUTF8

def Content.text? : Content → Option String
  | .data bytes => String.fromUTF8? bytes
  | _ => none

theorem Content.text?_ofText (s : String) : (Content.ofText s).text? = some s := by
  simp [Content.ofText, Content.text?, String.fromUTF8?, s.isValidUTF8, String.fromUTF8]

inductive Entry where
  | directory
  | file (content : Content) (executable : Bool)

instance (e : Option Entry) : Decidable (e = some .directory) :=
  match e with
  | some .directory => isTrue rfl
  | some (.file ..) => isFalse (by simp)
  | none => isFalse (by simp)

/-- A location is a list of names from the inside out: `name :: d` is in the directory `d`, and
`[]` is the root. -/
abbrev Location := List String

def Location.path (l : Location) : Path := Path.ofText ("/" ++ Text.separated "/" l.reverse)

/-- The entries at their locations, and the directory that relative paths count from. No location
has two entries, whatever there is lies in a directory, and its name can name a file. -/
structure Files where
  entries : List (Location × Entry)
  here : Location
  unique : (entries.map Prod.fst).Nodup
  grounded : ∀ x ∈ entries, ∃ name d,
    x.1 = name :: d ∧ (d = [] ∨ (d, Entry.directory) ∈ entries)
  proper : ∀ x ∈ entries, ∀ name ∈ x.1.head?, Path.isFileName name = true

namespace Files

def empty : Files := ⟨[], [], by simp, by simp, by simp⟩

/-- What stands at a location. The root is always there. -/
def get? (f : Files) : Location → Option Entry
  | [] => some .directory
  | l => f.entries.lookup l

def names (f : Files) (d : Location) : List String :=
  f.entries.filterMap fun
    | (name :: d', _) => if d' = d then some name else none
    | ([], _) => none

/-- Whether a location is another one, or lies below it. -/
def isBelow (l d : Location) : Bool := d.isSuffixOf l

theorem isBelow_cons {l d : Location} (name : String) (h : isBelow l d = true) :
    isBelow (name :: l) d = true :=
  List.isSuffixOf_iff_suffix.2 ((List.isSuffixOf_iff_suffix.1 h).trans (List.suffix_cons name l))

theorem lookup_filter {l : Location} (keep : Location → Bool) (es : List (Location × Entry)) :
    (es.filter fun x => keep x.1).lookup l = if keep l then es.lookup l else none := by
  induction es with
  | nil => simp
  | cons x es ih =>
    obtain ⟨l', e⟩ := x
    simp only [List.filter_cons]
    by_cases hl : l = l'
    · subst hl
      cases hk : keep l <;> simp [ih, hk]
    · have hb : (l == l') = false := beq_eq_false_iff_ne.2 hl
      cases hk : keep l' <;> simp [List.lookup_cons, hb, ih]

theorem lookup_eq_some_of_mem {l : Location} {e : Entry} {es : List (Location × Entry)}
    (unique : (es.map Prod.fst).Nodup) (h : (l, e) ∈ es) : es.lookup l = some e := by
  induction es with
  | nil => simp at h
  | cons x es ih =>
    obtain ⟨l', e'⟩ := x
    simp only [List.map_cons, List.nodup_cons] at unique
    rcases List.mem_cons.1 h with h | h
    · obtain ⟨rfl, rfl⟩ := Prod.mk.inj h
      simp
    · have hne : l ≠ l' := fun hl => unique.1 (List.mem_map.2 ⟨(l, e), h, hl⟩)
      simp [List.lookup_cons, beq_eq_false_iff_ne.2 hne, ih unique.2 h]

theorem mem_of_lookup_eq_some {l : Location} {e : Entry} {es : List (Location × Entry)}
    (h : es.lookup l = some e) : (l, e) ∈ es := by
  induction es with
  | nil => simp at h
  | cons x es ih =>
    obtain ⟨l', e'⟩ := x
    by_cases hl : l = l'
    · subst hl
      simp_all
    · simp only [List.lookup_cons, beq_eq_false_iff_ne.2 hl] at h
      exact List.mem_cons_of_mem _ (ih h)

theorem mem_entries_iff (f : Files) {l : Location} {e : Entry} (hl : l ≠ []) :
    (l, e) ∈ f.entries ↔ f.get? l = some e := by
  cases l with
  | nil => exact absurd rfl hl
  | cons name d => exact ⟨lookup_eq_some_of_mem f.unique, mem_of_lookup_eq_some⟩

/-- What is a directory lies in the list of entries, or is the root. -/
theorem directory_mem (f : Files) {d : Location} (h : f.get? d = some .directory) :
    d = [] ∨ (d, Entry.directory) ∈ f.entries := by
  by_cases hd : d = []
  · exact .inl hd
  · exact .inr ((f.mem_entries_iff hd).2 h)

/-- What a directory holds lies in a directory. -/
theorem get?_parent (f : Files) {name : String} {d : Location} {e : Entry}
    (h : f.get? (name :: d) = some e) : f.get? d = some .directory := by
  obtain ⟨name', d', hl, hd⟩ :=
    f.grounded _ ((f.mem_entries_iff (List.cons_ne_nil name d)).2 h)
  obtain ⟨rfl, rfl⟩ := List.cons.inj hl
  rcases hd with rfl | hd
  · rfl
  · by_cases h0 : d = []
    · subst h0; rfl
    · exact (f.mem_entries_iff h0).1 hd

def addDirectory (f : Files) (name : String) (d : Location)
    (proper : Path.isFileName name = true) (within : f.get? d = some .directory)
    (new : f.get? (name :: d) = none) : Files where
  entries := (name :: d, .directory) :: f.entries
  here := f.here
  unique := by
    refine List.nodup_cons.2 ⟨fun h => ?_, f.unique⟩
    obtain ⟨⟨l, e⟩, hx, hl⟩ := List.mem_map.1 h
    simp only at hl
    subst hl
    rw [(f.mem_entries_iff (List.cons_ne_nil name d)).1 hx] at new
    exact absurd new (by simp)
  grounded := by
    intro x hx
    rcases List.mem_cons.1 hx with rfl | hx
    · exact ⟨name, d, rfl, (f.directory_mem within).imp_right (List.mem_cons_of_mem _)⟩
    · obtain ⟨name', d', hl, hd⟩ := f.grounded x hx
      exact ⟨name', d', hl, hd.imp_right (List.mem_cons_of_mem _)⟩
  proper := by
    intro x hx
    rcases List.mem_cons.1 hx with rfl | hx
    · simpa using proper
    · exact f.proper x hx

/-- A file in a directory, in place of any that was there. -/
def setFile (f : Files) (name : String) (d : Location) (content : Content) (executable : Bool)
    (proper : Path.isFileName name = true) (within : f.get? d = some .directory)
    (free : f.get? (name :: d) ≠ some .directory) : Files where
  entries :=
    (name :: d, .file content executable) :: f.entries.filter fun x => x.1 != name :: d
  here := f.here
  unique := by
    refine List.nodup_cons.2 ⟨fun h => ?_, f.unique.sublist (List.filter_sublist.map _)⟩
    obtain ⟨x, hx, hl⟩ := List.mem_map.1 h
    simp [hl] at hx
  grounded := by
    have keeps : ∀ {d' : Location}, d' = [] ∨ (d', Entry.directory) ∈ f.entries →
        d' = [] ∨ (d', Entry.directory) ∈
          (name :: d, Entry.file content executable) ::
            f.entries.filter fun x => x.1 != name :: d := by
      intro d' hd
      refine hd.imp_right fun hd => List.mem_cons_of_mem _ (List.mem_filter.2 ⟨hd, ?_⟩)
      have hne : d' ≠ name :: d := by
        rintro rfl
        exact free ((f.mem_entries_iff (List.cons_ne_nil name d)).1 hd)
      simpa using hne
    intro x hx
    rcases List.mem_cons.1 hx with rfl | hx
    · exact ⟨name, d, rfl, keeps (f.directory_mem within)⟩
    · obtain ⟨name', d', hl, hd⟩ := f.grounded x (List.mem_filter.1 hx).1
      exact ⟨name', d', hl, keeps hd⟩
  proper := by
    intro x hx
    rcases List.mem_cons.1 hx with rfl | hx
    · simpa using proper
    · exact f.proper x (List.mem_filter.1 hx).1

/-- Take away a location and all below it. -/
def removeBelow (f : Files) (l : Location) : Files where
  entries := f.entries.filter fun x => !isBelow x.1 l
  here := f.here
  unique := f.unique.sublist (List.filter_sublist.map _)
  grounded := by
    intro x hx
    obtain ⟨hx, hb⟩ := List.mem_filter.1 hx
    obtain ⟨name, d, hl, hd⟩ := f.grounded x hx
    refine ⟨name, d, hl, hd.imp_right fun hd => List.mem_filter.2 ⟨hd, ?_⟩⟩
    cases h : isBelow d l with
    | false => simp
    | true => rw [hl, isBelow_cons name h] at hb; exact absurd hb (by decide)
  proper := fun x hx => f.proper x (List.mem_filter.1 hx).1

/-- The same files, seen from another directory. -/
def seenFrom (f : Files) (d : Location) : Files := { f with here := d }

/-- Whatever there is has a name that can name a file. -/
theorem isFileName_of_get? (f : Files) {name : String} {d : Location} {e : Entry}
    (h : f.get? (name :: d) = some e) : Path.isFileName name = true :=
  f.proper _ ((f.mem_entries_iff (List.cons_ne_nil name d)).2 h) name rfl

theorem mem_names_iff (f : Files) {name : String} {d : Location} :
    name ∈ f.names d ↔ (f.get? (name :: d)).isSome = true := by
  rw [Option.isSome_iff_exists]
  simp only [← f.mem_entries_iff (List.cons_ne_nil name d), names, List.mem_filterMap]
  constructor
  · rintro ⟨⟨l, e⟩, hx, h⟩
    cases l with
    | nil => simp at h
    | cons name' d' =>
      by_cases hd : d' = d
      · simp only [hd, if_true, Option.some.injEq] at h
        exact ⟨e, h ▸ hd ▸ hx⟩
      · simp [hd] at h
  · rintro ⟨e, hx⟩
    exact ⟨(name :: d, e), hx, by simp⟩

@[simp] theorem get?_root (f : Files) : f.get? [] = some .directory := rfl

@[simp] theorem get?_seenFrom (f : Files) (d l : Location) : (f.seenFrom d).get? l = f.get? l := by
  cases l <;> rfl

theorem get?_addDirectory (f : Files) (name : String) (d : Location)
    (proper : Path.isFileName name = true) (within : f.get? d = some .directory)
    (new : f.get? (name :: d) = none) (l : Location) :
    (f.addDirectory name d proper within new).get? l =
      if l = name :: d then some .directory else f.get? l := by
  cases l with
  | nil => simp
  | cons name' d' =>
    by_cases h : name' :: d' = name :: d
    · rw [h]; simp [get?, addDirectory]
    · simp [get?, addDirectory, List.lookup_cons, beq_eq_false_iff_ne.2 h, h]

theorem get?_setFile (f : Files) (name : String) (d : Location) (content : Content)
    (executable : Bool) (proper : Path.isFileName name = true)
    (within : f.get? d = some .directory) (free : f.get? (name :: d) ≠ some .directory)
    (l : Location) :
    (f.setFile name d content executable proper within free).get? l =
      if l = name :: d then some (.file content executable) else f.get? l := by
  cases l with
  | nil => simp
  | cons name' d' =>
    by_cases h : name' :: d' = name :: d
    · rw [h]; simp [get?, setFile]
    · have hf := lookup_filter (l := name' :: d') (fun x => x != name :: d) f.entries
      have hn : (name' :: d' != name :: d) = true := by simpa using h
      simp only [get?, setFile, List.lookup_cons, beq_eq_false_iff_ne.2 h, hf, hn, h, if_true,
        if_false]

theorem get?_removeBelow (f : Files) {d : Location} (hd : d ≠ []) (l : Location) :
    (f.removeBelow d).get? l = if isBelow l d then none else f.get? l := by
  cases l with
  | nil =>
    have hb : isBelow [] d = false := by
      cases h : isBelow [] d with
      | false => rfl
      | true => exact absurd (List.suffix_nil.1 (List.isSuffixOf_iff_suffix.1 h)) hd
    simp [hb]
  | cons name l =>
    have hf := lookup_filter (l := name :: l) (fun x => !isBelow x d) f.entries
    simp only [get?, removeBelow, hf]
    cases isBelow (name :: l) d <;> simp

end Files
end LtiUnit
