import LtiUnit.Proofs.ByteOrder
import LtiUnit.Proofs.Contents
import LtiUnit.Proofs.FileNames
import Mathlib.Data.String.Basic

/-!
# LtiUnit.Proofs.ArchiveNames

What an archive of a directory holds: what the files below it hold, each under its own name, in the
strict order of the bytes of their names.
-/

namespace LtiUnit

open LtiUnit.Files LtiUnit.Path

/-- The parts of a location can name files. -/
theorem Files.isFileName_of_mem (f : Files) {l : Location} {e : Entry} (h : f.get? l = some e) :
    ∀ name ∈ l, isFileName name = true := by
  induction l generalizing e with
  | nil => simp
  | cons name d ih =>
    rw [List.forall_mem_cons]
    exact ⟨f.isFileName_of_get? h, ih (f.get?_parent h)⟩

namespace Archive

/-- The name of a way down, given from the inside out. -/
def nameOf (way : Location) : String := Text.separated "/" way.reverse

theorem nameFrom_append (way d : Location) : nameFrom d (way ++ d) = nameOf way := by
  simp [nameFrom, nameOf, entryName, Function.comp_def, Text.lossy_bytes]

theorem pieces_nameOf {way : Location} (h : ∀ name ∈ way, isFileName name = true)
    (hne : way ≠ []) : Text.pieces '/' (nameOf way) = way.reverse := by
  refine Text.pieces_separated rfl (by simpa using hne) fun name hname => ?_
  exact (isFileName_iff.1 (h name (List.mem_reverse.1 hname))).2.2.2

theorem nameOf_ne_empty {way : Location} (h : ∀ name ∈ way, isFileName name = true)
    (hne : way ≠ []) : nameOf way ≠ nameOf [] := by
  intro heq
  have hpieces := pieces_nameOf h hne
  have hempty : Text.pieces '/' (nameOf []) = [""] := rfl
  rw [heq, hempty] at hpieces
  have hmem : "" ∈ way := List.mem_reverse.1 (hpieces ▸ List.mem_singleton_self "")
  exact (isFileName_iff.1 (h "" hmem)).1 rfl

/-- Ways of file names are told apart by their names. -/
theorem nameOf_injective {v w : Location} (hv : ∀ name ∈ v, isFileName name = true)
    (hw : ∀ name ∈ w, isFileName name = true) (h : nameOf v = nameOf w) : v = w := by
  by_cases hv0 : v = []
  · by_cases hw0 : w = []
    · rw [hv0, hw0]
    · subst hv0
      exact absurd h.symm (nameOf_ne_empty hw hw0)
  · by_cases hw0 : w = []
    · subst hw0
      exact absurd h (nameOf_ne_empty hv hv0)
    · rw [← List.reverse_inj, ← pieces_nameOf hv hv0, h, pieces_nameOf hw hw0]

/-- What is entered under a location is what stands there. -/
theorem get?_of_mem_entries (f : Files) {l : Location} {e : Entry} (h : (l, e) ∈ f.entries) :
    f.get? l = some e := by
  obtain ⟨name, d, rfl, -⟩ := f.grounded (l, e) h
  exact (f.mem_entries_iff (List.cons_ne_nil name d)).1 h

/-- What an entry is packed as, if it is a file below a directory. -/
def packed? (d : Location) : Location × Entry → Option (String × Content)
  | (l, .file content _) => if isBelow l d then some (nameFrom d l, content) else none
  | (_, .directory) => none

theorem packed?_eq_some_iff {d l : Location} {e : Entry} {name : String} {content : Content} :
    packed? d (l, e) = some (name, content) ↔
      ∃ way x, l = way ++ d ∧ e = .file content x ∧ name = nameOf way := by
  constructor
  · intro h
    cases e with
    | directory => cases h
    | file content' x =>
      simp only [packed?, Option.ite_none_right_eq_some, Option.some.injEq, Prod.mk.injEq] at h
      obtain ⟨hb, hname, rfl⟩ := h
      obtain ⟨way, rfl⟩ := isBelow_iff.1 hb
      exact ⟨way, x, rfl, rfl, by rw [← hname, nameFrom_append]⟩
  · rintro ⟨way, x, rfl, rfl, rfl⟩
    have hb : isBelow (way ++ d) d = true := isBelow_iff.2 (List.suffix_append way d)
    simp only [packed?, hb, if_true, nameFrom_append]

theorem filesBelow_eq (f : Files) (d : Location) :
    filesBelow f d = f.entries.filterMap (packed? d) :=
  rfl

theorem mem_filesBelow_iff {f : Files} {d : Location} {name : String} {content : Content} :
    (name, content) ∈ filesBelow f d ↔
      ∃ way, f.held (way ++ d) = some content ∧ name = nameOf way := by
  rw [filesBelow_eq, List.mem_filterMap]
  constructor
  · rintro ⟨⟨l, e⟩, hmem, hpacked⟩
    obtain ⟨way, x, rfl, rfl, rfl⟩ := packed?_eq_some_iff.1 hpacked
    exact ⟨way, held_eq_some_iff.2 ⟨x, get?_of_mem_entries f hmem⟩, rfl⟩
  · rintro ⟨way, hheld, rfl⟩
    obtain ⟨x, hget⟩ := held_eq_some_iff.1 hheld
    have hne : way ++ d ≠ [] := by
      intro hnil
      rw [hnil] at hget
      cases hget
    exact ⟨_, (f.mem_entries_iff hne).2 hget, packed?_eq_some_iff.2 ⟨way, x, rfl, rfl, rfl⟩⟩

theorem mem_ofDirectory_iff {f : Files} {d : Location} {name : String} {content : Content} :
    (name, content) ∈ ofDirectory f d ↔
      ∃ way, f.held (way ++ d) = some content ∧ name = nameOf way := by
  rw [ofDirectory, sorted, List.mem_mergeSort, mem_filesBelow_iff]

/-- No two files below a directory are packed under one name. -/
theorem nodup_filesBelow (f : Files) (d : Location) : ((filesBelow f d).map Prod.fst).Nodup := by
  have hunique : f.entries.Pairwise fun x y => x.1 ≠ y.1 := List.pairwise_map.1 f.unique
  rw [List.Nodup, List.pairwise_map, filesBelow_eq, List.pairwise_filterMap]
  refine hunique.imp_of_mem ?_
  rintro ⟨l, e⟩ ⟨l', e'⟩ hmem hmem' hne ⟨name, content⟩ hpacked ⟨name', content'⟩ hpacked' rfl
  obtain ⟨way, x, rfl, rfl, hname⟩ := packed?_eq_some_iff.1 hpacked
  obtain ⟨way', x', rfl, rfl, hname'⟩ := packed?_eq_some_iff.1 hpacked'
  have hproper : ∀ {way : Location} {e : Entry}, (way ++ d, e) ∈ f.entries →
      ∀ part ∈ way, isFileName part = true := fun hmem part hpart =>
    f.isFileName_of_mem (get?_of_mem_entries f hmem) part (List.mem_append_left _ hpart)
  have hway := nameOf_injective (hproper hmem) (hproper hmem') (hname.symm.trans hname')
  exact hne (by rw [hway])

/-- What is packed under different names stands in the strict order of their bytes. -/
theorem ascending_sorted {files : List (String × Content)} (h : (files.map Prod.fst).Nodup) :
    ((sorted files).map Prod.fst).Pairwise fun a b => Text.bytes a < Text.bytes b := by
  have hnodup : ((sorted files).map Prod.fst).Nodup :=
    ((List.mergeSort_perm _ _).map Prod.fst).nodup_iff.2 h
  have hsorted : ((sorted files).map Prod.fst).Pairwise (· ≤ ·) := by
    rw [List.pairwise_map]
    let before (a b : String × Content) : Bool := decide (a.1 ≤ b.1)
    have h := @List.pairwise_mergeSort _ before
      (fun a b c hab hbc =>
        decide_eq_true (le_trans (of_decide_eq_true hab) (of_decide_eq_true hbc)))
      (fun a b => by simpa [before] using le_total a.1 b.1) files
    exact h.imp of_decide_eq_true
  refine (hsorted.and hnodup).imp fun {a b} h => ?_
  exact Text.bytes_lt (lt_of_le_of_ne h.1 h.2)

/-- The order in which files are come across does not count. -/
theorem sorted_eq_of_perm {files files' : List (String × Content)} (h : files.Perm files')
    (hnodup : (files.map Prod.fst).Nodup) : sorted files = sorted files' := by
  have hascending {files : List (String × Content)} (hnodup : (files.map Prod.fst).Nodup) :
      (sorted files).Pairwise fun a b => Text.bytes a.1 < Text.bytes b.1 := by
    have h := ascending_sorted hnodup
    rwa [List.pairwise_map] at h
  have hperm : (sorted files).Perm (sorted files') :=
    (List.mergeSort_perm _ _).trans (h.trans (List.mergeSort_perm _ _).symm)
  have hnodup' : (files'.map Prod.fst).Nodup := (h.map Prod.fst).nodup_iff.1 hnodup
  refine hperm.eq_of_pairwise (fun a b _ _ hab hba => ?_) (hascending hnodup) (hascending hnodup')
  exact absurd (List.lt_trans hab hba) (List.lt_irrefl _)

/-- The names in an archive are in the strict order of their bytes. -/
theorem ascending_ofDirectory (f : Files) (d : Location) :
    ((ofDirectory f d).map Prod.fst).Pairwise fun a b => Text.bytes a < Text.bytes b :=
  ascending_sorted (nodup_filesBelow f d)

end Archive
end LtiUnit
