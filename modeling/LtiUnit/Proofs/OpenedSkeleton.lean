import LtiUnit.Package.Skeleton
import LtiUnit.Proofs.FileNames
import LtiUnit.Proofs.Progress

/-!
# LtiUnit.Proofs.OpenedSkeleton

What opening a skeleton comes to. A directory that can be read is listed, and its files are the
skeleton unless something that is required is missing among them (`open?_of_directory`). All else
that is known of a skeleton is read off that.
-/

namespace LtiUnit
namespace Package

open LtiUnit.Files LtiUnit.Path

variable {f : Files} {directory : Path} {d : Location} {s : Skeleton}

theorem nameable_of_length {name : String} (hlen : 3 ≤ name.length ∧ '/' ∉ name.toList)
    (hzero : '\x00' ∉ name.toList) (hfits : name.utf8ByteSize ≤ longestName) : Nameable name :=
  ⟨isFileName_of_length hlen.1 hlen.2, hzero, hfits⟩

theorem nameable_required : ∀ name ∈ Skeleton.required, Nameable name := by
  intro name hname
  refine nameable_of_length ?_ ?_ ?_ <;>
  · revert name
    decide

namespace Skeleton

/-- The skeleton in a directory that is listed in some order. -/
def ofListing (f : Files) (directory : Path) (listed : List String) :
    Except PackageError Skeleton :=
  let names := sorted (listed.filter fun name => f.isFile (directory.child name))
  match required.filter fun name => !names.contains name with
  | [] => .ok ⟨directory, names⟩
  | missing => .error (.skeleton directory (.missing missing))

/-- The required names under which no file is in a directory. -/
def missing (f : Files) (d : Location) : List String :=
  required.filter fun name => (f.held (name :: d)).isNone

theorem open?_eq (hd : f.directory? directory = .ok d) :
    open? f directory = ofListing f directory (f.names d) := by
  have hlist : f.list? directory = .ok (f.names d) := by
    rw [list?, hd]
    rfl
  rw [open?, hlist]
  rfl

theorem ascending_sorted {names : List String} (h : names.Nodup) :
    (sorted names).Pairwise fun a b => Text.bytes a < Text.bytes b := by
  have hnodup : (sorted names).Nodup := (List.mergeSort_perm _ _).nodup_iff.2 h
  exact ((pairwise_sorted names).and hnodup).imp fun {a b} h =>
    Text.bytes_lt (lt_of_le_of_ne h.1 h.2)

/-- A directory that can be read holds a skeleton if nothing that is required is missing. -/
theorem open?_of_directory (hd : f.directory? directory = .ok d) :
    (missing f d = [] → ∃ s, open? f directory = .ok s ∧ s.directory = directory ∧
      s.names.Pairwise (fun a b => Text.bytes a < Text.bytes b) ∧
      ∀ name, name ∈ s.names ↔ Nameable name ∧ ∃ content, f.held (name :: d) = some content) ∧
    (missing f d ≠ [] →
      open? f directory = .error (.skeleton directory (.missing (missing f d)))) := by
  let listed := (f.names d).filter fun name => f.isFile (directory.child name)
  have hmem (name : String) : name ∈ sorted listed ↔
      Nameable name ∧ ∃ content, f.held (name :: d) = some content := by
    rw [sorted, List.mem_mergeSort, List.mem_filter, f.mem_names_iff, Option.isSome_iff_exists]
    constructor
    · rintro ⟨⟨e, hget⟩, hfile⟩
      exact (isFile_child_iff hd (f.isFileName_of_get? hget)).1 hfile
    · rintro ⟨hname, content, hheld⟩
      obtain ⟨x, hget⟩ := held_eq_some_iff.1 hheld
      exact ⟨⟨_, hget⟩, (isFile_child_iff hd hname.proper).2 ⟨hname, content, hheld⟩⟩
  have hmissing : (required.filter fun name => !(sorted listed).contains name) = missing f d := by
    refine List.filter_congr fun name hname => ?_
    rw [Bool.eq_iff_iff]
    simp [hmem, nameable_required name hname, Option.eq_none_iff_forall_ne_some]
  have hopen : open? f directory =
      match missing f d with
      | [] => .ok ⟨directory, sorted listed⟩
      | missing => .error (.skeleton directory (.missing missing)) := by
    rw [open?_eq hd, ← hmissing]
    rfl
  rw [hopen]
  constructor
  · intro hnone
    rw [hnone]
    exact ⟨_, rfl, rfl, ascending_sorted ((f.nodup_names d).filter _), hmem⟩
  · intro hsome
    cases hcases : missing f d with
    | nil => exact absurd hcases hsome
    | cons name more => rfl

theorem missing_eq_nil (hd : f.directory? directory = .ok d)
    (h : ∀ name ∈ required, f.isFile (directory.child name) = true) : missing f d = [] := by
  refine List.filter_eq_nil_iff.2 fun name hname => ?_
  obtain ⟨-, content, hheld⟩ :=
    (isFile_child_iff hd (nameable_required name hname).proper).1 (h name hname)
  simp [hheld]

/-- What is opened is a directory with its files. -/
theorem open?_eq_ok (h : open? f directory = .ok s) :
    ∃ d, f.directory? directory = .ok d ∧ s.directory = directory ∧
      ∀ name, name ∈ s.names ↔ Nameable name ∧ ∃ content, f.held (name :: d) = some content := by
  cases hd : f.directory? directory with
  | error e =>
    rw [open?, list?, hd] at h
    cases h
  | ok d =>
    obtain ⟨hopened, hrefused⟩ := open?_of_directory hd
    by_cases hmissing : missing f d = []
    · obtain ⟨s', hs', hdirectory, -, hnames⟩ := hopened hmissing
      cases hs'.symm.trans h
      exact ⟨d, rfl, hdirectory, hnames⟩
    · cases (hrefused hmissing).symm.trans h

end Skeleton

/-- A skeleton has the files that are directly in its directory. -/
theorem mem_names_of_open? (h : Skeleton.open? f directory = .ok s) :
    s.directory = directory ∧ ∀ name, name ∈ s.names ↔
      isFileName name = true ∧ f.isFile (directory.child name) = true := by
  obtain ⟨d, hd, hdirectory, hnames⟩ := Skeleton.open?_eq_ok h
  refine ⟨hdirectory, fun name => (hnames name).trans ?_⟩
  constructor
  · intro hheld
    exact ⟨hheld.1.proper, (isFile_child_iff hd hheld.1.proper).2 hheld⟩
  · rintro ⟨hname, hfile⟩
    exact (isFile_child_iff hd hname).1 hfile

/-- The files of a skeleton are found under their names. -/
theorem nameable_of_open? (h : Skeleton.open? f directory = .ok s) :
    ∀ name ∈ s.names, Nameable name ∧ f.isFile (s.directory.child name) = true := by
  obtain ⟨d, hd, rfl, hnames⟩ := Skeleton.open?_eq_ok h
  intro name hname
  have hheld := (hnames name).1 hname
  exact ⟨hheld.1, (isFile_child_iff hd hheld.1.proper).2 hheld⟩

theorem isFileName_of_open? (h : Skeleton.open? f directory = .ok s) :
    ∀ name ∈ s.names, isFileName name = true :=
  fun name hname => (nameable_of_open? h name hname).1.proper

/-- A directory with all files that a skeleton needs holds one. -/
theorem exists_open? (hd : f.isDirectory directory = true)
    (hfiles : ∀ name ∈ Skeleton.required, f.isFile (directory.child name) = true) :
    ∃ skeleton, Skeleton.open? f directory = .ok skeleton := by
  have hdirectory := directory?_of_isDirectory hd
  obtain ⟨skeleton, hopen, -⟩ := (Skeleton.open?_of_directory hdirectory).1
    (Skeleton.missing_eq_nil hdirectory hfiles)
  exact ⟨skeleton, hopen⟩

end Package
end LtiUnit
