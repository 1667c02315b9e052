import LtiUnit.Package.Destination
import LtiUnit.Proofs.Walking

/-!
# LtiUnit.Proofs.Destination

The directory that an archive is put in, and its name there: a path leads to the name in that
directory (`locationFrom_directoryOf`), and the name is that of the unit with the ending of archives
(`check_eq_ok`).
-/

namespace LtiUnit
namespace Path

theorem isIdle_of_mem_lead {segments : List String} {s : String} (h : s ∈ (lead segments).1) :
    isIdle s = true := by
  unfold lead at h
  split at h <;> simp_all [isIdle]

theorem steps_ofLead {front rest : List String} (h : ∀ s ∈ front ++ rest, '/' ∉ s.toList)
    (hfront : ∀ s ∈ front, isIdle s = true) :
    (ofLead front rest h).steps = rest.filter fun s => !isIdle s := by
  have hnone : front.filter (fun s => !isIdle s) = [] :=
    List.filter_eq_nil_iff.2 fun s hs => by simp [hfront s hs]
  unfold ofLead
  split
  · rename_i hroot
    rw [hroot.2]
    rfl
  · split
    · rename_i hnil
      rw [(List.append_eq_nil_iff.1 hnil).2]
      rfl
    · simp [steps, hnone]

theorem isAbsolute_ofLead_root {front rest : List String}
    (h : ∀ s ∈ front ++ rest, '/' ∉ s.toList) (hroot : front = [""]) :
    (ofLead front rest h).isAbsolute = true := by
  subst hroot
  unfold ofLead
  cases rest with
  | nil => rfl
  | cons s rest => rfl

theorem isAbsolute_ofLead_of_head? {front rest : List String}
    (h : ∀ s ∈ front ++ rest, '/' ∉ s.toList) (hhead : (front ++ rest).head? ≠ some "") :
    (ofLead front rest h).isAbsolute = false := by
  unfold ofLead
  split
  · rename_i hroot
    rw [hroot.1] at hhead
    exact absurd rfl hhead
  · split
    · rfl
    · rw [Bool.eq_false_iff, Ne, isAbsolute_iff]
      exact fun habs => hhead habs.1

/-- Taking segments off the end of a path leaves its start. -/
theorem isAbsolute_ofLead {p : Path} {rest : List String}
    (h : ∀ s ∈ (lead p.segments).1 ++ rest, '/' ∉ s.toList) (hrest : rest <+: (lead p.segments).2)
    (hne : (lead p.segments).2 ≠ []) :
    (ofLead (lead p.segments).1 rest h).isAbsolute = p.isAbsolute := by
  have hsplit := lead_append p.segments
  by_cases hroot : (lead p.segments).1 = [""]
  · rw [isAbsolute_ofLead_root h hroot, eq_comm, isAbsolute_iff, ← hsplit, hroot]
    have := List.length_pos_iff.2 hne
    simp only [List.length_append, List.length_singleton]
    exact ⟨rfl, by omega⟩
  · have hhead : p.segments.head? ≠ some "" := by
      intro hhead
      match hp : p.segments, p.ne_nil with
      | s :: segments, _ =>
        rw [hp, List.head?_cons, Option.some.injEq] at hhead
        exact hroot (by rw [hp, hhead]; rfl)
    have hpre : (lead p.segments).1 ++ rest <+: p.segments := by
      conv => rhs; rw [← hsplit]
      exact (List.prefix_append_right_inj _).2 hrest
    rw [isAbsolute_ofLead_of_head? h, eq_comm, Bool.eq_false_iff, Ne, isAbsolute_iff]
    · exact fun habs => hhead habs.1
    · intro h0
      obtain ⟨more, hmore⟩ := hpre
      obtain ⟨tail, htail⟩ := List.head?_eq_some_iff.1 h0
      rw [← hmore, htail] at hhead
      exact hhead rfl

theorem isIdle_of_mem_dropIdle_append {segments before : List String} {s : String}
    (h : dropIdle segments = before ++ [s]) : isIdle s = false := by
  have hrev : segments.reverse.dropWhile isIdle = s :: before.reverse := by
    rw [dropIdle] at h
    rw [← List.reverse_reverse (List.dropWhile _ _), h, List.reverse_append]
    rfl
  have := List.head?_dropWhile_not isIdle segments.reverse
  simpa [hrev] using this

/-- A path that has a last part, two dots included, has a parent, which is the path without it. -/
theorem parent?_of_dropIdle {p : Path} {before : List String} {s : String}
    (h : dropIdle (lead p.segments).2 = before ++ [s]) :
    ∃ q, p.parent? = some q ∧ p.steps = q.steps ++ [s] ∧ q.isAbsolute = p.isAbsolute := by
  have hidle := isIdle_of_mem_dropIdle_append h
  have hmem : ∀ t ∈ (lead p.segments).1 ++ dropIdle before, '/' ∉ t.toList := by
    intro t ht
    refine p.slashless t ?_
    rw [← lead_append p.segments]
    rcases List.mem_append.1 ht with ht | ht
    · exact List.mem_append_left _ ht
    · refine List.mem_append_right _ (mem_of_mem_dropIdle ?_)
      rw [h]
      exact List.mem_append_left _ (mem_of_mem_dropIdle ht)
  refine ⟨ofLead (lead p.segments).1 (dropIdle before) hmem, ?_, ?_, ?_⟩
  · simp [parent?, h]
  · have hfront : ∀ t ∈ (lead p.segments).1, isIdle t = true := fun t => isIdle_of_mem_lead
    rw [steps_ofLead hmem hfront, filter_dropIdle, steps, ← lead_append p.segments,
      List.filter_append, ← filter_dropIdle (lead p.segments).2, h, List.filter_append,
      List.filter_eq_nil_iff.2 fun t ht => by simp [hfront t ht]]
    simp [hidle]
  · have hpre := dropIdle_isPrefix (lead p.segments).2
    rw [h] at hpre
    refine isAbsolute_ofLead hmem
      ((dropIdle_isPrefix before).trans ((List.prefix_append before [s]).trans hpre)) ?_
    intro hnil
    rw [hnil] at hpre
    simpa using hpre.length_le

/-- What a file name and the path without it have to do with each other. -/
theorem parent?_of_fileName? {p : Path} {name : String} (h : p.fileName? = some name) :
    isFileName name = true ∧ ∃ q, p.parent? = some q ∧ p.steps = q.steps ++ [name] ∧
      q.isAbsolute = p.isAbsolute := by
  obtain ⟨before, hrest, hup⟩ : ∃ before,
      dropIdle (lead p.segments).2 = before ++ [name] ∧ name ≠ ".." := by
    unfold fileName? at h
    split at h
    · cases h
    · cases h
    · rename_i name' hup hlast
      cases h
      obtain ⟨before, hb⟩ := List.getLast?_eq_some_iff.1 hlast
      exact ⟨before, hb, hup⟩
  have hidle := isIdle_of_mem_dropIdle_append hrest
  have hslash : '/' ∉ name.toList := by
    refine p.slashless name ?_
    rw [← lead_append p.segments]
    exact List.mem_append_right _ (mem_of_mem_dropIdle (by simp [hrest]))
  simp only [isIdle, Bool.or_eq_false_iff, beq_eq_false_iff_ne] at hidle
  exact ⟨isFileName_iff.2 ⟨hidle.1, hidle.2, hup, hslash⟩, parent?_of_dropIdle hrest⟩

/-- A parent has the steps of the path but the last one. -/
theorem steps_of_parent? {p q : Path} (h : p.parent? = some q) :
    q.steps <+: p.steps ∧ p.isAbsolute = q.isAbsolute := by
  rcases List.eq_nil_or_concat (dropIdle (lead p.segments).2) with hnil | ⟨before, s, hlast⟩
  · simp only [parent?, hnil, List.isEmpty_nil, if_true] at h
    split at h
    · rename_i hdot
      cases h
      refine ⟨List.nil_prefix, ?_⟩
      obtain ⟨rest, hseg⟩ : ∃ rest, p.segments = "." :: rest :=
        ⟨_, beq_iff_eq.1 hdot ▸ (lead_append p.segments).symm⟩
      rw [isAbsolute, hseg]
      rfl
    · cases h
  · rw [List.concat_eq_append] at hlast
    obtain ⟨q', hq', hsteps, habs⟩ := parent?_of_dropIdle hlast
    rw [h, Option.some.injEq] at hq'
    subst hq'
    exact ⟨hsteps ▸ List.prefix_append _ _, habs.symm⟩

theorem steps_of_mem_ancestors {p q : Path} (h : q ∈ p.ancestors) :
    q.steps <+: p.steps ∧ p.isAbsolute = q.isAbsolute := by
  have hwithin (n : Nat) : ∀ {p : Path}, q ∈ ancestorsWithin n p →
      q.steps <+: p.steps ∧ p.isAbsolute = q.isAbsolute := by
    induction n with
    | zero =>
      intro p h
      rw [ancestorsWithin, List.mem_singleton] at h
      exact h ▸ ⟨List.prefix_rfl, rfl⟩
    | succ n ih =>
      intro p h
      rw [ancestorsWithin] at h
      split at h
      · rename_i r hr
        rcases List.mem_cons.1 h with rfl | h
        · exact ⟨List.prefix_rfl, rfl⟩
        · obtain ⟨hsteps, habs⟩ := steps_of_parent? hr
          obtain ⟨hsteps', habs'⟩ := ih h
          exact ⟨hsteps'.trans hsteps, habs.trans habs'⟩
      · rw [List.mem_singleton] at h
        exact h ▸ ⟨List.prefix_rfl, rfl⟩
  exact hwithin _ h

end Path

namespace Package.Destination

open LtiUnit.Path

theorem directoryOf_spec {p : Path} {name : String} (h : p.fileName? = some name) :
    isFileName name = true ∧ p.steps = (directoryOf p).steps ++ [name] ∧
      (directoryOf p).isAbsolute = p.isAbsolute := by
  obtain ⟨proper, q, hq, hsteps, habs⟩ := parent?_of_fileName? h
  refine ⟨proper, ?_⟩
  simp only [directoryOf, hq]
  split
  · rename_i hempty
    have hdot : (ofText ".").steps = q.steps ∧ (ofText ".").isAbsolute = q.isAbsolute := by
      simp only [steps, isAbsolute, isEmpty_iff.1 hempty]
      decide
    rw [hsteps, ← habs, hdot.1, hdot.2]
    exact ⟨rfl, rfl⟩
  · exact ⟨hsteps, habs⟩

/-- A path leads to its file name in its directory. -/
theorem locationFrom_directoryOf {p : Path} {name : String} (h : p.fileName? = some name)
    (w : Location) : p.locationFrom w = name :: (directoryOf p).locationFrom w := by
  obtain ⟨proper, hsteps, habs⟩ := directoryOf_spec h
  simp only [steps] at hsteps
  rw [locationFrom, ← foldl_advance_filter, hsteps, List.foldl_append, foldl_advance_filter, ← habs]
  exact advance_of_isFileName proper _

/-- A path that leads to a name leads there as long as the directory stays that it counts from. -/
theorem follow_of_keeps {f₀ f g : Files} {p : Path} {name whole : String} {d : Location}
    {slashed : Bool} {proper : isFileName name = true} (hname : p.fileName? = some whole)
    (hdir : f₀.isDirectory (directoryOf p) = true) (hk : Files.Keeps f₀ g)
    (hhere : f.here = f₀.here) (h : f.follow p = .ok (.within name d slashed proper)) :
    g.follow p = .ok (.within name d slashed proper) := by
  obtain ⟨hp, rfl, before, k, d0, hseg, hs, hw, hn⟩ := Files.follow_eq_within_iff.1 h
  obtain ⟨-, hsteps, habs⟩ := directoryOf_spec hname
  obtain ⟨e, he⟩ : ∃ e, f₀.find? (directoryOf p) = .ok (e, .directory) := by
    unfold Files.isDirectory at hdir
    split at hdir
    · exact ⟨_, by assumption⟩
    · cases hdir
  obtain ⟨e0, hstart, hwalk⟩ := Files.walk_of_find? he
  have hbefore : before.filter (fun s => !isIdle s) = (directoryOf p).steps := by
    have hidle : isIdle "" = true := rfl
    rw [steps, hseg] at hsteps
    simp only [List.filter_append, List.filter_cons, isIdle_of_isFileName proper, Bool.not_false,
      if_true, List.filter_replicate, hidle, Bool.not_true, Bool.false_eq_true, if_false] at hsteps
    exact (List.append_inj' hsteps rfl).1
  have hstart' : f₀.start p = .ok e0 := by
    rw [← hstart, Files.start, Files.start, habs]
  have hd0 : e0 = d0 := by rw [Files.start_eq_ok hstart', Files.start_eq_ok hs, hhere]
  subst hd0
  have hwalk' : f₀.walk e0 before = .ok e := by
    rw [← Files.walk_filter, hbefore, steps, Files.walk_filter]
    exact hwalk
  have hd : e = d := by rw [Files.location_of_walk hwalk', Files.location_of_walk hw]
  subst hd
  exact Files.follow_eq_within_iff.2
    ⟨hp, rfl, before, k, e0, hseg, hk.start hstart', hk.walk hwalk', hn⟩

theorem eq_of_cutName {name stem ending : String} (h : cutName name = (stem, some ending)) :
    name = stem ++ "." ++ ending := by
  unfold cutName at h
  cases hp : (Text.pieces '.' name).reverse with
  | nil => rw [hp] at h; cases h
  | cons last before =>
    simp only [hp] at h
    split at h
    · cases h
    · rename_i hne
      cases h
      have hbefore : before.reverse ≠ [] := fun h0 => hne (by simp [h0, Text.separated])
      have hname : name = Text.separated "." (before.reverse ++ [ending]) := by
        rw [← List.reverse_cons, ← hp, List.reverse_reverse, Text.separated_pieces rfl]
      rw [hname, Text.separated, String.intercalate_append_of_ne_nil hbefore (by simp),
        String.intercalate_singleton, Text.separated]

theorem fileName?_of_stem? {p : Path} {stem ending : String} (hstem : p.stem? = some stem)
    (hending : p.extension? = some ending) : p.fileName? = some (stem ++ "." ++ ending) := by
  rw [extension?, Option.bind_eq_some_iff] at hending
  obtain ⟨whole, hwhole, hending⟩ := hending
  rw [stem?, hwhole, Option.map_some, Option.some.injEq] at hstem
  rw [hwhole, ← eq_of_cutName (Prod.ext hstem hending)]

theorem stem?_of_check {f : Files} {p : Path} {d : Destination} (h : check f p = .ok d) :
    p.stem? = some d.name := by
  unfold check at h
  simp only at h
  split at h
  · cases h
  · split at h
    · cases h
    · rename_i name hstem
      rw [hstem]
      split at h
      · split at h
        · cases h
        · split at h
          · cases h
          · cases h
            rfl
      · cases h

/-- An archive is put in a directory that is there, under the name of its unit. -/
theorem check_eq_ok {f : Files} {p : Path} {d : Destination} (h : check f p = .ok d) :
    p.fileName? = some (d.name ++ "." ++ ending) ∧ d.directory = directoryOf p ∧
      f.isDirectory d.directory = true := by
  unfold check at h
  simp only at h
  split at h
  · cases h
  · rename_i hext
    split at h
    · cases h
    · rename_i name hstem
      split at h
      · split at h
        · cases h
        · rename_i hdir
          split at h
          · cases h
          · cases h
            refine ⟨fileName?_of_stem? hstem ?_, rfl, by simpa using hdir⟩
            simpa only [bne_iff_ne, ne_eq, Decidable.not_not] using hext
      · cases h

end Package.Destination
end LtiUnit
