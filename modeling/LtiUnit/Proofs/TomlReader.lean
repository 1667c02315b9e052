import LtiUnit.Proofs.TomlNumber
import LtiUnit.Toml.Datum

/-!
# LtiUnit.Proofs.TomlReader

What the TOML reader makes of lists of numbers, and of documents that have such lists under keys of
their own lines.

A reader stops where a value ends, whatever comes after it (`ReadsAs`): numbers are read so, and so
are lists of what is read so. A line is a key and a value, and a document is what its lines say.

* `readsAs_number`, `readsAs_listText` — numbers and lists.
* `members?_lines` — documents.
-/

namespace LtiUnit

theorem mapM_cons_eq {α β : Type} (f : α → Option β) (x : α) (xs : List α) :
    (x :: xs).mapM f = (f x).bind fun y => (xs.mapM f).map (y :: ·) := by
  rw [List.mapM_cons]
  cases f x with
  | none => rfl
  | some y => cases xs.mapM f <;> rfl

/-- The members, if each of them has a value. -/
def Members.gather? (ms : List (String × Option Datum)) : Option Members :=
  ms.mapM fun m => m.2.map (m.1, ·)

namespace Toml

/-! ## Values -/

section Values

variable {α β : Type} {read : Reader β} {cs text before after rest : List Char} {o : Option β}
  {c : Char}

/-- The characters begin with something that is no gap, no mark and no comment, and they are read up
to their end, with the given result. -/
structure ReadsAs (read : Reader β) (cs : List Char) (o : Option β) : Prop where
  begins : ∃ c rest, cs = c :: rest ∧ isStop c = false ∧ c ≠ '#'
  reads : ∀ rest, Stops rest → read (cs ++ rest) = o.map (·, rest)

theorem stops_cons (hc : isStop c = true) (cs : List Char) : Stops (c :: cs) := by
  intro d hd
  cases hd
  exact hc

theorem isStop_of_isBlank (h : isBlank c = true) : isStop c = true := by
  simp only [isBlank, Bool.or_eq_true, beq_iff_eq] at h
  rcases h with rfl | rfl <;> rfl

theorem Stops.gap (hgap : Gap cs) (h : Stops rest) : Stops (cs ++ rest) := by
  cases hgap with
  | nil => exact h
  | blank hc _ => exact stops_cons (isStop_of_isBlank hc) _
  | feed _ => exact stops_cons rfl _
  | lineBreak _ => exact stops_cons rfl _

theorem skipLines?_gap (hgap : Gap cs) (hc : isBlank c = false) (hfeed : c ≠ '\n')
    (hreturn : c ≠ '\r') (hcomment : c ≠ '#') :
    skipLines? false (cs ++ c :: rest) = some (c :: rest) := by
  induction hgap with
  | nil =>
    rw [List.nil_append, skipLines?]
    · simp [hc, hreturn, hcomment]
    · exact hfeed
    · exact fun _ h => absurd h hreturn
  | @blank d ds hd _ ih =>
    have hmarks : d ≠ '\n' ∧ d ≠ '\r' := by
      constructor <;> rintro rfl <;> cases hd
    rw [List.cons_append, skipLines?]
    · simp [hd, ih]
    · exact hmarks.1
    · exact fun _ h => absurd h hmarks.2
  | feed _ ih => exact ih
  | lineBreak _ ih => exact ih

theorem skipLines?_stop (hgap : Gap cs) (hc : c = ',' ∨ c = ']') :
    skipLines? false (cs ++ c :: rest) = some (c :: rest) := by
  rcases hc with rfl | rfl <;>
    exact skipLines?_gap hgap rfl (by decide) (by decide) (by decide)

theorem ReadsAs.skipLines? (h : ReadsAs read text o) (hgap : Gap cs) (rest : List Char) :
    skipLines? false (cs ++ (text ++ rest)) = some (text ++ rest) := by
  obtain ⟨c, more, rfl, hc, hcomment⟩ := h.begins
  have hmarks : c ≠ ',' ∧ c ≠ ']' ∧ c ≠ ' ' ∧ c ≠ '\t' ∧ c ≠ '\n' ∧ c ≠ '\r' := by
    rw [← Bool.not_eq_true, isStop_iff] at hc
    simpa [not_or] using hc
  obtain ⟨-, -, hspace, htab, hfeed, hreturn⟩ := hmarks
  exact skipLines?_gap hgap (by simp [isBlank, hspace, htab]) hfeed hreturn hcomment

end Values

/-! ## Lists -/

section Lists

variable {α : Type} {read : Reader Datum} {Item : α → List Char → Prop} {said : α → Option Datum}
  {xs : List α} {text cs before after : List Char} {o : Option Datum} {n depth : Nat}

/-- An item with the bracket after it. -/
theorem items?_last (h : ReadsAs read text o) (hbefore : Gap before) (hafter : Gap after)
    (rest : List Char) :
    items? read (n + 1) (before ++ (text ++ (after ++ ']' :: rest))) =
      o.map fun d => ([d], rest) := by
  obtain ⟨c, tail, rfl, hc, -⟩ := h.begins
  rw [items?, h.skipLines? hbefore, Option.bind_eq_bind, Option.bind_some]
  split
  · rename_i heq
    cases heq
    cases hc
  · rw [h.reads _ ((stops_cons rfl rest).gap hafter)]
    cases o with
    | none => rfl
    | some d => simp [skipLines?_stop hafter (.inr rfl)]

/-- An item with a comma after it. -/
theorem items?_next (h : ReadsAs read text o) (hbefore : Gap before) (hafter : Gap after)
    (rest : List Char) :
    items? read (n + 1) (before ++ (text ++ (after ++ ',' :: rest))) =
      o.bind fun d => (items? read n rest).map fun p => (d :: p.1, p.2) := by
  obtain ⟨c, tail, rfl, hc, -⟩ := h.begins
  rw [items?, h.skipLines? hbefore, Option.bind_eq_bind, Option.bind_some]
  split
  · rename_i heq
    cases heq
    cases hc
  · rw [h.reads _ ((stops_cons rfl rest).gap hafter)]
    cases o with
    | none => rfl
    | some d =>
      cases hitems : items? read n rest <;> simp [skipLines?_stop hafter (.inl rfl), hitems]

theorem items?_parts {x : α} {xs : List α} {part : List Char} {parts : List (List Char)}
    (hitem : ∀ x text, Item x text → ReadsAs read text (said x))
    (h : List.Forall₂ (Padded Gap Item) (x :: xs) (part :: parts)) (hn : parts.length < n)
    (rest : List Char) :
    items? read n (Text.joinWith ',' (part :: parts) ++ ']' :: rest) =
      ((x :: xs).mapM said).map (·, rest) := by
  obtain ⟨hpart, hmore⟩ := List.forall₂_cons.1 h
  induction hmore generalizing x part n with
  | nil =>
    obtain ⟨n, rfl⟩ := Nat.exists_eq_succ_of_ne_zero (Nat.ne_of_gt hn)
    obtain ⟨before, text, after, hbefore, htext, hafter, rfl⟩ := hpart
    have hlast := items?_last (n := n) (hitem x text htext) hbefore hafter rest
    rw [Text.joinWith, List.append_assoc, List.append_assoc, hlast, mapM_cons_eq]
    cases said x <;> rfl
  | @cons y next ys parts hnext hmore ih =>
    obtain ⟨n, rfl⟩ := Nat.exists_eq_succ_of_ne_zero (Nat.ne_of_gt (Nat.zero_lt_of_lt hn))
    obtain ⟨before, text, after, hbefore, htext, hafter, rfl⟩ := hpart
    have hitems := ih (.cons hnext hmore) (n := n) (Nat.lt_of_succ_lt_succ hn) hnext
    have hfirst := items?_next (n := n) (hitem x text htext) hbefore hafter
      (Text.joinWith ',' (next :: parts) ++ ']' :: rest)
    rw [Text.joinWith, List.append_assoc, List.append_assoc, List.append_assoc, List.cons_append,
      hfirst, hitems, mapM_cons_eq said x]
    · cases said x with
      | none => rfl
      | some d => cases (y :: ys).mapM said <;> rfl
    · exact List.cons_ne_nil next parts

theorem length_joinWith (parts : List (List Char)) :
    parts.length ≤ (Text.joinWith ',' parts).length + 1 := by
  induction parts with
  | nil => simp
  | cons part parts ih =>
    cases parts with
    | nil => simp
    | cons next parts =>
      rw [Text.joinWith]
      · simp only [List.length_cons, List.length_append] at ih ⊢
        omega
      · exact List.cons_ne_nil next parts

theorem readsAs_listText (hitem : ∀ x text, Item x text → ReadsAs (value? depth) text (said x))
    (h : ListText Item xs cs) :
    ReadsAs (value? (depth + 1)) cs ((xs.mapM said).map .list) := by
  refine ⟨?_, fun rest _ => ?_⟩
  · cases h <;> exact ⟨_, _, rfl, rfl, by decide⟩
  · cases h with
    | @empty gap hgap =>
      have hitems (n : Nat) :
          items? (value? depth) (n + 1) (gap ++ ']' :: rest) = some ([], rest) := by
        rw [items?, skipLines?_stop hgap (.inr rfl)]
        rfl
      rw [List.cons_append, List.append_assoc, value?]
      exact congrArg _ (hitems _)
    | @items x xs parts h =>
      obtain ⟨part, parts, rfl⟩ : ∃ part more, parts = part :: more := by
        cases h
        exact ⟨_, _, rfl⟩
      have hlength := length_joinWith (part :: parts)
      have hread (n : Nat) (hn : parts.length < n) := items?_parts hitem h hn rest
      rw [List.cons_append, List.append_assoc, value?, List.singleton_append, hread]
      · cases (x :: xs).mapM said <;> rfl
      · simp only [List.length_append, List.length_cons] at hlength ⊢
        omega

theorem value?_simple {c : Char} (hlist : c ≠ '[') (htable : c ≠ '\x7b') (cs : List Char) :
    value? depth (c :: cs) = simple? (c :: cs) := by
  unfold value?
  split <;> rename_i heq
  · exact absurd (List.cons.inj heq).1 hlist
  · exact absurd (List.cons.inj heq).1 htable
  · exact absurd (List.cons.inj heq).1 hlist
  · exact absurd (List.cons.inj heq).1 htable
  · rfl

theorem readsAs_number {token : List Char} (h : NumberText token cs) :
    ReadsAs (value? depth) cs ((float? token).map .number) := by
  obtain ⟨rfl, hdecimal⟩ := h
  have hmoment := moment?_eq_none hdecimal
  obtain ⟨n, hn, hreal⟩ := hdecimal
  obtain ⟨c, tail, rfl, hc⟩ := (Json.writtenNumber_of_ofChars? hn).head
  have hhead (d : Char) (hd : (d.isDigit || d == '-') = false) : c ≠ d := by
    rintro rfl
    rcases hc with hc | rfl <;> simp_all
  refine ⟨⟨c, tail, rfl, ?_, hhead '#' rfl⟩, fun rest hrest => ?_⟩
  · rw [← Bool.not_eq_true, isStop_iff]
    simp only [not_or]
    exact ⟨hhead _ rfl, hhead _ rfl, hhead _ rfl, hhead _ rfl, hhead _ rfl, hhead _ rfl⟩
  · have hnumber := number?_run hn hreal hrest
    rw [List.cons_append] at hnumber ⊢
    rw [value?_simple (hhead _ rfl) (hhead _ rfl), simple?]
    · rw [← List.cons_append, hmoment, List.cons_append, hnumber, float?_eq_nearest? hn hreal]
      cases nearest? n <;> rfl
    all_goals
      intro _ heq
      exact hhead _ rfl (List.cons.inj heq).1

end Lists

/-! ## Words -/

section Words

variable {word rest : List Char} {depth : Nat}

theorem basic?_word (hword : ∀ c ∈ word, c.isAlpha = true) :
    basic? (word ++ '"' :: rest) = some (word, rest) := by
  induction word with
  | nil => rw [List.nil_append, basic?]
  | cons c word ih =>
    obtain ⟨hc, hword⟩ := List.forall_mem_cons.1 hword
    have hne (d : Char) (hd : d.isAlpha = false) : c ≠ d := by
      rintro rfl
      exact Bool.false_ne_true (hd.symm.trans hc)
    have hprintable : isPrintable c = true := by
      have hcode := Text.code_of_isAlpha hc
      simp only [isPrintable, Bool.or_eq_true, Bool.and_eq_true, decide_eq_true_eq]
      omega
    rw [List.cons_append, basic?, if_pos hprintable, ih hword]
    · rfl
    · exact hne '"' rfl
    · exact hne '\\' rfl

theorem readsAs_word (hne : word ≠ []) (hword : ∀ c ∈ word, c.isAlpha = true) :
    ReadsAs (value? depth) ('"' :: (word ++ ['"'])) (some (.text (String.ofList word))) := by
  refine ⟨⟨_, _, rfl, rfl, by decide⟩, fun rest _ => ?_⟩
  obtain ⟨c, more, rfl⟩ := List.exists_cons_of_ne_nil hne
  have hquote : c ≠ '"' := by
    rintro rfl
    exact absurd (hword '"' (List.mem_cons_self ..)) (by decide)
  have htext : text? ('"' :: (c :: more ++ '"' :: rest)) = some (c :: more, rest) := by
    rw [text?]
    · exact basic?_word hword
    · rintro _ heq
      exact hquote (List.cons.inj (List.cons.inj heq).2).1
    · rintro _ heq
      cases (List.cons.inj heq).1
  rw [List.cons_append, List.append_assoc, value?_simple (by decide) (by decide), simple?,
    List.singleton_append, htext]
  rfl

end Words

/-! ## Lines and documents -/

section Lines

variable {key : String} {cs text rest : List Char} {o : Option Datum} {c d : Char} {n : Nat}

/-- A key that needs no quotes. -/
def IsKey (key : String) : Prop := key.toList ≠ [] ∧ ∀ c ∈ key.toList, isKeyChar c = true

/-- A key and the text of a value on a line of their own. -/
def lineOf (key : String) (cs : List Char) : List Char :=
  key.toList ++ ' ' :: '=' :: ' ' :: (cs ++ ['\n'])

theorem ne_of_isKeyChar (hc : isKeyChar c = true) (hd : isKeyChar d = false) : c ≠ d := by
  rintro rfl
  exact Bool.false_ne_true (hd.symm.trans hc)

theorem skipBlanks_append {blanks : List Char} (h : Blanks blanks) (hc : isBlank c = false) :
    skipBlanks (blanks ++ c :: rest) = c :: rest := by
  rw [skipBlanks, List.dropWhile_append_of_pos h, List.dropWhile_cons_of_neg (by simp [hc])]

theorem skipBlanks_keyChar (hc : isKeyChar c = true) : skipBlanks (c :: rest) = c :: rest := by
  have hblank : isBlank c = false := by
    simp only [isBlank, Bool.or_eq_false_iff, beq_eq_false_iff_ne]
    exact ⟨ne_of_isKeyChar hc rfl, ne_of_isKeyChar hc rfl⟩
  have hnil : Blanks [] := List.forall_mem_nil _
  exact skipBlanks_append hnil hblank

/-- A line with a key is not empty. -/
theorem lineEnd?_keyChar (hc : isKeyChar c = true) : lineEnd? (c :: rest) = none := by
  rw [lineEnd?, skipBlanks_keyChar hc]
  split
  · rename_i heq
    split at heq
    · rename_i hcons
      exact absurd (List.cons.inj hcons).1 (ne_of_isKeyChar hc rfl)
    · cases heq
  · split
    · rename_i hcons
      exact absurd (List.cons.inj hcons).1 (ne_of_isKeyChar hc rfl)
    · rw [lineBreak?]
      · rintro _ heq
        exact ne_of_isKeyChar hc rfl (List.cons.inj heq).1
      · rintro _ heq
        exact ne_of_isKeyChar hc rfl (List.cons.inj heq).1

theorem IsKey.exists_head (h : IsKey key) :
    ∃ c more, key.toList = c :: more ∧ isKeyChar c = true := by
  obtain ⟨c, more, hkey⟩ := List.exists_cons_of_ne_nil h.1
  exact ⟨c, more, hkey, h.2 c (hkey ▸ List.mem_cons_self ..)⟩

theorem skipBlanks_key (h : IsKey key) : skipBlanks (key.toList ++ rest) = key.toList ++ rest := by
  obtain ⟨c, more, hkey, hc⟩ := h.exists_head
  rw [hkey]
  exact skipBlanks_keyChar hc

theorem keyPart?_run (h : IsKey key) :
    keyPart? (key.toList ++ ' ' :: rest) = some (key.toList, ' ' :: rest) := by
  obtain ⟨htake, hdrop⟩ := Text.takeWhile_run (' ' :: rest) h.2
    (fun c hc => by cases hc; rfl)
  obtain ⟨c, more, hkey, hc⟩ := h.exists_head
  unfold keyPart?
  split
  · rename_i heq
    rw [hkey] at heq
    exact absurd (List.cons.inj heq).1 (ne_of_isKeyChar hc rfl)
  · rename_i heq
    rw [hkey] at heq
    exact absurd (List.cons.inj heq).1 (ne_of_isKeyChar hc rfl)
  · simp [htake, hdrop, h.1]

theorem key?_run (h : IsKey key) :
    key? (key.toList ++ ' ' :: '=' :: rest) = some (([], key), '=' :: rest) := by
  have hparts : keyParts? (deepest - 1) (key.toList ++ ' ' :: '=' :: rest) =
      some ([key], '=' :: rest) := by
    show keyParts? (78 + 1) _ = _
    have hblanks : skipBlanks (' ' :: '=' :: rest) = '=' :: rest := rfl
    rw [keyParts?, skipBlanks_key h, keyPart?_run h]
    simp [hblanks]
  rw [key?, hparts]
  rfl

/-- The value of a line, with blanks around it. -/
abbrev Valued : Option Datum → List Char → Prop :=
  Padded Blanks fun o text => ReadsAs (value? (deepest - 1)) text o

theorem lineEnd?_blanks {blanks : List Char} (h : Blanks blanks) :
    lineEnd? (blanks ++ '\n' :: rest) = some rest := by
  rw [lineEnd?, skipBlanks_append h rfl]
  rfl

theorem stops_blanks {blanks : List Char} (h : Blanks blanks) :
    Stops (blanks ++ '\n' :: rest) := by
  cases blanks with
  | nil => exact stops_cons rfl _
  | cons c blanks => exact stops_cons (isStop_of_isBlank (h c (List.mem_cons_self ..))) _

/-- A key and its value, with what is left of the line. -/
theorem statement?_line (hkey : IsKey key) (hcs : Valued o cs) (rest : List Char) :
    ∃ blanks, Blanks blanks ∧ statement? (lineOf key cs ++ rest) =
      o.map fun d => (.pair [] key d, blanks ++ '\n' :: rest) := by
  obtain ⟨before, text, after, hbefore, htext, hafter, rfl⟩ := hcs
  refine ⟨after, hafter, ?_⟩
  obtain ⟨c, more, hhead, hc⟩ := hkey.exists_head
  have hline : lineOf key (before ++ text ++ after) ++ rest =
      key.toList ++ ' ' :: '=' :: (' ' :: before ++ (text ++ (after ++ '\n' :: rest))) := by
    simp [lineOf]
  have hskip : skipBlanks (' ' :: before ++ (text ++ (after ++ '\n' :: rest))) =
      text ++ (after ++ '\n' :: rest) := by
    obtain ⟨d, tail, rfl, hd, -⟩ := htext.begins
    have hblank : isBlank d = false := by
      by_contra hnot
      rw [isStop_of_isBlank (Bool.not_eq_false _ ▸ hnot)] at hd
      cases hd
    exact skipBlanks_append (List.forall_mem_cons.2 ⟨rfl, hbefore⟩) hblank
  have hpair : pair? (value? (deepest - 1)) (lineOf key (before ++ text ++ after) ++ rest) =
      o.map fun d => (([], key, d), after ++ '\n' :: rest) := by
    rw [hline, pair?, key?_run hkey]
    simp only [Option.bind_eq_bind, Option.bind_some, after?, if_true, hskip,
      htext.reads _ (stops_blanks hafter)]
    cases o <;> rfl
  have hstatement : statement? (lineOf key (before ++ text ++ after) ++ rest) =
      (pair? (value? (deepest - 1)) (lineOf key (before ++ text ++ after) ++ rest)).map
        fun p => (.pair p.1.1 p.1.2.1 p.1.2.2, p.2) := by
    rw [statement?]
    rintro _ heq
    rw [lineOf, hhead] at heq
    exact ne_of_isKeyChar hc rfl (List.cons.inj heq).1
  rw [hstatement, hpair, Option.map_map]
  rfl

theorem statements?_line (hkey : IsKey key) (hcs : Valued o cs) (rest : List Char) :
    statements? (n + 1) (lineOf key cs ++ rest) =
      o.bind fun d => (statements? n rest).map (.pair [] key d :: ·) := by
  obtain ⟨c, more, hhead, hc⟩ := hkey.exists_head
  have hline : lineOf key cs ++ rest =
      c :: (more ++ ' ' :: '=' :: ' ' :: (cs ++ '\n' :: rest)) := by
    simp [lineOf, hhead]
  obtain ⟨blanks, hblanks, hstatement⟩ := statement?_line hkey hcs rest
  rw [statements?, hline, skipBlanks_keyChar hc]
  simp only [lineEnd?_keyChar hc]
  rw [← hline, hstatement]
  cases o with
  | none => rfl
  | some d =>
    simp only [Option.map_some, Option.bind_eq_bind, Option.bind_some, lineEnd?_blanks hblanks]
    cases statements? n rest <;> rfl

/-- A line that says a key and a value. -/
structure LineAs (line : List Char) (m : String × Option Datum) : Prop where
  key : IsKey m.1
  value : ∃ cs, Valued m.2 cs ∧ line = lineOf m.1 cs

theorem statements?_lines {lines : List (List Char)} {ms : List (String × Option Datum)}
    (h : List.Forall₂ LineAs lines ms) (hn : lines.length < n) :
    statements? n lines.flatten = ms.mapM fun m => m.2.map (.pair [] m.1) := by
  induction h generalizing n with
  | nil =>
    obtain ⟨n, rfl⟩ := Nat.exists_eq_succ_of_ne_zero (Nat.ne_of_gt hn)
    rfl
  | @cons line m lines ms hline _ ih =>
    obtain ⟨n, rfl⟩ := Nat.exists_eq_succ_of_ne_zero (Nat.ne_of_gt (Nat.zero_lt_of_lt hn))
    obtain ⟨hkey, cs, hcs, rfl⟩ := hline
    rw [List.flatten_cons, statements?_line hkey hcs, ih (Nat.lt_of_succ_lt_succ hn), mapM_cons_eq]
    cases m.2 <;> rfl

theorem length_lines {lines : List (List Char)} {ms : List (String × Option Datum)}
    (h : List.Forall₂ LineAs lines ms) : lines.length ≤ lines.flatten.length := by
  induction h with
  | nil => rfl
  | @cons line m lines ms hline _ ih =>
    obtain ⟨-, cs, -, rfl⟩ := hline
    simp only [lineOf, List.flatten_cons, List.length_append, List.length_cons]
    omega

theorem ofStatements_pairs (ms : Members) :
    Sections.ofStatements (ms.map fun m => .pair [] m.1 m.2) =
      ⟨ms.map fun m => ([], m.1, m.2), []⟩ := by
  induction ms with
  | nil => rfl
  | cons m ms ih => rw [List.map_cons, Sections.ofStatements, ih, List.map_cons]

theorem addAll_pairs {es : Entries} {ms : Members}
    (h : (es.map Prod.fst ++ ms.map Prod.fst).Nodup) :
    Entries.addAll es (ms.map fun m => ([], m.1, m.2)) =
      some (es ++ ms.map fun m => (m.1, .value m.2)) := by
  induction ms generalizing es with
  | nil => simp [Entries.addAll]
  | cons m ms ih =>
    have hnew : ∀ e ∈ es, e.1 ≠ m.1 := fun e he =>
      (List.nodup_append.1 h).2.2 _ (List.mem_map_of_mem he) _ (List.mem_cons_self ..)
    have hfind : es.find? m.1 = none :=
      List.lookup_eq_none_iff.2 fun e he => bne_iff_ne.2 (hnew e he).symm
    have hany : es.any (·.1 == m.1) = false :=
      List.any_eq_false.2 fun e he => by simpa using hnew e he
    have hadd : es.add [] m.1 m.2 = some (es ++ [(m.1, .value m.2)]) := by
      rw [Entries.add, Entries.update, hfind, Entries.set, hany]
      rfl
    rw [List.map_cons, Entries.addAll, hadd, Option.bind_some, ih]
    · simp
    · simpa using h

theorem members_values (ms : Members) :
    Node.members (ms.map fun m => (m.1, .value m.2)) = ms := by
  induction ms with
  | nil => rfl
  | cons m ms ih => rw [List.map_cons, Node.members, ih, Node.datum]

theorem entries?_pairs {ms : Members} (h : (ms.map Prod.fst).Nodup) :
    (entries? (ms.map fun m => .pair [] m.1 m.2)).map Node.members = some ms := by
  have hadd : Entries.addAll [] (ms.map fun m => ([], m.1, m.2)) =
      some ([] ++ ms.map fun m => (m.1, .value m.2)) := addAll_pairs (by simpa using h)
  rw [entries?, ofStatements_pairs, hadd]
  simp [addSections, members_values]

theorem dropMark_lines {lines : List (List Char)} {ms : List (String × Option Datum)}
    (h : List.Forall₂ LineAs lines ms) : dropMark lines.flatten = lines.flatten := by
  cases h with
  | nil => rfl
  | cons hline _ =>
    obtain ⟨hkey, cs, -, rfl⟩ := hline
    obtain ⟨c, more, hhead, hc⟩ := hkey.exists_head
    rw [dropMark]
    rintro _ heq
    rw [List.flatten_cons, lineOf, hhead] at heq
    exact ne_of_isKeyChar hc (by decide) (List.cons.inj heq).1

/-- What the lines say, as statements. -/
theorem mapM_pairs (ms : List (String × Option Datum)) :
    ms.mapM (fun m => m.2.map (Statement.pair [] m.1)) =
      (Members.gather? ms).map (List.map fun m => .pair [] m.1 m.2) := by
  induction ms with
  | nil => rfl
  | cons m ms ih =>
    rw [Members.gather?, mapM_cons_eq, mapM_cons_eq, ih, ← Members.gather?]
    cases m.2 with
    | none => rfl
    | some d => cases Members.gather? ms <;> rfl

theorem keys_of_gather? {ms : List (String × Option Datum)} {ds : Members}
    (h : Members.gather? ms = some ds) :
    ds.map Prod.fst = ms.map Prod.fst := by
  induction ms generalizing ds with
  | nil =>
    cases h
    rfl
  | cons m ms ih =>
    rw [Members.gather?, mapM_cons_eq] at h
    obtain ⟨d, hd, hds⟩ := Option.bind_eq_some_iff.1 h
    obtain ⟨ds, hms, rfl⟩ := Option.map_eq_some_iff.1 hds
    obtain ⟨d, -, rfl⟩ := Option.map_eq_some_iff.1 hd
    rw [List.map_cons, List.map_cons, ih hms]

/-- A document of lines with different keys says what its lines say. -/
theorem members?_lines {s : String} {lines : List (List Char)} {ms : List (String × Option Datum)}
    (hs : s.toList = lines.flatten) (h : List.Forall₂ LineAs lines ms)
    (hkeys : (ms.map Prod.fst).Nodup) :
    members? s = Members.gather? ms := by
  have hstatements := statements?_lines h (Nat.lt_succ_of_le (length_lines h))
  rw [members?, hs, dropMark_lines h]
  simp only [hstatements, mapM_pairs, Option.bind_eq_bind]
  cases hds : Members.gather? ms with
  | none => rfl
  | some ds =>
    have hentries := entries?_pairs (keys_of_gather? hds ▸ hkeys)
    obtain ⟨es, hes, hmembers⟩ := Option.map_eq_some_iff.1 hentries
    rw [Option.map_some, Option.bind_some, hes, Option.bind_some, hmembers]
    rfl

end Lines

end Toml
end LtiUnit
