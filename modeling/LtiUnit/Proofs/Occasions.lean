import LtiUnit.Proofs.PackedUnit
import LtiUnit.Proofs.StatedOccasion
import Mathlib.Data.List.Forall2

/-!
# LtiUnit.Proofs.Occasions

The texts of a unit on two occasions. A text is compared with another line by line, and two lines
are alike if they are equal, or if they say the GUID or the time of their own occasion between the
same words (`Redrawn`).

* `redrawn_pieces` — the lines that a text is put together from may be compared in their place.
* `drawn_sourceLines`, `drawn_descriptorLines` — so the texts of a model are alike on all occasions.
* `exists_redrawn` — and what is rendered on one occasion is rendered on every other one.
-/

namespace LtiUnit

open Text (pieces cutAt Only isPlain)
open Model (StateSpace)

/-- Two lines are equal but for the GUID or the time of their occasions. -/
inductive Redrawn (o o' : Occasion) : String → String → Prop
  | same (line : String) : Redrawn o o' line line
  | guid (before after : String) :
    Redrawn o o' (before ++ o.guid.text ++ after) (before ++ o'.guid.text ++ after)
  | time (before after : String) :
    Redrawn o o' (before ++ Calendar.text o.seconds ++ after)
      (before ++ Calendar.text o'.seconds ++ after)

/-- Two texts have equal lines but for the GUIDs and the times of their occasions. -/
def RedrawnText (o o' : Occasion) (s s' : String) : Prop :=
  List.Forall₂ (Redrawn o o') (pieces '\n' s) (pieces '\n' s')

/-! ## Lines and texts -/

section Lines

variable {o o' : Occasion} {before after : String}

/-- Two texts that are equal, or alike and of one line each. -/
def Drawn (o o' : Occasion) (s s' : String) : Prop :=
  s = s' ∨ '\n' ∉ s.toList ∧ '\n' ∉ s'.toList ∧ Redrawn o o' s s'

theorem drawn_refl (lines : List String) : List.Forall₂ (Drawn o o') lines lines :=
  List.forall₂_same.2 fun _ _ => .inl rfl

theorem not_mem_of_plain {drawn : String} (hdrawn : Only isPlain drawn)
    (hbefore : '\n' ∉ before.toList) (hafter : '\n' ∉ after.toList) :
    '\n' ∉ (before ++ drawn ++ after).toList := by
  have hplain : '\n' ∉ drawn.toList := hdrawn.not_mem (by decide)
  simp [hbefore, hafter, hplain]

theorem drawn_guid (hbefore : '\n' ∉ before.toList) (hafter : '\n' ∉ after.toList) :
    Drawn o o' (before ++ o.guid.text ++ after) (before ++ o'.guid.text ++ after) :=
  .inr ⟨not_mem_of_plain (Text.plain_guid _) hbefore hafter,
    not_mem_of_plain (Text.plain_guid _) hbefore hafter, .guid before after⟩

theorem drawn_time (hbefore : '\n' ∉ before.toList) (hafter : '\n' ∉ after.toList) :
    Drawn o o' (before ++ Calendar.text o.seconds ++ after)
      (before ++ Calendar.text o'.seconds ++ after) :=
  .inr ⟨not_mem_of_plain (Text.plain_timestamp _) hbefore hafter,
    not_mem_of_plain (Text.plain_timestamp _) hbefore hafter, .time before after⟩

theorem pieces_textOf_cons (line : String) (lines : List String) :
    pieces '\n' (Render.textOf (line :: lines)) =
      pieces '\n' line ++ pieces '\n' (Render.textOf lines) := by
  have htext : (Render.textOf (line :: lines)).toList =
      line.toList ++ '\n' :: (Render.textOf lines).toList := by
    simp [Render.textOf, String.toList_join]
  rw [pieces, htext, Text.cutAt_sep, List.map_append, pieces, pieces]

/-- Texts of lines that are alike are alike. -/
theorem redrawn_pieces {lines lines' : List String} (h : List.Forall₂ (Drawn o o') lines lines') :
    RedrawnText o o' (Render.textOf lines) (Render.textOf lines') := by
  induction h with
  | nil => exact .cons (.same _) .nil
  | @cons line line' lines lines' hline _ ih =>
    rw [RedrawnText, pieces_textOf_cons, pieces_textOf_cons]
    refine List.rel_append ?_ ih
    rcases hline with rfl | ⟨hline, hline', hredrawn⟩
    · exact List.forall₂_same.2 fun line _ => .same line
    · rw [pieces, pieces, Text.cutAt_of_not_mem hline, Text.cutAt_of_not_mem hline']
      simpa using hredrawn

end Lines

/-! ## The texts of a unit -/

section Unit

variable {o o' : Occasion} (m : StateSpace Float) (name : String) (hname : isName name = true)
  (step : Float)

theorem drawn_origin : List.Forall₂ (Drawn o o')
    (Source.origin ⟨name, hname, o⟩ : Source.Item Float).lines
    (Source.origin ⟨name, hname, o'⟩ : Source.Item Float).lines := by
  have hguid : Drawn o o' (" * " ++ ("GUID:      " ++ o.guid.text))
      (" * " ++ ("GUID:      " ++ o'.guid.text)) := by
    simpa [← String.append_assoc] using
      (drawn_guid (by decide) (by decide) : Drawn o o' (" * GUID:      " ++ o.guid.text ++ "") _)
  have htime : Drawn o o' (" * " ++ ("Generated: " ++ Calendar.text o.seconds))
      (" * " ++ ("Generated: " ++ Calendar.text o'.seconds)) := by
    simpa [← String.append_assoc] using
      (drawn_time (by decide) (by decide) :
        Drawn o o' (" * Generated: " ++ Calendar.text o.seconds ++ "") _)
  exact .cons (.inl rfl) (.cons (.inl rfl) (.cons (.inl rfl) (.cons hguid (.cons htime
    (drawn_refl _)))))

theorem drawn_macro : List.Forall₂ (Drawn o o')
    (Source.Item.define "MODEL_GUID" (.quoted o.guid.text) : Source.Item Float).lines
    (Source.Item.define "MODEL_GUID" (.quoted o'.guid.text) : Source.Item Float).lines := by
  have hmacro : Drawn o o' ("#define " ++ "MODEL_GUID" ++ " " ++ ("\"" ++ o.guid.text ++ "\""))
      ("#define " ++ "MODEL_GUID" ++ " " ++ ("\"" ++ o'.guid.text ++ "\"")) := by
    simpa [← String.append_assoc] using
      (drawn_guid (by decide) (by decide) :
        Drawn o o' ("#define MODEL_GUID \"" ++ o.guid.text ++ "\"") _)
  exact .cons hmacro .nil

/-- The pieces of a unit, of which the first one and one macro say on which occasion. -/
theorem unit_eq : ∃ before after : List (Source.Item Float), ∀ o,
    Source.unit m ⟨name, hname, o⟩ step = Source.origin ⟨name, hname, o⟩ ::
      (before ++ .define "MODEL_GUID" (.quoted o.guid.text) :: after) :=
  let any := Source.unit m ⟨name, hname, ⟨⟨0⟩, 0⟩⟩ step
  ⟨(any.take 7).drop 1, any.drop 8, fun _ => rfl⟩

theorem drawn_sourceLines :
    List.Forall₂ (Drawn o o') (Render.sourceLines m ⟨name, hname, o⟩ step)
      (Render.sourceLines m ⟨name, hname, o'⟩ step) := by
  obtain ⟨before, after, hunit⟩ := unit_eq m name hname step
  simp only [Render.sourceLines, hunit, List.flatMap_cons, List.flatMap_append]
  exact List.rel_append (drawn_origin name hname) (List.rel_append (drawn_refl _)
    (List.rel_append drawn_macro (drawn_refl _)))

theorem drawn_descriptorLines :
    List.Forall₂ (Drawn o o') (Render.descriptorLines m ⟨name, hname, o⟩)
      (Render.descriptorLines m ⟨name, hname, o'⟩) := by
  have hguid : Drawn o o' ("" ++ "  " ++ Xml.Attribute.text ⟨"guid", o.guid.text⟩)
      ("" ++ "  " ++ Xml.Attribute.text ⟨"guid", o'.guid.text⟩) := by
    simpa [Xml.Attribute.text, ← String.append_assoc] using
      (drawn_guid (by decide) (by decide) : Drawn o o' ("  guid=\"" ++ o.guid.text ++ "\"") _)
  have htime : Drawn o o'
      ("" ++ "  " ++ Xml.Attribute.text ⟨"generationDateAndTime", Calendar.text o.seconds⟩)
      ("" ++ "  " ++ Xml.Attribute.text ⟨"generationDateAndTime", Calendar.text o'.seconds⟩) := by
    simpa [Xml.Attribute.text, ← String.append_assoc] using
      (drawn_time (by decide) (by decide) :
        Drawn o o' ("  generationDateAndTime=\"" ++ Calendar.text o.seconds ++ "\"") _)
  obtain ⟨before, between, after, -, -, -, hlines⟩ :=
    Descriptor.descriptorLines_eq m name hname
  rw [hlines, hlines]
  exact List.rel_append (drawn_refl _) (.cons hguid (List.rel_append (drawn_refl _)
    (.cons htime (drawn_refl _))))

end Unit

/-! ## Rendering -/

namespace Package

variable {m : StateSpace Float} {name : String} {step : Float} {o : Occasion} {rendered : Rendered}

/-- What is rendered on one occasion is rendered on every other one, alike. -/
theorem exists_redrawn (h : render m name step o = .ok rendered) (o' : Occasion) :
    ∃ rendered', render m name step o' = .ok rendered' ∧
      RedrawnText o o' rendered.source rendered'.source ∧
      RedrawnText o o' rendered.descriptor rendered'.descriptor := by
  obtain ⟨hname, hstep⟩ := accepted_of_render h
  have hrendered := Except.ok.inj (h.symm.trans (render_of m hname hstep o))
  have hsource := congrArg Rendered.source hrendered
  have hdescriptor := congrArg Rendered.descriptor hrendered
  refine ⟨_, render_of m hname hstep o', ?_, ?_⟩ <;> dsimp only at hsource hdescriptor ⊢
  · rw [hsource]
    exact redrawn_pieces (drawn_sourceLines m name hname step)
  · rw [hdescriptor]
    exact redrawn_pieces (drawn_descriptorLines m name hname)

end Package

end LtiUnit
