import LtiUnit.Proofs.Agreement

/-!
# LtiUnit.Proofs.CarriedIdentity

Both texts of a unit carry its identity: the source in two of its macros, the descriptor in an
attribute of its root.
-/

namespace LtiUnit

open Model (StateSpace)
open Text (Only isPlain)

namespace Source

variable (m : StateSpace Float) (id : Identity) (step : Float)

theorem words_quoted {s : String} (h : Only isPlain s) :
    words ("\"" ++ s ++ "\"").toList = ["\"" ++ s ++ "\""] := by
  have hblank : ' ' ∉ ("\"" ++ s ++ "\"").toList := by
    simp [h.not_mem (c := ' ') (by decide)]
  rw [words_of_not_mem hblank (by simp), String.ofList_toList]

theorem under_blockMacros (name : String) (h : ∀ b, blockMacro b ≠ name) (l : Layout) :
    under name (Block.order.flatMap (blockEntry l)) = [] := by
  rw [under_flatMap, List.flatMap_eq_nil_iff]
  intro b _
  rw [blockEntry, under_onlyIf, if_neg (h b)]

theorem under_MODEL_IDENTIFIER :
    under "MODEL_IDENTIFIER" (macros (Render.textOf (Render.sourceLines m id step))) =
      [[id.name]] := by
  have hblocks := under_blockMacros "MODEL_IDENTIFIER" (by rintro ⟨⟩ <;> decide)
    m.layout
  have hopening : under "MODEL_IDENTIFIER" ((opening m.layout id step).flatMap (Item.macros ·)) =
      [words id.name.toList] := by
    simp [under, opening, origin, Item.macros, Expr.text]
  rw [macros_source, macros_unit, under_append, hopening, hblocks, words_name id.isName]
  rfl

theorem under_MODEL_GUID :
    under "MODEL_GUID" (macros (Render.textOf (Render.sourceLines m id step))) =
      [["\"" ++ id.occasion.guid.text ++ "\""]] := by
  have hblocks := under_blockMacros "MODEL_GUID" (by rintro ⟨⟩ <;> decide) m.layout
  have hopening : under "MODEL_GUID" ((opening m.layout id step).flatMap (Item.macros ·)) =
      [words ("\"" ++ id.occasion.guid.text ++ "\"").toList] := by
    simp [under, opening, origin, Item.macros, Expr.text]
  rw [macros_source, macros_unit, under_append, hopening, hblocks,
    words_quoted (Text.plain_guid _)]
  rfl

end Source

namespace Descriptor

theorem read?_descriptor (m : StateSpace Float) (id : Identity) :
    ∃ e, Xml.read? (Render.textOf (Render.descriptorLines m id)) = some e ∧
      e.attribute? "guid" = some id.occasion.guid.text :=
  ⟨_, Xml.read?_documentLines (clean_root m id) rfl, rfl⟩

end Descriptor
end LtiUnit
