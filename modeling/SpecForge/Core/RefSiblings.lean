import SpecForge.Core.Resolve

/-!
# A `$ref` with metadata next to it

The downgrade from 3.1 turns a reference with siblings into an `allOf` of the
reference and an inline schema of the siblings; resolution turns that back into
a reference if the siblings are only metadata. When it does, and what it yields.
-/

namespace SpecForge

open OpenApi (ReferenceOr Schema SchemaKind)

/-- A schema without a type and without a composition that has a description, a
title or a deprecation. -/
def MetadataOnly (s : Schema) : Prop :=
  s.schemaKind = .any ∧
    (s.schemaData.description.isSome || s.schemaData.title.isSome || s.schemaData.deprecated)
      = true

theorem collapse_eq_some_iff {reference : String} {s : Schema} {t : IrType} :
    allofRefSiblingDescription.collapse reference s = some t ↔
      MetadataOnly s ∧
        t = .reference (refName reference) false
          (s.schemaData.description.or s.schemaData.title) := by
  obtain ⟨data, kind⟩ := s
  unfold allofRefSiblingDescription.collapse MetadataOnly
  cases kind with
  | any =>
      dsimp only
      cases data.description.isSome || data.title.isSome || data.deprecated with
      | true => simp [eq_comm]
      | false => simp
  | _ => simp

theorem allofRefSiblingDescription_eq_some_iff {members : List (ReferenceOr Schema)}
    {t : IrType} :
    allofRefSiblingDescription members = some t ↔
      ∃ reference s, (members = [.reference reference, .item s] ∨
          members = [.item s, .reference reference]) ∧
        MetadataOnly s ∧
        t = .reference (refName reference) false
          (s.schemaData.description.or s.schemaData.title) := by
  constructor
  · intro h
    unfold allofRefSiblingDescription at h
    split at h
    · next reference s => exact ⟨reference, s, Or.inl rfl, collapse_eq_some_iff.mp h⟩
    · next s reference => exact ⟨reference, s, Or.inr rfl, collapse_eq_some_iff.mp h⟩
    · cases h
  · rintro ⟨reference, s, rfl | rfl, hs⟩
    · exact collapse_eq_some_iff.mpr hs
    · exact collapse_eq_some_iff.mpr hs

end SpecForge
