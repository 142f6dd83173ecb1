import SpecForge.Core.MergeOverlay
import SpecForge.Core.RefSiblings
import SpecForge.Core.ResolvedObjects

/-!
# References of a resolved document

The IR can mark a reference as nullable, but no resolved schema has one that is: a `$ref`
has no keywords next to it, and an `allOf` that stands for a reference keeps its description
only. Nor does a model of the registry have another name than its key.
-/

namespace SpecForge

open Lib (IndexMap)
open OpenApi (ReferenceOr Schema SchemaKind OApiType Components OpenAPI)

/-- If the type is a reference, it is not a nullable one. -/
def IrType.PlainRef (t : IrType) : Prop :=
  ∀ name nullable description, t = .reference name nullable description → nullable = false

theorem plainRef_typeToIr (t : OApiType) (nullable : Bool) : (typeToIr t nullable).PlainRef := by
  intro name nullable' description h
  cases t with
  | string s =>
      obtain ⟨format, enumeration⟩ := s
      rw [typeToIr] at h
      split at h
      · cases h
      · cases h
  | object o =>
      rw [typeToIr_object] at h
      unfold objectShape at h
      split at h
      · cases h
      · cases h
      · cases h
  | array items => cases items <;> · rw [typeToIr] at h; cases h
  | number => rw [typeToIr] at h; cases h
  | integer i => rw [typeToIr] at h; cases h
  | boolean => rw [typeToIr] at h; cases h

theorem plainRef_schemaKindToType (kind : SchemaKind) (nullable : Bool)
    (discriminator : Option OpenApi.Discriminator) :
    (schemaKindToType kind nullable discriminator).PlainRef := by
  cases kind with
  | type t =>
      rw [schemaKindToType]
      exact plainRef_typeToIr t nullable
  | allOf members =>
      intro name nullable' description h
      rw [schemaKindToType] at h
      cases hcollapse : allofRefSiblingDescription members with
      | none =>
          rw [hcollapse] at h
          cases h
      | some t =>
          rw [hcollapse] at h
          obtain ⟨reference, s, -, -, rfl⟩ := allofRefSiblingDescription_eq_some_iff.mp hcollapse
          cases h
          rfl
  | oneOf members =>
      intro name nullable' description h
      rw [schemaKindToType] at h
      cases h
  | anyOf members =>
      intro name nullable' description h
      rw [schemaKindToType] at h
      cases h
  | any =>
      intro name nullable' description h
      rw [schemaKindToType] at h
      cases h
  | not =>
      intro name nullable' description h
      rw [schemaKindToType] at h
      cases h

theorem plainRef_refOrSchemaToType (m : ReferenceOr Schema) : (refOrSchemaToType m).PlainRef := by
  cases m with
  | reference reference =>
      intro name nullable description h
      rw [refOrSchemaToType, referenceTo] at h
      cases h
      rfl
  | item s =>
      obtain ⟨data, kind⟩ := s
      rw [refOrSchemaToType]
      exact plainRef_schemaKindToType kind data.nullable data.discriminator

/-- No property is a nullable reference, and neither is the shape. -/
def Model.PlainRefs (m : Model) : Prop :=
  ∀ o, m = .object o →
    (∀ p ∈ o.properties, p.ty.PlainRef) ∧ ∀ t, o.shapeType = some t → t.PlainRef

theorem plainRef_objectProperties {o : OpenApi.ObjectType} {p : Property}
    (hp : p ∈ objectProperties o) : p.ty.PlainRef := by
  obtain ⟨⟨name, s⟩, -, rfl⟩ := List.mem_map.mp hp
  exact plainRef_refOrSchemaToType s

/-- A merge declares nothing that no member declares. -/
theorem exists_of_mem_mergedProperties {xs : List (List Property × List String)} {p : Property}
    (hp : p ∈ mergedProperties xs) : ∃ x ∈ xs, ∃ q ∈ x.1, p.ty = q.ty := by
  obtain ⟨q, hq, heq⟩ := Option.map_eq_some_iff.mp (mem_mergedProperties.mp hp)
  have hmem := List.mem_reverse.mp (Lib.mem_of_lookup_eq_some hq)
  obtain ⟨q', hq', hpair⟩ := List.mem_map.mp hmem
  obtain ⟨x, hx, hqx⟩ := List.mem_flatMap.mp hq'
  obtain rfl : q' = q := congrArg Prod.snd hpair
  exact ⟨x, hx, q', hqx, heq ▸ rfl⟩

theorem plainRef_contribution {c : Components} {known : String → Option Model}
    (hknown : ∀ n m, known n = some m → m.PlainRefs) {member : ReferenceOr Schema}
    {p : Property} (hp : p ∈ (contribution c known member).1) : p.ty.PlainRef := by
  cases member with
  | reference reference =>
      cases hobj : (c.schemas.get (refName reference)).bind inlineObject with
      | some o =>
          rw [contribution_reference_object hobj] at hp
          exact plainRef_objectProperties hp
      | none =>
          rw [contribution_reference_other hobj] at hp
          unfold inherited at hp
          split at hp
          · next o ho => exact (hknown _ _ ho o rfl).1 p hp
          · cases hp
  | item s =>
      unfold contribution at hp
      dsimp only at hp
      split at hp
      · exact plainRef_objectProperties hp
      · cases hp

theorem plainRefs_modelOf {c : Components} {known : String → Option Model}
    (hknown : ∀ n m, known n = some m → m.PlainRefs) (n : String) (s : Schema) :
    (modelOf c known n s).PlainRefs := by
  intro o ho
  unfold modelOf at ho
  split at ho
  · cases ho
  · cases ho
    refine ⟨fun p hp => ?_, fun t ht => ?_⟩
    · dsimp only at hp
      split at hp
      · exact plainRef_objectProperties hp
      · obtain ⟨x, hx, q, hq, hty⟩ := exists_of_mem_mergedProperties hp
        obtain ⟨member, -, rfl⟩ := List.mem_map.mp hx
        rw [hty]
        exact plainRef_contribution hknown hq
      · cases hp
    · cases ht
      exact plainRef_schemaKindToType _ _ _

theorem name_modelOf (c : Components) (known : String → Option Model) (n : String) (s : Schema) :
    (modelOf c known n s).name = n := by
  unfold modelOf
  split
  · rfl
  · rfl

theorem resolve_named {spec : OpenAPI} {d : Document} (h : resolve spec = .ok d) {n : String}
    {m : Model} (hm : d.schemas.get n = some m) : m.name = n := by
  obtain ⟨c, s, known, -, -, rfl⟩ := resolve_models h hm
  exact name_modelOf c known n s

theorem resolve_plainRefs {spec : OpenAPI} {d : Document} (h : resolve spec = .ok d)
    {n : String} {m : Model} (hm : d.schemas.get n = some m) : m.PlainRefs := by
  have hK : ∀ c, Establishes c fun _ _ m => m.PlainRefs := by
    intro c known n s hrel _ _
    refine plainRefs_modelOf (fun n' m' hm' => ?_) n s
    obtain ⟨s', -, hplain⟩ := hrel n' m' hm'
    exact hplain
  obtain ⟨c, s, -, -, hplain⟩ := resolve_related h hK hm
  exact hplain

end SpecForge
