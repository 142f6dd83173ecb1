import SpecForge.Core.Resolve

/-!
# What `resolve_schemas` builds

The functions of `resolve.rs` that build models, without their error plumbing:
`modelOf` is the model of a schema when the registry so far answers lookups by
`known`, and `resolveSchema` inserts exactly that. `resolveSchemas_models` is
the run lemma: a property of (name, schema, model) that every turn of the loop
establishes from the models built before holds of the whole registry.
-/

namespace SpecForge

open Lib (IndexMap)
open OpenApi (ReferenceOr Schema SchemaData SchemaKind OApiType ObjectType Components OpenAPI)

/-! ## §1  Models -/

/-- What a looked-up model adds. -/
def inherited : Option Model → List Property × List String
  | some (.object obj) => (obj.properties, (obj.properties.filter (·.required)).map (·.name))
  | _ => ([], [])

/-- What a member adds when lookups in the registry are answered by `known`: its
properties and the names it requires. -/
def contribution (c : Components) (known : String → Option Model)
    (member : ReferenceOr Schema) : List Property × List String :=
  match member with
  | .reference reference =>
      match (c.schemas.get (refName reference)).bind inlineObject with
      | some o => (objectProperties o, o.required)
      | none => inherited (known (refName reference))
  | .item schema =>
      match inlineObject (.item schema) with
      | some o => (objectProperties o, o.required)
      | none => ([], [])

/-- The properties of a merge: later declarations win, and a property is
required if any member requires it. -/
def mergedProperties (contributions : List (List Property × List String)) :
    List Property :=
  let m := contributions.foldl (fun m x => m.extend x.1 x.2)
    (⟨IndexMap.empty, []⟩ : AllofMerge)
  m.merged.values.map fun prop => { prop with required := m.allRequired.contains prop.name }

/-- The model `build_model` builds. -/
def modelOf (c : Components) (known : String → Option Model) (name : String)
    (s : Schema) : Model :=
  if !(enumVariants s.schemaKind).isEmpty then
    .enum ⟨name, s.schemaData.description, enumVariants s.schemaKind⟩
  else .object {
    name := name
    description := s.schemaData.description
    properties := match s.schemaKind with
      | .type (.object o) => objectProperties o
      | .allOf allOf => mergedProperties (allOf.map (contribution c known))
      | _ => []
    additionalProperties := match s.schemaKind with
      | .type (.object o) => o.additionalProperties.bind additionalToType
      | _ => none
    shapeType := some (schemaKindToType s.schemaKind s.schemaData.nullable
      s.schemaData.discriminator)
    baseType := match s.schemaKind with
      | .allOf allOf => allofBaseType allOf
      | _ => none }

theorem contribution_reference_object {c : Components} {reference : String} {o : ObjectType}
    (h : (c.schemas.get (refName reference)).bind inlineObject = some o)
    (known : String → Option Model) :
    contribution c known (.reference reference) = (objectProperties o, o.required) := by
  simp only [contribution, h]

theorem contribution_reference_other {c : Components} {reference : String}
    (h : (c.schemas.get (refName reference)).bind inlineObject = none)
    (known : String → Option Model) :
    contribution c known (.reference reference) = inherited (known (refName reference)) := by
  simp only [contribution, h]

theorem propertiesFromAllofMember_eq (member : ReferenceOr Schema) (c : Components)
    (reg : SchemaRegistry) :
    propertiesFromAllofMember member c reg = .ok (contribution c reg.get member) := by
  unfold propertiesFromAllofMember contribution
  cases member with
  | reference reference =>
      dsimp only
      cases (c.schemas.get (refName reference)).bind inlineObject with
      | some o => rfl
      | none =>
          cases reg.get (refName reference) with
          | none => rfl
          | some m => cases m <;> rfl
  | item s =>
      dsimp only
      cases inlineObject (.item s) <;> rfl

theorem mergeAllofProperties_eq (allOf : List (ReferenceOr Schema)) (c : Components)
    (reg : SchemaRegistry) :
    mergeAllofProperties allOf c reg =
      .ok (mergedProperties (allOf.map (contribution c reg.get)), none) := by
  have hfold : ∀ step : AllofMerge → ReferenceOr Schema → Except ResolveError AllofMerge,
      (∀ m member, step m member = .ok (m.extend (contribution c reg.get member).1
        (contribution c reg.get member).2)) →
      ∀ (members : List (ReferenceOr Schema)) (m : AllofMerge), members.foldlM step m =
        .ok ((members.map (contribution c reg.get)).foldl (fun m x => m.extend x.1 x.2) m) := by
    intro step hstep members
    induction members with
    | nil => intro m; rfl
    | cons member members ih =>
        intro m
        rw [List.foldlM_cons, hstep]
        exact ih _
  unfold mergeAllofProperties
  rw [hfold]
  · rfl
  · intro m member
    rw [propertiesFromAllofMember_eq]
    rfl

theorem buildModel_eq (name : String) (s : Schema) (c : Components) (reg : SchemaRegistry) :
    buildModel name s.schemaData s.schemaKind c reg = .ok (modelOf c reg.get name s) := by
  unfold buildModel modelOf
  dsimp only
  cases (enumVariants s.schemaKind).isEmpty with
  | false => rfl
  | true =>
      cases s.schemaKind with
      | type t => cases t <;> rfl
      | allOf allOf =>
          simp only [mergeAllofProperties_eq]
          rfl
      | _ => rfl

/-! ## §2  The loop -/

theorem resolveSchema_item (c : Components) (reg : SchemaRegistry) (n : String)
    (s : Schema) :
    resolveSchema c reg (n, .item s) = .ok ⟨reg.models.insert n (modelOf c reg.get n s)⟩ := by
  unfold resolveSchema derefSchema
  dsimp only
  change (do
    let model ← buildModel n s.schemaData s.schemaKind c reg
    return (⟨reg.models.insert n model⟩ : SchemaRegistry)) = _
  rw [buildModel_eq]
  rfl

theorem resolveSchema_reference (c : Components) (reg : SchemaRegistry)
    (n reference : String) :
    ∃ e, resolveSchema c reg (n, .reference reference) = .error e := ⟨_, rfl⟩

/-- The loop ends only if every entry is inline. -/
theorem foldlM_resolveSchema_items {c : Components} :
    ∀ {entries : List (String × ReferenceOr Schema)} {reg reg' : SchemaRegistry},
      entries.foldlM (resolveSchema c) reg = .ok reg' →
      ∀ e ∈ entries, ∃ s, e.2 = .item s
  | [], _, _, _ => fun _ h => absurd h List.not_mem_nil
  | (n, .item s) :: entries, reg, reg', h => by
      rw [List.foldlM_cons, resolveSchema_item] at h
      intro e he
      rcases List.mem_cons.mp he with rfl | he
      · exact ⟨s, rfl⟩
      · exact foldlM_resolveSchema_items h e he
  | (n, .reference reference) :: entries, reg, reg', h => by
      obtain ⟨e, he⟩ := resolveSchema_reference c reg n reference
      rw [List.foldlM_cons, he] at h
      cases h

/-- Every model of the registry is that of a schema and related to it by `K`. -/
def ModelsRelated (c : Components) (K : String → Schema → Model → Prop)
    (known : String → Option Model) : Prop :=
  ∀ n m, known n = some m → ∃ s, c.schemas.get n = some (.item s) ∧ K n s m

/-- `K` is established by every turn of the loop: it relates a schema to the model
built for it, if the registry relates models by `K` and lacks the name. -/
def Establishes (c : Components) (K : String → Schema → Model → Prop) : Prop :=
  ∀ known n s, ModelsRelated c K known → known n = none →
    c.schemas.get n = some (.item s) → K n s (modelOf c known n s)

theorem foldlM_resolveSchema_models {c : Components} {K : String → Schema → Model → Prop}
    (hK : Establishes c K) :
    ∀ {entries : List (String × ReferenceOr Schema)} {reg reg' : SchemaRegistry},
      (∀ e ∈ entries, c.schemas.get e.1 = some e.2 ∧ reg.get e.1 = none) →
      (entries.map Prod.fst).Nodup → ModelsRelated c K reg.get →
      entries.foldlM (resolveSchema c) reg = .ok reg' →
      ModelsRelated c K reg'.get ∧ (∀ e ∈ entries, reg'.get e.1 ≠ none) ∧
        ∀ n, n ∉ entries.map Prod.fst → reg'.get n = reg.get n
  | [], reg, reg', _, _, hrel, h => by
      cases h
      exact ⟨hrel, fun _ he => absurd he List.not_mem_nil, fun _ _ => rfl⟩
  | (n, .reference reference) :: entries, reg, reg', _, _, _, h => by
      obtain ⟨e, he⟩ := resolveSchema_reference c reg n reference
      rw [List.foldlM_cons, he] at h
      cases h
  | (n, .item s) :: entries, reg, reg', hent, hnd, hrel, h => by
      obtain ⟨hget, hnew⟩ := hent _ List.mem_cons_self
      obtain ⟨hn, hnd⟩ := List.nodup_cons.mp hnd
      rw [List.foldlM_cons, resolveSchema_item] at h
      have hget_insert : ∀ n', (⟨reg.models.insert n (modelOf c reg.get n s)⟩ :
          SchemaRegistry).get n' = if n' = n then some (modelOf c reg.get n s)
            else reg.get n' := fun n' => IndexMap.get_insert _ _ _ _
      have hrel' : ModelsRelated c K (⟨reg.models.insert n (modelOf c reg.get n s)⟩ :
          SchemaRegistry).get := by
        intro n' m hm
        rw [hget_insert] at hm
        by_cases heq : n' = n
        · rw [if_pos heq] at hm
          cases hm
          subst heq
          exact ⟨s, hget, hK reg.get n' s hrel hnew hget⟩
        · rw [if_neg heq] at hm
          exact hrel n' m hm
      have hent' : ∀ e ∈ entries, c.schemas.get e.1 = some e.2 ∧
          (⟨reg.models.insert n (modelOf c reg.get n s)⟩ : SchemaRegistry).get e.1 = none := by
        intro e he
        have hne : e.1 ≠ n := by
          rintro rfl
          exact hn (List.mem_map.mpr ⟨e, he, rfl⟩)
        obtain ⟨h1, h2⟩ := hent e (List.mem_cons_of_mem _ he)
        exact ⟨h1, by rw [hget_insert, if_neg hne, h2]⟩
      -- the model of `n` survives the later turns, which build other names
      obtain ⟨hfin, hall, hframe⟩ := foldlM_resolveSchema_models hK hent' hnd hrel' h
      refine ⟨hfin, ?_, ?_⟩
      · intro e he
        rcases List.mem_cons.mp he with rfl | he
        · show reg'.get n ≠ none
          rw [hframe n hn, hget_insert, if_pos rfl]
          exact Option.some_ne_none _
        · exact hall e he
      · intro n' hn'
        obtain ⟨hne, hn'⟩ := not_or.mp fun hor => hn' (List.mem_cons.mpr hor)
        rw [hframe n' hn', hget_insert, if_neg hne]

theorem resolveSchemas_run {c : Components} {K : String → Schema → Model → Prop}
    (hK : Establishes c K) {reg : SchemaRegistry} (h : resolveSchemas (some c) = .ok reg) :
    ModelsRelated c K reg.get ∧ ∀ e ∈ c.schemas.entries, reg.get e.1 ≠ none := by
  have hent : ∀ e ∈ c.schemas.entries,
      c.schemas.get e.1 = some e.2 ∧ SchemaRegistry.default.get e.1 = none :=
    fun e he => ⟨IndexMap.mem_entries_iff.mp he, rfl⟩
  have hrel : ModelsRelated c K SchemaRegistry.default.get := by
    intro n m hm
    cases hm
  obtain ⟨hfin, hall, -⟩ :=
    foldlM_resolveSchema_models hK hent c.schemas.nodup hrel h
  exact ⟨hfin, hall⟩

theorem resolveSchemas_related {c : Components} {K : String → Schema → Model → Prop}
    (hK : Establishes c K) {reg : SchemaRegistry} (h : resolveSchemas (some c) = .ok reg) :
    ModelsRelated c K reg.get :=
  (resolveSchemas_run hK h).1

/-- **Every schema has its model, built from what was built before.** -/
theorem resolveSchemas_models {c : Components} {K : String → Schema → Model → Prop}
    (hK : Establishes c K) {reg : SchemaRegistry} (h : resolveSchemas (some c) = .ok reg)
    {n : String} {s : Schema} (hn : c.schemas.get n = some (.item s)) :
    ∃ m, reg.get n = some m ∧ K n s m := by
  obtain ⟨hfin, hall⟩ := resolveSchemas_run hK h
  have hne := hall (n, .item s) (IndexMap.mem_entries_iff.mpr hn)
  obtain ⟨m, hm⟩ := Option.ne_none_iff_exists'.mp hne
  obtain ⟨s', hs', hKm⟩ := hfin n m hm
  rw [hn] at hs'
  cases hs'
  exact ⟨m, hm, hKm⟩

end SpecForge
