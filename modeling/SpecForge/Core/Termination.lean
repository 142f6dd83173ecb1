import SpecForge.Core.RefSiblings
import SpecForge.Core.ResolvedObjects

/-!
# When validation ends

A reference whose shape is again a reference, or a composition with one among
its members, is followed with the same value. So the validator runs forever
exactly on component schemas that lead back to themselves in this way
(`validation_returns_iff`); a cycle through a property, an item or a map
value is harmless, since a value is finite.

- §1 the names a type leads to, §2 acyclic aliases, §3 cyclic ones.
- §4 the same for the schemas of a document.
-/

namespace SpecForge

open Lib
open OpenApi (ReferenceOr Schema SchemaData SchemaKind Components OpenAPI)

/-! ## §1  Aliases -/

mutual

/-- The names a walk along the type visits before it looks into the value. -/
def IrType.heads : IrType → List String
  | .reference name _ _ => [name]
  | .composition _ members _ => headsOfMembers members
  | _ => []

def headsOfMembers : List IrType → List String
  | [] => []
  | m :: ms => m.heads ++ headsOfMembers ms

end

theorem mem_headsOfMembers {name : String} : ∀ {ms : List IrType},
    name ∈ headsOfMembers ms ↔ ∃ m ∈ ms, name ∈ m.heads
  | [] => by simp [headsOfMembers]
  | m :: ms => by
      rw [headsOfMembers, List.mem_append, mem_headsOfMembers, List.exists_mem_cons_iff]

/-- The shape of the model `a` leads to the model `b`. -/
def SchemaRegistry.AliasOf (reg : SchemaRegistry) (a b : String) : Prop :=
  ∃ o s, reg.get a = some (.object o) ∧ o.shapeType = some s ∧ b ∈ s.heads

/-! ## §2  Acyclic aliases -/

section Ends

variable {reg : SchemaRegistry} {v : Value}

/-- A type is as well-behaved as the names it leads to, if everything is on the
parts of the value. -/
theorem settles_of_heads (hpart : ∀ w, Value.Part v w → ∀ t, Settles reg w t) (t : IrType)
    (h : ∀ name ∈ t.heads, ∀ nullable description,
      Settles reg v (.reference name nullable description)) : Settles reg v t := by
  induction t using IrType.induction with
  | array item nullable _ =>
      refine settles_of_calls fun w s hcall => ?_
      cases hcall with
      | item hx => exact hpart w (.item hx) item
  | map value _ =>
      refine settles_of_calls fun w s hcall => ?_
      cases hcall with
      | entry he => exact hpart _ (.member he) value
  | reference name nullable description =>
      exact h name (List.mem_singleton.mpr rfl) nullable description
  | composition kind members discriminator ih =>
      refine settles_of_calls fun w s hcall => ?_
      cases hcall with
      | member hm =>
          exact ih s hm fun name hname => h name (mem_headsOfMembers.mpr ⟨s, hm, hname⟩)
  | _ =>
      refine settles_of_calls fun w s hcall => ?_
      cases hcall

theorem settles_of_noAliasCycle (hac : Acyclic reg.AliasOf) : ∀ v t, Settles reg v t := by
  intro v
  induction v using Value.part_induction with
  | hstep v hpart =>
      have hsrc : ∀ a b, reg.AliasOf a b → a ∈ reg.names := by
        rintro a b ⟨o, s, ho, -⟩
        exact IndexMap.mem_keys_of_get ho
      have hname : ∀ name nullable description,
          Settles reg v (.reference name nullable description) := by
        intro name
        induction name using Acyclic.induction hac reg.names hsrc with
        | hstep name ih =>
            intro nullable description
            refine settles_of_calls fun w s hcall => ?_
            cases hcall with
            | shape _ hget hshape =>
                exact settles_of_heads hpart s fun b hb => ih b ⟨_, s, hget, hshape, hb⟩
            | property _ _ _ hx => exact hpart w (.member (mem_of_lookup_eq_some hx)) _
      exact fun t => settles_of_heads hpart t fun name _ => hname name

/-! ## §3  Cyclic aliases -/

theorem calls_heads {name : String} : ∀ {t : IrType}, name ∈ t.heads →
    ∃ nullable description, Relation.ReflTransGen (Calls reg) (v, t)
      (v, .reference name nullable description) := by
  intro t
  induction t using IrType.induction with
  | reference b nullable description =>
      intro hb
      obtain rfl := List.mem_singleton.mp hb
      exact ⟨nullable, description, .refl⟩
  | composition kind members discriminator ih =>
      intro hb
      obtain ⟨m, hm, hb⟩ := mem_headsOfMembers.mp hb
      obtain ⟨nullable, description, hrun⟩ := ih m hm hb
      exact ⟨nullable, description, hrun.head (.member hm)⟩
  | _ =>
      intro hb
      exact absurd hb List.not_mem_nil

/-- On a value other than `null` the chain of aliases is a chain of calls. -/
theorem calls_of_aliasOf (hv : v ≠ .null) {a b : String} (h : reg.AliasOf a b) (nullable : Bool)
    (description : Option String) :
    ∃ nullable' description', Relation.TransGen (Calls reg)
      (v, .reference a nullable description) (v, .reference b nullable' description') := by
  obtain ⟨o, s, ho, hs, hb⟩ := h
  obtain ⟨nullable', description', hrun⟩ := @calls_heads reg v b s hb
  exact ⟨nullable', description', .head' (.shape (fun hnull => hv hnull.2) ho hs) hrun⟩

theorem acc_aliasOf (hv : v ≠ .null) {a : String} {nullable : Bool}
    {description : Option String}
    (h : Settles reg v (.reference a nullable description)) :
    Acc (fun b a => reg.AliasOf a b) a := by
  refine acc_of_simulates (R := fun a x => ∃ nullable description,
    x = (v, .reference a nullable description)) ?_ ⟨nullable, description, rfl⟩
    (settles_iff_acc.mp h)
  rintro a b x hab ⟨nullable, description, rfl⟩
  obtain ⟨nullable', description', hcalls⟩ := calls_of_aliasOf hv hab nullable description
  exact ⟨_, ⟨nullable', description', rfl⟩, hcalls⟩

/-- **Validation never ends on a model that leads back to itself**, whatever
the value. -/
theorem not_settles_of_aliasCycle (hv : v ≠ .null) {a : String} (ha : Relation.TransGen reg.AliasOf a a)
    (nullable : Bool) (description : Option String) :
    ¬Settles reg v (.reference a nullable description) :=
  fun h => not_transGen_of_acc (acc_aliasOf hv h) ha

end Ends

/-! ## §4  Documents -/

mutual

/-- The names a schema leads to by `$ref` and by the members of `allOf`, `oneOf`
and `anyOf`. -/
def aliasRefs : ReferenceOr Schema → List String
  | .reference reference => [refName reference]
  | .item ⟨_, kind⟩ => aliasRefsOfKind kind

def aliasRefsOfKind : SchemaKind → List String
  | .oneOf members => aliasRefsOfMembers members
  | .allOf members => aliasRefsOfMembers members
  | .anyOf members => aliasRefsOfMembers members
  | _ => []

def aliasRefsOfMembers : List (ReferenceOr Schema) → List String
  | [] => []
  | m :: ms => aliasRefs m ++ aliasRefsOfMembers ms

end

theorem heads_collapse {members : List (ReferenceOr Schema)} {t : IrType}
    (h : allofRefSiblingDescription members = some t) : t.heads = aliasRefsOfMembers members := by
  obtain ⟨reference, ⟨data, kind⟩, hmembers, ⟨hkind, -⟩, rfl⟩ :=
    allofRefSiblingDescription_eq_some_iff.mp h
  dsimp only at hkind
  subst hkind
  rcases hmembers with rfl | rfl
  · rfl
  · rfl

theorem heads_typeToIr (t : OpenApi.OApiType) (nullable : Bool) :
    (typeToIr t nullable).heads = [] := by
  cases t with
  | string s =>
      obtain ⟨format, enumeration⟩ := s
      rw [typeToIr]
      split
      · rfl
      · rfl
  | object o =>
      rw [typeToIr_object]
      unfold objectShape
      split <;> rfl
  | array items => cases items <;> rfl
  | _ => rfl

mutual

theorem heads_refOrSchemaToType :
    ∀ m : ReferenceOr Schema, (refOrSchemaToType m).heads = aliasRefs m
  | .reference reference => by rw [refOrSchemaToType, aliasRefs, referenceTo, IrType.heads]
  | .item ⟨data, kind⟩ => by
      rw [refOrSchemaToType, aliasRefs]
      exact heads_schemaKindToType kind data.nullable data.discriminator

theorem heads_schemaKindToType : ∀ (kind : SchemaKind) (nullable : Bool)
    (discriminator : Option OpenApi.Discriminator),
    (schemaKindToType kind nullable discriminator).heads = aliasRefsOfKind kind
  | .oneOf members, _, _ => by
      rw [schemaKindToType, aliasRefsOfKind, composition, IrType.heads]
      exact heads_refOrSchemasToTypes members
  | .anyOf members, _, _ => by
      rw [schemaKindToType, aliasRefsOfKind, composition, IrType.heads]
      exact heads_refOrSchemasToTypes members
  | .allOf members, _, _ => by
      rw [schemaKindToType, aliasRefsOfKind]
      split
      · next t ht => exact heads_collapse ht
      · rw [composition, IrType.heads]
        exact heads_refOrSchemasToTypes members
  | .any, _, _ => by rw [schemaKindToType, aliasRefsOfKind, IrType.heads] <;> simp
  | .not, _, _ => by rw [schemaKindToType, aliasRefsOfKind, IrType.heads] <;> simp
  | .type t, nullable, _ => by
      rw [schemaKindToType, aliasRefsOfKind]
      · exact heads_typeToIr t nullable
      all_goals simp

theorem heads_refOrSchemasToTypes : ∀ members : List (ReferenceOr Schema),
    headsOfMembers (refOrSchemasToTypes members) = aliasRefsOfMembers members
  | [] => by rw [refOrSchemasToTypes, aliasRefsOfMembers, headsOfMembers]
  | m :: ms => by
      rw [refOrSchemasToTypes, aliasRefsOfMembers, headsOfMembers, heads_refOrSchemaToType m,
        heads_refOrSchemasToTypes ms]

end

/-- The component schema `a` leads to the component schema `b`. -/
def AliasOf (spec : OpenAPI) (a b : String) : Prop :=
  ∃ c s, spec.components = some c ∧ c.schemas.get a = some (.item s) ∧ b ∈ aliasRefs (.item s)

theorem modelOf_shape {c : Components} {known : String → Option Model} {n : String} {s : Schema}
    (h : enumVariants s.schemaKind = []) :
    ∃ o, modelOf c known n s = .object o ∧
      o.shapeType = some (schemaKindToType s.schemaKind s.schemaData.nullable
        s.schemaData.discriminator) := by
  unfold modelOf
  rw [h]
  exact ⟨_, rfl, rfl⟩

theorem modelOf_object {c : Components} {known : String → Option Model} {n : String} {s : Schema}
    {o : ObjectModel} (h : modelOf c known n s = .object o) :
    o.shapeType = some (schemaKindToType s.schemaKind s.schemaData.nullable
      s.schemaData.discriminator) := by
  unfold modelOf at h
  split at h
  · cases h
  · cases h
    rfl

/-- Models lead to one another as their schemas do. -/
theorem aliasOf_resolved {spec : OpenAPI} {d : Document} (h : resolve spec = .ok d)
    {a b : String} : d.schemas.AliasOf a b ↔ AliasOf spec a b := by
  constructor
  · rintro ⟨o, t, ho, ht, hb⟩
    obtain ⟨c, ⟨data, kind⟩, known, hc, hs, hmodel⟩ := resolve_models h ho
    rw [modelOf_object hmodel.symm] at ht
    cases ht
    rw [heads_schemaKindToType] at hb
    refine ⟨c, ⟨data, kind⟩, hc, hs, ?_⟩
    rw [aliasRefs]
    exact hb
  · rintro ⟨c, ⟨data, kind⟩, hc, hs, hb⟩
    rw [aliasRefs] at hb
    obtain ⟨known, hm⟩ := resolve_schema h hc hs
    have henum : enumVariants kind = [] := by
      -- an enum leads nowhere
      cases kind with
      | type t => exact absurd hb (by simp [aliasRefsOfKind])
      | _ => rfl
    obtain ⟨o, hmodel, hshape⟩ := @modelOf_shape c known a ⟨data, kind⟩ henum
    refine ⟨o, _, hm.trans (congrArg some hmodel), hshape, ?_⟩
    rw [heads_schemaKindToType]
    exact hb

/-- What is behind an alias is among the types of the document. -/
theorem hasType_of_aliasOf {d : Document} {a b : String} (h : d.schemas.AliasOf a b) :
    ∃ nullable description, d.HasType (.reference b nullable description) := by
  obtain ⟨o, t, ho, ht, hb⟩ := h
  have hroot : d.HasType t :=
    d.hasType_of_model ho (List.mem_append_left _ (List.mem_append_right _ (by simp [ht])))
  have hpart : ∀ t : IrType, b ∈ t.heads → ∃ nullable description,
      Relation.ReflTransGen IrType.Part t (.reference b nullable description) := by
    intro t
    induction t using IrType.induction with
    | reference name nullable description =>
        intro hb
        obtain rfl := List.mem_singleton.mp hb
        exact ⟨nullable, description, .refl⟩
    | composition kind members discriminator ih =>
        intro hb
        obtain ⟨m, hm, hb⟩ := mem_headsOfMembers.mp hb
        obtain ⟨nullable, description, hrun⟩ := ih m hm hb
        exact ⟨nullable, description, hrun.head (.member hm)⟩
    | _ =>
        intro hb
        exact absurd hb List.not_mem_nil
  obtain ⟨nullable, description, hrun⟩ := hpart t hb
  exact ⟨nullable, description, hroot.part hrun⟩

/-- **Validation ends on every value and every type of a resolved document
exactly if no component schema leads back to itself** through `$ref`s and members
of `allOf`, `oneOf` and `anyOf`. -/
theorem validation_returns_iff {spec : OpenAPI} {d : Document} (h : resolve spec = .ok d) :
    (∀ t, d.HasType t → ∀ v, Settles d.schemas v t) ↔ Acyclic (AliasOf spec) := by
  have hsame : d.schemas.AliasOf = AliasOf spec := by
    ext a b
    exact aliasOf_resolved h
  rw [← hsame]
  constructor
  · intro hall a ha
    -- the last alias of the cycle names `a` among the types of the document
    obtain ⟨b, -, hba⟩ := Relation.TransGen.tail'_iff.mp ha
    obtain ⟨nullable, description, ht⟩ := hasType_of_aliasOf hba
    have hv : Value.bool true ≠ .null := nofun
    exact not_settles_of_aliasCycle hv ha nullable description (hall _ ht _)
  · intro hac t _ v
    exact settles_of_noAliasCycle hac v t

theorem validation_returns_pet : ∃ d, resolve petSpec = .ok d ∧
    ∀ t, d.HasType t → ∀ v, Settles d.schemas v t := by
  obtain ⟨d, hd⟩ : ∃ d, resolve petSpec = .ok d := ⟨_, rfl⟩
  refine ⟨d, hd, (validation_returns_iff hd).mpr fun a ha => ?_⟩
  obtain ⟨b, ⟨c, s, hc, hs, hb⟩, -⟩ := Relation.TransGen.head'_iff.mp ha
  cases hc
  have hmem := IndexMap.mem_of_get_ofList hs
  cases hmem with
  | head => exact absurd hb (by simp [aliasRefs, aliasRefsOfKind])
  | tail _ hmem => cases hmem

/-- A tree is a leaf or again a tree, by name. -/
def treeSpec : OpenAPI where
  info := ⟨"Trees", "1.0.0"⟩
  servers := []
  paths := IndexMap.empty
  components := some (Components.ofSchemas
    [("Tree", .item ⟨SchemaData.default, .oneOf
      [.item ⟨SchemaData.default, .type (.string ⟨.empty, []⟩)⟩,
        .reference "#/components/schemas/Tree"]⟩)])
  security := none

theorem tree_validation_never_ends : ∃ d t v, resolve treeSpec = .ok d ∧ d.HasType t ∧
    ¬Settles d.schemas v t := by
  obtain ⟨d, hd⟩ : ∃ d, resolve treeSpec = .ok d := ⟨_, rfl⟩
  have halias : d.schemas.AliasOf "Tree" "Tree" := by
    rw [aliasOf_resolved hd]
    exact ⟨_, _, rfl, rfl, by decide⟩
  obtain ⟨nullable, description, ht⟩ := hasType_of_aliasOf halias
  have hv : Value.string "leaf" ≠ .null := nofun
  exact ⟨d, _, .string "leaf", hd, ht, not_settles_of_aliasCycle hv (.single halias) _ _⟩

end SpecForge
