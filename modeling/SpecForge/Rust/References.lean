import SpecForge.Core.References
import SpecForge.Native.Calls
import SpecForge.Native.FiniteTypes

/-!
# Model references in the generated crate

A model is declared under `safe_model_name(pascal(name))`, and everything that refers to it
writes `pascal(name)`. Here every type name the crate spells out is kept together with what
it was written for.

- §1 the payload of a webhook; §2 what each name was written for.
- §3 the names that are declared; §4 when every reference names its schema's type.
-/

namespace SpecForge.Rust

open Lib Native

/-! ## §1  Webhooks -/

/-- What a webhook's payload flattens. -/
def payloadType (wh : Webhook) : Option RustType := wh.requestBody.map fun rb => renderType rb.ty

/-! ## §2  Origins -/

def RustDecl.idents : RustDecl → List String
  | .enum _ _ => []
  | .union _ arms => arms
  | .struct _ flattened fields => flattened.toList ++ fields.flatMap (·.type.idents)
  | .typeAlias _ type => type.idents

/-- A name with the schema it was written for, if any. -/
abbrev Origin := Option String × String

mutual

/-- The names in a rendered type. -/
def origins : IrType → List Origin
  | .scalar s => [(none, scalarName s)]
  | .stringEnum _ _ => [(none, "String")]
  | .array item _ => origins item
  | .map value => origins value
  | .reference name _ _ => [(some name, pascal name)]
  | .composition .allOf members _ => originsOfFirst members
  | .composition .oneOf _ _ => [(none, "serde_json::Value")]
  | .composition .anyOf _ _ => [(none, "serde_json::Value")]
  | .any => [(none, "serde_json::Value")]
  | .unknown => [(none, "serde_json::Value")]

def originsOfFirst : List IrType → List Origin
  | [] => [(none, "serde_json::Value")]
  | m :: _ => origins m

end

/-- The type of a schema by its name. -/
def referenceOrigin (name : String) : Origin := (some name, pascal name)

def modelOrigins (registry : SchemaRegistry) : Model → List Origin
  | .enum _ => []
  | .object o =>
      if !(unionArms o).isEmpty then (unionArms o).map referenceOrigin
      else if !o.properties.isEmpty then
        (baseName o).toList.map referenceOrigin ++
          (ownProperties registry o).flatMap fun p => origins p.ty
      else (o.shapeType.toList).flatMap origins

def methodTypes (op : Operation) : List IrType :=
  (argParams op).map (·.ty) ++ ((op.requestBody.map (·.ty)).toList ++ (successBody op).toList)

/-- All type names of the crate. -/
def documentOrigins (doc : Document) : List Origin :=
  doc.schemas.models.values.flatMap (modelOrigins doc.schemas) ++
    doc.operations.flatMap (fun op => (methodTypes op).flatMap origins) ++
    doc.webhooks.flatMap fun wh => (wh.requestBody.map (·.ty)).toList.flatMap origins

theorem idents_renderType (t : IrType) : (renderType t).idents = (origins t).map Prod.snd := by
  induction t using IrType.induction with
  | scalar s => rfl
  | stringEnum variants nullable => rfl
  | array item nullable ih => exact ih
  | map value ih => exact ih
  | reference name nullable description => cases nullable <;> rfl
  | composition kind members discriminator ih =>
      cases kind with
      | oneOf => rfl
      | anyOf => rfl
      | allOf =>
          cases members with
          | nil => rfl
          | cons m members => exact ih m List.mem_cons_self
  | any => rfl
  | unknown => rfl

@[simp] theorem idents_optional (t : RustType) : (optional t).idents = t.idents := by
  cases t <;> rfl

theorem idents_structFields (o : ObjectModel) (registry : SchemaRegistry) :
    (structFields o registry).flatMap (·.type.idents) =
      ((ownProperties registry o).flatMap fun p => origins p.ty).map Prod.snd := by
  rw [structFields, List.flatMap_map, List.map_flatMap]
  congr 1
  ext1 p
  rw [← idents_renderType]
  dsimp only
  split
  · rfl
  · rw [idents_optional]

theorem idents_emitModel (registry : SchemaRegistry) (m : Model) :
    (emitModel registry m).idents = (modelOrigins registry m).map Prod.snd := by
  cases m with
  | enum e => rfl
  | object o =>
      show (emitObject o registry).idents = _
      unfold emitObject modelOrigins
      dsimp only
      split
      · rw [List.map_map]
        rfl
      · split
        · rw [RustDecl.idents, idents_structFields, List.map_append, List.map_map]
          congr 1
          cases baseName o <;> rfl
        · cases o.shapeType with
          | none => rfl
          | some shape =>
              show (renderType shape).idents = _
              rw [idents_renderType, Option.toList_some, List.flatMap_singleton]

theorem idents_argType (p : Parameter) :
    (argType p).idents = (origins p.ty).map Prod.snd := by
  unfold argType
  split
  · exact idents_renderType p.ty
  · exact idents_renderType p.ty

theorem flatMap_idents_renderType (ts : List IrType) :
    (ts.map renderType).flatMap RustType.idents = (ts.flatMap origins).map Prod.snd := by
  rw [List.flatMap_map, List.map_flatMap]
  congr 1
  ext1 t
  exact idents_renderType t

theorem idents_emitMethod (op : Operation) :
    (emitMethod op).idents = ((methodTypes op).flatMap origins).map Prod.snd := by
  have hargs : ((argParams op).map argType).flatMap RustType.idents =
      (((argParams op).map (·.ty)).flatMap origins).map Prod.snd := by
    rw [List.flatMap_map, List.flatMap_map, List.map_flatMap]
    congr 1
    ext1 p
    exact idents_argType p
  have hbodies : (emitMethod op).body.toList ++ (emitMethod op).ret.toList =
      ((op.requestBody.map (·.ty)).toList ++ (successBody op).toList).map renderType := by
    rw [List.map_append]
    show (op.requestBody.map _).toList ++ ((successBody op).map renderType).toList = _
    congr 1
    · cases op.requestBody <;> rfl
    · cases successBody op <;> rfl
  have hsplit : ((methodTypes op).flatMap origins).map Prod.snd =
      (((argParams op).map (·.ty)).flatMap origins).map Prod.snd ++
        (((op.requestBody.map (·.ty)).toList ++ (successBody op).toList).flatMap origins).map
          Prod.snd := by
    rw [methodTypes, List.flatMap_append, List.map_append]
  rw [hsplit, RustMethod.idents, hbodies, flatMap_idents_renderType]
  exact congrArg (· ++ _) hargs

theorem idents_payloadType (wh : Webhook) : (payloadType wh).toList.flatMap RustType.idents =
    ((wh.requestBody.map (·.ty)).toList.flatMap origins).map Prod.snd := by
  have h : (payloadType wh).toList = ((wh.requestBody.map (·.ty)).toList).map renderType := by
    unfold payloadType
    cases wh.requestBody <;> rfl
  rw [h, flatMap_idents_renderType]

/-- The origins account for every type name that is emitted, in order. -/
theorem documentOrigins_eq (doc : Document) : (documentOrigins doc).map Prod.snd =
    (emitModels doc).flatMap RustDecl.idents ++
      (doc.operations.map emitMethod).flatMap RustMethod.idents ++
      doc.webhooks.flatMap fun wh => (payloadType wh).toList.flatMap RustType.idents := by
  simp only [documentOrigins, emitModels, List.map_append, List.map_flatMap, List.flatMap_map,
    idents_emitModel, idents_emitMethod, idents_payloadType]

/-! ## §3  Declared names -/

/-- The names of the prelude that generated code uses without a path. -/
def preludeTypes : List String := ["String", "Vec", "Option", "Result"]

/-- The model is declared under the name that references to the schema write. -/
def KeepsName (r : String) (m : Model) : Prop :=
  pascal m.name = pascal r ∧ isRustSdkBuiltinType (pascal r) = false ∨
  isRustSdkBuiltinType (pascal m.name) = true ∧ pascal r = pascal m.name ++ "Model"

theorem keepsName_iff {r : String} {m : Model} :
    KeepsName r m ↔ pascal r = safeModelName (pascal m.name) := by
  unfold KeepsName safeModelName
  by_cases h : isRustSdkBuiltinType (pascal m.name) = true
  · rw [if_pos h]
    constructor
    · rintro (⟨heq, hnot⟩ | ⟨-, heq⟩)
      · rw [← heq, h] at hnot
        cases hnot
      · exact heq
    · exact fun heq => Or.inr ⟨h, heq⟩
  · rw [if_neg h]
    constructor
    · rintro (⟨heq, -⟩ | ⟨hbuiltin, -⟩)
      · exact heq.symm
      · exact absurd hbuiltin h
    · intro heq
      rw [Bool.not_eq_true] at h
      exact Or.inl ⟨heq.symm, by rw [heq, h]⟩

theorem append_model_notMem_preludeTypes (name : String) : name ++ "Model" ∉ preludeTypes := by
  have hsuffix : ∀ s ∈ preludeTypes, ¬ "Model".toList <:+ s.toList := by decide
  intro hmem
  apply hsuffix _ hmem
  rw [String.toList_append]
  exact List.suffix_append _ _

/-- The suffix never leads to a prelude name, and none of these is built in. -/
theorem safeModelName_mem_preludeTypes_iff {name : String} :
    safeModelName name ∈ preludeTypes ↔ name ∈ preludeTypes := by
  unfold safeModelName
  split
  · next hbuiltin =>
      refine iff_of_false (append_model_notMem_preludeTypes name) fun hmem => ?_
      have hdisjoint : ∀ s ∈ preludeTypes, isRustSdkBuiltinType s = false := by decide
      rw [hdisjoint name hmem] at hbuiltin
      cases hbuiltin
  · exact Iff.rfl

/-! ## §4  Resolved references -/

structure ReferencesResolve (doc : Document) : Prop where
  /-- What is written for a schema is the name that its model is declared under. -/
  resolved : ∀ r ident, (some r, ident) ∈ documentOrigins doc →
    ∃ decl, declOf doc r = some decl ∧ ident = decl.name
  unshadowed : ∀ decl ∈ emitModels doc, decl.name ∉ preludeTypes

/-- Some type name is written for the schema. -/
def Referenced (doc : Document) (r : String) : Prop :=
  ∃ ident, (some r, ident) ∈ documentOrigins doc

theorem notMem_fixed (r ident fixed : String) : ((some r, ident) : Origin) ∉ [(none, fixed)] := by
  intro h
  cases List.mem_singleton.mp h

theorem ident_of_mem_origins {t : IrType} {r ident : String} (h : (some r, ident) ∈ origins t) :
    ident = pascal r := by
  induction t using IrType.induction with
  | scalar s => exact absurd h (notMem_fixed _ _ _)
  | stringEnum variants nullable => exact absurd h (notMem_fixed _ _ _)
  | array item nullable ih => exact ih h
  | map value ih => exact ih h
  | reference name nullable description =>
      obtain ⟨hname, rfl⟩ := Prod.mk.inj (List.mem_singleton.mp h)
      rw [Option.some.inj hname]
  | composition kind members discriminator ih =>
      cases kind with
      | oneOf => exact absurd h (notMem_fixed _ _ _)
      | anyOf => exact absurd h (notMem_fixed _ _ _)
      | allOf =>
          cases members with
          | nil => exact absurd h (notMem_fixed _ _ _)
          | cons m members => exact ih m List.mem_cons_self h
  | any => exact absurd h (notMem_fixed _ _ _)
  | unknown => exact absurd h (notMem_fixed _ _ _)

theorem ident_of_mem_flatMap_origins {ts : List IrType} {r ident : String}
    (h : (some r, ident) ∈ ts.flatMap origins) : ident = pascal r := by
  obtain ⟨t, -, ht⟩ := List.mem_flatMap.mp h
  exact ident_of_mem_origins ht

theorem ident_of_mem_map_referenceOrigin {names : List String} {r ident : String}
    (h : (some r, ident) ∈ names.map referenceOrigin) : ident = pascal r := by
  obtain ⟨name, -, heq⟩ := List.mem_map.mp h
  obtain ⟨hname, rfl⟩ := Prod.mk.inj heq
  rw [Option.some.inj hname]

theorem ident_of_mem_modelOrigins {registry : SchemaRegistry} {m : Model} {r ident : String}
    (h : (some r, ident) ∈ modelOrigins registry m) : ident = pascal r := by
  cases m with
  | enum e => cases h
  | object o =>
      unfold modelOrigins at h
      dsimp only at h
      split at h
      · exact ident_of_mem_map_referenceOrigin h
      · split at h
        · rcases List.mem_append.mp h with h | h
          · exact ident_of_mem_map_referenceOrigin h
          · obtain ⟨p, -, hp⟩ := List.mem_flatMap.mp h
            exact ident_of_mem_origins hp
        · exact ident_of_mem_flatMap_origins h

/-- Whatever is written for a schema, it is the PascalCase form of its name. -/
theorem ident_of_mem_documentOrigins {doc : Document} {r ident : String}
    (h : (some r, ident) ∈ documentOrigins doc) : ident = pascal r := by
  rw [documentOrigins, List.mem_append, List.mem_append] at h
  rcases h with (h | h) | h
  · obtain ⟨m, -, hm⟩ := List.mem_flatMap.mp h
    exact ident_of_mem_modelOrigins hm
  · obtain ⟨op, -, hop⟩ := List.mem_flatMap.mp h
    exact ident_of_mem_flatMap_origins hop
  · obtain ⟨wh, -, hwh⟩ := List.mem_flatMap.mp h
    exact ident_of_mem_flatMap_origins hwh

theorem exists_declOf_iff {doc : Document} {r : String} :
    (∃ decl, declOf doc r = some decl ∧ pascal r = decl.name) ↔
      ∃ m, doc.schemas.get r = some m ∧ KeepsName r m := by
  simp only [declOf, Option.map_eq_some_iff, keepsName_iff]
  constructor
  · rintro ⟨decl, ⟨m, hm, rfl⟩, hname⟩
    exact ⟨m, hm, by rw [hname, name_emitModel]⟩
  · rintro ⟨m, hm, hname⟩
    exact ⟨_, ⟨m, hm, rfl⟩, by rw [hname, name_emitModel]⟩

/-- **When every reference names its schema's type.** -/
theorem crateReferences_iff (doc : Document) : ReferencesResolve doc ↔
    (∀ r, Referenced doc r → ∃ m, doc.schemas.get r = some m ∧ KeepsName r m) ∧
      ∀ r m, doc.schemas.get r = some m → pascal m.name ∉ preludeTypes := by
  have hshadow : (∀ decl ∈ emitModels doc, decl.name ∉ preludeTypes) ↔
      ∀ r m, doc.schemas.get r = some m → pascal m.name ∉ preludeTypes := by
    simp only [mem_emitModels, declOf, Option.map_eq_some_iff]
    constructor
    · intro h r m hm hmem
      apply h _ ⟨r, m, hm, rfl⟩
      rw [name_emitModel]
      exact safeModelName_mem_preludeTypes_iff.mpr hmem
    · rintro h _ ⟨r, m, hm, rfl⟩ hmem
      rw [name_emitModel] at hmem
      exact h r m hm (safeModelName_mem_preludeTypes_iff.mp hmem)
  constructor
  · rintro ⟨hresolved, hunshadowed⟩
    refine ⟨?_, hshadow.mp hunshadowed⟩
    rintro r ⟨ident, hident⟩
    have hr := hresolved r ident hident
    rw [ident_of_mem_documentOrigins hident] at hr
    exact exists_declOf_iff.mp hr
  · rintro ⟨hkeeps, hnames⟩
    refine ⟨fun r ident hident => ?_, hshadow.mpr hnames⟩
    rw [ident_of_mem_documentOrigins hident]
    exact exists_declOf_iff.mpr (hkeeps r ⟨ident, hident⟩)

/-- A schema called `Error` and one with a property of that type. -/
def builtinNamed : Document :=
  Document.minimal ⟨IndexMap.ofList
    [("Error", .object ⟨"Error", none, [], none, none, none⟩),
      ("Report", .object ⟨"Report", none,
        [⟨"cause", .reference "Error" false none, true, none⟩], none, none, none⟩)]⟩ []

theorem documentOrigins_builtinNamed :
    documentOrigins builtinNamed = [(some "Error", "Error")] := by
  decide +kernel

/-- `Error` is declared as `ErrorModel`, and the field of `Report` has the type `Error`. -/
theorem error_schema_unresolved :
    ¬ ∀ doc : Document, (∀ r, Referenced doc r → ∃ m, doc.schemas.get r = some m) →
      (doc.schemas.names.map pascal).Nodup → ReferencesResolve doc := by
  intro h
  have hget : builtinNamed.schemas.get "Error" =
      some (.object ⟨"Error", none, [], none, none, none⟩) := rfl
  have hdefined : ∀ r, Referenced builtinNamed r → ∃ m, builtinNamed.schemas.get r = some m := by
    rintro r ⟨ident, hident⟩
    rw [documentOrigins_builtinNamed, List.mem_singleton] at hident
    obtain ⟨hname, -⟩ := Prod.mk.inj hident
    rw [Option.some.inj hname]
    exact ⟨_, hget⟩
  obtain ⟨hresolved, -⟩ := h builtinNamed hdefined (by decide)
  obtain ⟨decl, hdecl, hname⟩ := hresolved "Error" "Error" (by
    rw [documentOrigins_builtinNamed]
    exact List.mem_singleton.mpr rfl)
  have hdeclared : (declOf builtinNamed "Error").map RustDecl.name = some "ErrorModel" := by
    decide +kernel
  rw [hdecl, Option.map_some, ← hname] at hdeclared
  exact absurd (Option.some.inj hdeclared) (by decide)

end SpecForge.Rust
