import SpecForge.Core.Registry
import SpecForge.Core.Validate

/-!
# Validating against resolved object schemas

`resolve` gives the model of an object schema a property list and also a shape,
and `validate` follows the shape whenever there is one. So for a resolved
document the property list is never looked at: `validates_resolved_object` says
what is checked instead.
-/

namespace SpecForge

open Lib (IndexMap)
open OpenApi (ReferenceOr Schema SchemaData SchemaKind OApiType ObjectType Components
  AdditionalProperties OpenAPI)

/-- The shape a resolved object schema gets. -/
def objectShape : Option AdditionalProperties → IrType
  | some (.any true) => .map .any
  | some (.schema s) => .map (refOrSchemaToType s)
  | _ => .any

theorem typeToIr_object (o : ObjectType) (nullable : Bool) :
    typeToIr (.object o) nullable = objectShape o.additionalProperties := by
  obtain ⟨properties, required, additional⟩ := o
  cases additional with
  | none => simp [typeToIr, objectShape]
  | some ap =>
      cases ap with
      | any b => cases b <;> simp [typeToIr, objectShape]
      | schema s => simp [typeToIr, objectShape]

theorem resolveWithWebhooks_ok {spec : OpenAPI} {webhooks : Option Value} {d : Document}
    (h : resolveWithWebhooks spec webhooks = .ok d) :
    resolveSchemas spec.components = .ok d.schemas ∧ d.irVersion = IR_VERSION ∧
      d.operations = resolveOperations spec.paths spec.components := by
  unfold resolveWithWebhooks at h
  cases hs : resolveSchemas spec.components with
  | error e =>
      rw [hs] at h
      cases h
  | ok reg =>
      rw [hs] at h
      cases h
      exact ⟨rfl, rfl, rfl⟩

theorem resolve_ok {spec : OpenAPI} {d : Document} (h : resolve spec = .ok d) :
    resolveSchemas spec.components = .ok d.schemas ∧ d.irVersion = IR_VERSION :=
  have hresolved := resolveWithWebhooks_ok h
  ⟨hresolved.1, hresolved.2.1⟩

/-- What models are made to be, the models of a resolved document are. -/
theorem resolve_related {spec : OpenAPI} {d : Document} (h : resolve spec = .ok d)
    {K : Components → String → Schema → Model → Prop} (hK : ∀ c, Establishes c (K c)) {n : String}
    {m : Model} (hm : d.schemas.get n = some m) :
    ∃ c s, spec.components = some c ∧ c.schemas.get n = some (.item s) ∧ K c n s m := by
  have hreg := (resolve_ok h).1
  cases hc : spec.components with
  | none =>
      rw [hc] at hreg
      have hempty : SchemaRegistry.default = d.schemas := Except.ok.inj hreg
      rw [← hempty] at hm
      cases hm
  | some c =>
      rw [hc] at hreg
      obtain ⟨s, hs, hmodel⟩ := resolveSchemas_related (hK c) hreg n m hm
      exact ⟨c, s, rfl, hs, hmodel⟩

/-- The models of a resolved document are those of its component schemas. -/
theorem resolve_models {spec : OpenAPI} {d : Document} (h : resolve spec = .ok d) {n : String}
    {m : Model} (hm : d.schemas.get n = some m) :
    ∃ c s known, spec.components = some c ∧ c.schemas.get n = some (.item s) ∧
      m = modelOf c known n s := by
  have hK : ∀ c, Establishes c fun n s m => ∃ known, m = modelOf c known n s :=
    fun _ known _ _ _ _ _ => ⟨known, rfl⟩
  obtain ⟨c, s, hc, hs, known, hmodel⟩ := resolve_related h hK hm
  exact ⟨c, s, known, hc, hs, hmodel⟩

theorem resolve_schema {spec : OpenAPI} {d : Document} (h : resolve spec = .ok d)
    {c : Components} {n : String} {s : Schema} (hc : spec.components = some c)
    (hs : c.schemas.get n = some (.item s)) :
    ∃ known, d.schemas.get n = some (modelOf c known n s) := by
  have hreg := (resolve_ok h).1
  rw [hc] at hreg
  have hK : Establishes c fun n s m => ∃ known, m = modelOf c known n s :=
    fun known _ _ _ _ _ => ⟨known, rfl⟩
  obtain ⟨m, hm, known, rfl⟩ := resolveSchemas_models hK hreg hs
  exact ⟨known, hm⟩

/-- The model of an object schema, in whatever order the schemas come. -/
theorem resolved_object {spec : OpenAPI} {d : Document} {c : Components} {N : String}
    {data : SchemaData} {o : ObjectType} (h : resolve spec = .ok d)
    (hc : spec.components = some c)
    (hN : c.schemas.get N = some (.item ⟨data, .type (.object o)⟩)) :
    ∃ model, d.schemas.get N = some (.object model) ∧
      model.properties = objectProperties o ∧
      model.shapeType = some (objectShape o.additionalProperties) := by
  obtain ⟨known, hm⟩ := resolve_schema h hc hN
  refine ⟨_, hm, rfl, ?_⟩
  exact congrArg some ((schemaKindToType.eq_1 ..).trans (typeToIr_object o data.nullable))

/-- **What is checked of a value at a resolved object schema**: nothing, unless
`additionalProperties` is a schema; then every entry of an object, declared or
not, is checked against that schema. -/
theorem validates_resolved_object {spec : OpenAPI} {d : Document} {c : Components}
    {N : String} {data : SchemaData} {o : ObjectType} (h : resolve spec = .ok d)
    (hc : spec.components = some c)
    (hN : c.schemas.get N = some (.item ⟨data, .type (.object o)⟩))
    (description : Option String) (v : Value) :
    Validates d.schemas v (.reference N false description) ↔
      ∀ s, o.additionalProperties = some (.schema s) → ∀ obj, v = .object obj →
        ∀ e ∈ obj, Validates d.schemas e.2 (refOrSchemaToType s) := by
  obtain ⟨model, hget, -, hshape⟩ := resolved_object h hc hN
  rw [validates_reference_shape hget hshape]
  simp only [Bool.false_eq_true, false_and, false_or]
  cases hap : o.additionalProperties with
  | none => exact iff_of_true validates_any fun _ hs => by cases hs
  | some ap =>
      cases ap with
      | any b =>
          refine iff_of_true ?_ fun _ hs => by cases hs
          cases b with
          | false => exact validates_any
          | true => exact validates_map.mpr fun _ _ _ _ => validates_any
      | schema s =>
          show Validates d.schemas v (.map (refOrSchemaToType s)) ↔ _
          rw [validates_map]
          constructor
          · intro hall s' hs'
            cases hs'
            exact hall
          · intro hall
            exact hall s rfl

/-- **No resolved object schema is enforced**: for every one of them some value
passes validation without being an object with the required properties. A value
is treated right only if it has them anyway, or is rejected for an entry that
the schema under `additionalProperties` does not accept. -/
theorem resolved_object_not_enforced {spec : OpenAPI} {d : Document} {c : Components}
    {N : String} {data : SchemaData} {o : ObjectType} (h : resolve spec = .ok d)
    (hc : spec.components = some c)
    (hN : c.schemas.get N = some (.item ⟨data, .type (.object o)⟩))
    (description : Option String) :
    ∃ model, d.schemas.get N = some (.object model) ∧
      model.properties = objectProperties o ∧
      (¬∀ v, Validates d.schemas v (.reference N false description) →
        ValidatesObject d.schemas v model.properties) ∧
      ∀ v, (Validates d.schemas v (.reference N false description) →
          ValidatesObject d.schemas v model.properties) ↔
        ValidatesObject d.schemas v model.properties ∨
          ∃ s obj e, o.additionalProperties = some (.schema s) ∧ v = .object obj ∧ e ∈ obj ∧
            ¬Validates d.schemas e.2 (refOrSchemaToType s) := by
  obtain ⟨model, hget, hprops, -⟩ := resolved_object h hc hN
  refine ⟨model, hget, hprops, ?_, ?_⟩
  · intro henforced
    -- `null` passes every shape that an object schema gets
    have hnull : Validates d.schemas .null (.reference N false description) := by
      rw [validates_resolved_object h hc hN]
      rintro s - obj hobj
      cases hobj
    obtain ⟨obj, hobj, -⟩ := henforced .null hnull
    cases hobj
  · intro v
    rw [validates_resolved_object h hc hN]
    constructor
    · intro himp
      by_cases hall : ∀ s, o.additionalProperties = some (.schema s) → ∀ obj,
          v = .object obj → ∀ e ∈ obj, Validates d.schemas e.2 (refOrSchemaToType s)
      · exact Or.inl (himp hall)
      · push Not at hall
        obtain ⟨s, hs, obj, hobj, e, he, hbad⟩ := hall
        exact Or.inr ⟨s, obj, e, hs, hobj, he, hbad⟩
    · rintro (hval | ⟨s, obj, e, hs, hobj, he, hbad⟩) hall
      · exact hval
      · exact absurd (hall s hs obj hobj e he) hbad

/-- An object schema with one required string property. -/
def petSpec : OpenAPI where
  info := ⟨"Pets", "1.0.0"⟩
  servers := []
  paths := IndexMap.empty
  components := some (Components.ofSchemas
    [("Pet", .item ⟨SchemaData.default, .type (.object
      ⟨[("name", .item ⟨SchemaData.default, .type (.string ⟨.empty, []⟩)⟩)], ["name"],
        none⟩)⟩)])
  security := none

theorem resolved_object_not_enforced_pet :
    ∃ d model, resolve petSpec = .ok d ∧ d.schemas.get "Pet" = some (.object model) ∧
      (¬∀ v, Validates d.schemas v (.reference "Pet" false none) →
        ValidatesObject d.schemas v model.properties) := by
  obtain ⟨d, hd⟩ : ∃ d, resolve petSpec = .ok d := ⟨_, rfl⟩
  obtain ⟨model, hget, -, hnot, -⟩ :=
    resolved_object_not_enforced (N := "Pet") hd rfl rfl none
  exact ⟨d, model, hd, hget, hnot⟩

/-- The empty object passes as a pet, without the required name. -/
theorem empty_object_passes_as_pet :
    ∃ d model, resolve petSpec = .ok d ∧ d.schemas.get "Pet" = some (.object model) ∧
      Validates d.schemas (.object []) (.reference "Pet" false none) ∧
      ¬ValidatesObject d.schemas (.object []) model.properties := by
  refine ⟨_, _, rfl, rfl, ⟨2, rfl⟩, ?_⟩
  rintro ⟨obj, hobj, hprops⟩
  cases hobj
  have hname := (hprops _ (List.mem_singleton.mpr rfl)).1 rfl
  cases hname

end SpecForge
