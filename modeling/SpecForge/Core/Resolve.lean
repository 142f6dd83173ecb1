import SpecForge.Core.Ir
import SpecForge.Core.Json
import SpecForge.Core.OpenApi
import SpecForge.Lib.Text

/-!
# Resolving a document into the IR (`resolve.rs`)

- §1 schemas to types, §2 schemas to models and the registry.
- §3 operations, §4 webhooks, §5 documents. Only the schemas can fail; where the
  source returns a `Result` that is always `Ok` the value stands alone.

References stay references: no function here follows one to a schema body,
except `propertiesFromAllofMember`, which looks one step ahead and otherwise
takes what the registry holds by then.
-/

namespace SpecForge

open Lib (IndexMap)
open Lib.Text
open OpenApi (ReferenceOr Schema SchemaData SchemaKind OApiType ObjectType
  AdditionalProperties StringType StringFormat VariantOrUnknownOrEmpty Components MediaType
  PathItem OpenAPI)

/-- The errors of resolution that resolution raises. -/
inductive ResolveError where
  | invalidRef (message : String)
deriving DecidableEq

/-! ## §1  Types -/

/-- The trailing path segment of a `$ref`. -/
def refName (reference : String) : String :=
  (rsplit '/' reference).head?.getD reference

def referenceTo (reference : String) : IrType := .reference (refName reference) false none

def resolveDiscriminator (d : OpenApi.Discriminator) : Discriminator where
  propertyName := d.propertyName
  mapping :=
    if d.mapping.entries.isEmpty then none
    else some (IndexMap.ofList (d.mapping.entries.map fun e => (e.1, refName e.2)))

/-- `composition`, given its members as types. -/
def composition (kind : CompositionKind) (members : List IrType)
    (discriminator : Option OpenApi.Discriminator) : IrType :=
  .composition kind members (discriminator.map resolveDiscriminator)

/-- A `$ref` next to a schema that carries only metadata is that reference with
a description. -/
def allofRefSiblingDescription : List (ReferenceOr Schema) → Option IrType
  | [.reference reference, .item s] => collapse reference s
  | [.item s, .reference reference] => collapse reference s
  | _ => none
where
  collapse (reference : String) (inline : Schema) : Option IrType :=
    let data := inline.schemaData
    let isMetadataOnly := (match inline.schemaKind with
        | .any => true
        | _ => false)
      && (data.description.isSome || data.title.isSome || data.deprecated)
    if !isMetadataOnly then none
    else some (.reference (refName reference) false (data.description.or data.title))

/-- The scalar of a string type that is no enum. -/
def stringScalar : VariantOrUnknownOrEmpty StringFormat → Scalar
  | .item .date => .dateTime
  | .item .dateTime => .dateTime
  | .unknown fmt => if eqIgnoreAsciiCase fmt "uuid" then .uuid else .string
  | _ => .string

mutual

def schemaKindToType (kind : SchemaKind) (nullable : Bool)
    (discriminator : Option OpenApi.Discriminator) : IrType :=
  match kind with
  | .type t => typeToIr t nullable
  | .oneOf members => composition .oneOf (refOrSchemasToTypes members) discriminator
  | .anyOf members => composition .anyOf (refOrSchemasToTypes members) discriminator
  | .allOf members =>
      match allofRefSiblingDescription members with
      | some ty => ty
      | none => composition .allOf (refOrSchemasToTypes members) discriminator
  | .any => .any
  | .not => .any

def typeToIr (t : OApiType) (nullable : Bool) : IrType :=
  match t with
  | .string ⟨format, enumeration⟩ =>
      let variants := enumeration.filterMap id
      if !variants.isEmpty then .stringEnum variants nullable
      else .scalar (stringScalar format)
  | .integer _ => .scalar .integer
  | .number => .scalar .float
  | .boolean => .scalar .boolean
  | .array (some items) => .array (refOrSchemaToType items) nullable
  | .array none => .array .unknown nullable
  | .object ⟨_, _, some (.any true)⟩ => .map .any
  | .object ⟨_, _, some (.any false)⟩ => .any
  | .object ⟨_, _, some (.schema s)⟩ => .map (refOrSchemaToType s)
  | .object ⟨_, _, none⟩ => .any

/-- `ref_or_schema_to_type` and its two boxed siblings. -/
def refOrSchemaToType : ReferenceOr Schema → IrType
  | .item ⟨schemaData, schemaKind⟩ =>
      schemaKindToType schemaKind schemaData.nullable schemaData.discriminator
  | .reference reference => referenceTo reference

def refOrSchemasToTypes : List (ReferenceOr Schema) → List IrType
  | [] => []
  | m :: ms => refOrSchemaToType m :: refOrSchemasToTypes ms

end

def additionalToType : AdditionalProperties → Option IrType
  | .any true => some .any
  | .any false => none
  | .schema s => some (refOrSchemaToType s)

/-! ## §2  Models -/

/-- The properties an object schema declares itself. -/
def objectProperties (o : ObjectType) : List Property :=
  o.properties.map fun (propName, propSchemaOr) =>
    { name := propName
      ty := refOrSchemaToType propSchemaOr
      required := o.required.contains propName
      description := match propSchemaOr with
        | .item s => s.schemaData.description
        | .reference _ => none }

/-- The body of an inline object schema. -/
def inlineObject : ReferenceOr Schema → Option ObjectType
  | .item ⟨_, .type (.object o)⟩ => some o
  | _ => none

/-- The properties of an `allOf` member and the names it requires. -/
def propertiesFromAllofMember (member : ReferenceOr Schema) (components : Components)
    (registry : SchemaRegistry) : Except ResolveError (List Property × List String) :=
  match member with
  | .reference reference =>
      match (components.schemas.get (refName reference)).bind inlineObject with
      | some o => .ok (objectProperties o, o.required)
      | none =>
          -- no plain object: what the registry holds at this turn, if anything
          match registry.get (refName reference) with
          | some (.object obj) =>
              .ok (obj.properties, (obj.properties.filter (·.required)).map (·.name))
          | _ => .ok ([], [])
  | .item schema =>
      match inlineObject (.item schema) with
      | some o => .ok (objectProperties o, o.required)
      | none => .ok ([], [])

/-- What the loop over the members has merged so far. -/
structure AllofMerge where
  merged : IndexMap String Property
  allRequired : List String

def AllofMerge.extend (m : AllofMerge) (props : List Property) (required : List String) :
    AllofMerge where
  merged := props.foldl (fun merged prop => merged.insert prop.name prop) m.merged
  allRequired := m.allRequired ++ required

def mergeAllofProperties (allOf : List (ReferenceOr Schema)) (components : Components)
    (registry : SchemaRegistry) : Except ResolveError (List Property × Option IrType) := do
  let m ← allOf.foldlM (fun m member => do
      let (props, required) ← propertiesFromAllofMember member components registry
      return m.extend props required)
    (⟨IndexMap.empty, []⟩ : AllofMerge)
  return (m.merged.values.map fun prop =>
    { prop with required := m.allRequired.contains prop.name }, none)

/-- The base of an `allOf` with exactly one `$ref` member. -/
def allofBaseType (allOf : List (ReferenceOr Schema)) : Option IrType :=
  let refNames := allOf.filterMap fun
    | .reference reference => some (refName reference)
    | .item _ => none
  match refNames with
  | [name] => some (.reference name false none)
  | _ => none

/-- The variants of a string enum; empty for any other schema. -/
def enumVariants : SchemaKind → List EnumVariant
  | .type (.string s) => s.enumeration.filterMap fun v => v.map fun raw => ⟨raw, none⟩
  | _ => []

def buildModel (name : String) (data : SchemaData) (kind : SchemaKind)
    (components : Components) (registry : SchemaRegistry) : Except ResolveError Model := do
  let variants := enumVariants kind
  if !variants.isEmpty then
    return .enum { name := name, description := data.description, variants := variants }
  let (properties, additional) ← match kind with
    | .type (.object o) =>
        pure (objectProperties o, o.additionalProperties.bind additionalToType)
    | .allOf allOf => mergeAllofProperties allOf components registry
    | _ => pure ([], none)
  let baseType := match kind with
    | .allOf allOf => allofBaseType allOf
    | _ => none
  return .object {
    name := name
    description := data.description
    properties := properties
    additionalProperties := additional
    shapeType := some (schemaKindToType kind data.nullable data.discriminator)
    baseType := baseType }

def derefSchema : ReferenceOr Schema → Except ResolveError Schema
  | .item s => .ok s
  | .reference reference =>
      .error (.invalidRef ("top-level component schema " ++ debugStr reference
        ++ " should be inline, not a $ref"))

/-- One turn of the loop of `resolve_schemas`. -/
def resolveSchema (components : Components) (registry : SchemaRegistry)
    (entry : String × ReferenceOr Schema) : Except ResolveError SchemaRegistry := do
  let schema ← derefSchema entry.2
  let model ← buildModel entry.1 schema.schemaData schema.schemaKind components registry
  return ⟨registry.models.insert entry.1 model⟩

def resolveSchemas : Option Components → Except ResolveError SchemaRegistry
  | none => .ok SchemaRegistry.default
  | some components =>
      components.schemas.entries.foldlM (resolveSchema components) SchemaRegistry.default

/-! ## §3  Operations -/

def synthesizeOperationId (method : HttpMethod) (path : String) : String :=
  let cleaned := join "_" ((split '/' (trimMatches '/' path)).map fun seg =>
    trimEndMatches '\x7d' (trimStartMatches '\x7b' seg))
  method.asStr ++ cleaned

def iterMethods (item : PathItem) : List (HttpMethod × OpenApi.Operation) :=
  [(HttpMethod.get, item.get), (.post, item.post), (.put, item.put), (.patch, item.patch),
    (.delete, item.delete), (.head, item.head), (.options, item.options)].filterMap
    fun (method, op) => op.map fun op => (method, op)

/-- A cookie parameter becomes a header. -/
def resolveParameterItem : OpenApi.Parameter → Parameter
  | .query data => item .query data
  | .header data => item .header data
  | .path data => item .path data
  | .cookie data => item .header data
where
  item (location : ParamLocation) (data : OpenApi.ParameterData) : Parameter :=
    { name := data.name
      location := location
      ty := match data.format with
        | .schema s => refOrSchemaToType s
        | .content => .unknown
      required := data.required
      description := data.description }

/-- A `$ref` is followed once, into the component parameters. -/
def resolveParameter (p : ReferenceOr OpenApi.Parameter) (components : Option Components) :
    Option Parameter :=
  match p with
  | .item p => some (resolveParameterItem p)
  | .reference reference =>
      match components.bind fun c => c.parameters.get (refName reference) with
      | some (.item p) => some (resolveParameterItem p)
      | _ => none

/-- Path-level parameters first; of several with one name the first is kept. -/
def resolveParameters (sources : List (ReferenceOr OpenApi.Parameter))
    (components : Option Components) : List Parameter :=
  sources.foldl (fun parameters p =>
    match resolveParameter p components with
    | some ir =>
        if parameters.any fun x => x.name == ir.name then parameters else parameters ++ [ir]
    | none => parameters) []

def jsonBody (content : IndexMap String MediaType) : Option IrType :=
  ((content.get "application/json").bind (·.schema)).map refOrSchemaToType

def resolveRequestBody : Option (ReferenceOr OpenApi.RequestBody) → Option RequestBody
  | some (.item b) =>
      (jsonBody b.content).map fun ty =>
        { ty := ty, required := b.required, description := b.description }
  | _ => none

def statusCodeStr : OpenApi.StatusCode → String
  | .code n => toString n.toNat
  | .range n => toString n.toNat ++ "XX"

def resolveResponses (responses : OpenApi.Responses) : List Response :=
  (responses.responses.entries.map fun (status, respOr) =>
    { status := statusCodeStr status
      description := none
      body := match respOr with
        | .item r => jsonBody r.content
        | .reference _ => none })
  ++ match responses.default with
    | some (.item r) =>
        [{ status := "default", description := some r.description, body := jsonBody r.content }]
    | _ => []

def resolveOperation (method : HttpMethod) (path : String) (op : OpenApi.Operation)
    (pathItemParams : List (ReferenceOr OpenApi.Parameter))
    (components : Option Components) : Operation where
  operationId := op.operationId.getD (synthesizeOperationId method path)
  method := method
  path := path
  tag := op.tags.head?
  summary := op.summary
  description := op.description
  parameters := resolveParameters (pathItemParams ++ op.parameters) components
  requestBody := resolveRequestBody op.requestBody
  responses := resolveResponses op.responses
  retryPolicy := none

def resolveOperations (paths : IndexMap String (ReferenceOr PathItem))
    (components : Option Components) : List Operation :=
  paths.entries.flatMap fun (path, itemOr) =>
    match itemOr with
    | .item item => (iterMethods item).map fun (method, op) =>
        resolveOperation method path op item.parameters components
    | .reference _ => []

/-! ## §4  Webhooks -/

mutual

def webhookJsonToType : Value → IrType
  | .object obj =>
      match (obj.lookup "$ref").bind (·.asStr) with
      | some reference => referenceTo reference
      | none =>
          let type := (obj.lookup "type").bind (·.asStr)
          if type = some "string" then .scalar .string
          else if type = some "integer" then .scalar .integer
          else if type = some "number" then .scalar .float
          else if type = some "boolean" then .scalar .boolean
          else if type = some "array" then .array (webhookItems obj) false
          else if type = some "object" then .any
          else .unknown
  | _ => .unknown

/-- The type under the key `items`. -/
def webhookItems : List (String × Value) → IrType
  | [] => .unknown
  | (k, v) :: rest => if k = "items" then webhookJsonToType v else webhookItems rest

end

def strField (obj : List (String × Value)) (key : String) : Option String :=
  (obj.lookup key).bind (·.asStr)

def objectField (obj : List (String × Value)) (key : String) :
    Option (List (String × Value)) :=
  (obj.lookup key).bind (·.asObject)

/-- The schema under `content` and `application/json`. -/
def webhookSchema (obj : List (String × Value)) : Option Value := do
  let content ← objectField obj "content"
  let jsonContent ← objectField content "application/json"
  jsonContent.lookup "schema"

def resolveWebhookRequestBody (opObj : List (String × Value)) : Option RequestBody := do
  let rbObj ← objectField opObj "requestBody"
  let schemaJson ← webhookSchema rbObj
  return {
    ty := webhookJsonToType schemaJson
    required := ((rbObj.lookup "required").bind (·.asBool)).getD false
    description := strField rbObj "description" }

def resolveWebhookResponses (opObj : List (String × Value)) : List Response :=
  match objectField opObj "responses" with
  | none => []
  | some responsesObj => responsesObj.map fun (status, respJson) =>
      { status := status
        description := respJson.asObject.bind fun r => strField r "description"
        body := (respJson.asObject.bind webhookSchema).map webhookJsonToType }

def webhookMethods : List HttpMethod :=
  [.get, .post, .put, .patch, .delete, .head, .options]

def resolveWebhooks (webhooksJson : Value) : List Webhook :=
  match webhooksJson.asObject with
  | none => []
  | some obj => obj.flatMap fun (name, pathItem) =>
      match pathItem.asObject with
      | none => []
      | some pathObj => webhookMethods.filterMap fun method =>
          (objectField pathObj method.asStr).map fun opObj =>
            { name := name
              method := method
              path := "/webhooks/" ++ name
              summary := strField opObj "summary"
              description := strField opObj "description"
              requestBody := resolveWebhookRequestBody opObj
              responses := resolveWebhookResponses opObj }

/-! ## §5  Documents -/

def mapSecurityScheme : OpenApi.SecurityScheme → Option SecurityScheme
  | .http scheme => if eqIgnoreAsciiCase scheme "bearer" then some .httpBearer else none
  | .apiKey name location =>
      match location with
      | .query | .cookie | .header => some (.apiKey name)
  | _ => none

def resolveSecurity (spec : OpenAPI) : List SecurityScheme :=
  match spec.security, spec.components with
  | some reqs, some components => reqs.flatMap fun req => req.filterMap fun name =>
      match components.securitySchemes.get name with
      | some (.item scheme) => mapSecurityScheme scheme
      | _ => none
  | _, _ => []

def pickBaseUrl (servers : List OpenApi.Server) : Option String := servers.head?.map (·.url)

def resolveWithWebhooks (spec : OpenAPI) (webhooksJson : Option Value) :
    Except ResolveError Document := do
  let schemas ← resolveSchemas spec.components
  return {
    irVersion := IR_VERSION
    title := spec.info.title
    version := spec.info.version
    baseUrl := pickBaseUrl spec.servers
    security := resolveSecurity spec
    schemas := schemas
    operations := resolveOperations spec.paths spec.components
    webhooks := match webhooksJson with
      | some wh => resolveWebhooks wh
      | none => [] }

def resolve (spec : OpenAPI) : Except ResolveError Document := resolveWithWebhooks spec none

end SpecForge
