import SpecForge.Native.Structs

/-!
# Go declarations (`models.go`)

- §1 names and types. A reference names its type; only a nullable one is a pointer.
- §2 the declaration of a model, the name of a webhook's payload, and the types a model holds by
  value.

Documentation comments, field identifiers, tags and the functions next to a union are left
out: they hold no type.
-/

namespace SpecForge.Go

open Native

/-! ## §1  Types -/

def sdkBuiltinTypes : List String :=
  ["ValidationError", "ValidationErrors", "TokenBucket", "TelemetryHooks", "StreamMiddleware",
   "SseIterator", "SlidingWindow", "ServiceContainer", "ServerSentEvent", "Semaphore",
   "RouteSchemaMap", "RetryOptions", "ResponseTransformer", "ResponseInterceptor",
   "ResponseCache", "RequestInterceptor", "RequestDeduper", "RateLimiter", "OffsetPage",
   "MiddlewareResponse", "MiddlewareRequest", "Middleware", "MetricsCollector", "Metrics",
   "CursorPage", "Client", "Auth", "Logger", "WebhookHandler"]

def isSdkBuiltinType (name : String) : Bool := sdkBuiltinTypes.contains name

def exportIdent (input : String) : String :=
  let name := pascal input
  if isSdkBuiltinType name then name ++ "Model" else name

inductive GoType where
  | ident (name : String)
  | pointer (t : GoType)
  | slice (item : GoType)
  | map (value : GoType)
deriving DecidableEq

def scalarName : Scalar → String
  | .string | .dateTime | .uuid => "string"
  | .integer => "int"
  | .integer64 => "int64"
  | .float => "float64"
  | .boolean | .base64 | .binary => "bool"

def renderType : IrType → GoType
  | .scalar s => .ident (scalarName s)
  | .stringEnum _ _ => .ident "string"
  | .array item _ => .slice (renderType item)
  | .map value => .map (renderType value)
  | .reference name nullable _ =>
      if nullable then .pointer (.ident (exportIdent name)) else .ident (exportIdent name)
  | .composition _ _ _ => .map (.ident "any")
  | .any | .unknown => .ident "any"

/-! ## §2  Declarations -/

/-- A field under its JSON name. -/
structure GoField where
  json : String
  omitempty : Bool
  type : GoType

inductive GoDecl where
  | enum (name : String) (values : List String)
  /-- An interface; the arms get its marker method. -/
  | union (name : String) (arms : List String)
  | struct (name : String) (embedded : Option String) (fields : List GoField)
  | typeAlias (name : String) (type : GoType)

def isStructModel (o : ObjectModel) : Bool :=
  !o.properties.isEmpty || !(match o.shapeType with
    | some (.composition _ _ _) => true
    | _ => false)

def structFields (o : ObjectModel) (schemas : SchemaRegistry) : List GoField :=
  ((ownProperties schemas o).map fun p => ⟨p.name, !p.required, renderType p.ty⟩) ++
    match o.additionalProperties with
    | some addl => [⟨"-", false, .map (renderType addl)⟩]
    | none => []

def emitEnum (e : EnumModel) : GoDecl := .enum (exportIdent e.name) (e.variants.map (·.value))

def emitObject (o : ObjectModel) (schemas : SchemaRegistry) : GoDecl :=
  let name := exportIdent o.name
  match unionMembers o with
  | some members => .union name ((referenceArms members).map exportIdent)
  | none =>
      if isStructModel o && !o.properties.isEmpty then
        .struct name ((baseName o).map exportIdent) (structFields o schemas)
      else match o.shapeType with
        | some shape => .typeAlias name (renderType shape)
        | none => .struct name none []

def emitModel (schemas : SchemaRegistry) : Model → GoDecl
  | .enum e => emitEnum e
  | .object o => emitObject o schemas

def emitModels (doc : Document) : List GoDecl :=
  doc.schemas.models.values.map (emitModel doc.schemas)

def GoDecl.name : GoDecl → String
  | .enum name _ => name
  | .union name _ => name
  | .struct name _ _ => name
  | .typeAlias name _ => name

def payloadName (wh : Webhook) : String := exportIdent (pascal wh.name ++ "WebhookPayload")

/-- Every identifier in a type. -/
def GoType.idents : GoType → List String
  | .ident name => [name]
  | .pointer t => t.idents
  | .slice item => item.idents
  | .map value => "string" :: value.idents

/-- The identifiers whose types a value of this type holds. -/
def GoType.byValue : GoType → List String
  | .ident name => [name]
  | .pointer _ => []
  | .slice _ => []
  | .map _ => []

def GoDecl.byValue : GoDecl → List String
  | .enum _ _ => ["string"]
  | .union _ _ => []
  | .struct _ embedded fields => embedded.toList ++ fields.flatMap (·.type.byValue)
  | .typeAlias _ type => type.byValue

end SpecForge.Go
