import SpecForge.Native.Structs

/-!
# Rust declarations (`models.rs`)

- §1 names and types. A model is declared under `safe_model_name(pascal(name))`, while a
  reference to it is written `pascal(name)`.
- §2 the declaration of a model, and the types it holds by value.

Documentation comments, field identifiers, the other attributes and the methods of a union are
left out: they hold no type.
-/

namespace SpecForge.Rust

open Native

/-! ## §1  Types -/

def sdkBuiltinTypes : List String :=
  ["Error", "Client", "ClientBuilder", "ServiceContainer", "Semaphore", "RetryOptions",
   "ResponseCache", "RequestDeduper", "ResponseTransformer", "RequestInterceptor",
   "ResponseInterceptor", "RateLimiter", "TokenBucket", "SlidingWindow", "MetricsCollector",
   "Metrics", "TelemetryHooks", "Middleware", "MiddlewareRequest", "MiddlewareResponse",
   "StreamMiddleware", "ServerSentEvent", "SseStream", "Auth", "CursorPage", "OffsetPage",
   "ConsoleLogger", "NoopLogger"]

def isRustSdkBuiltinType (name : String) : Bool := sdkBuiltinTypes.contains name

def safeModelName (name : String) : String :=
  if isRustSdkBuiltinType name then name ++ "Model" else name

inductive RustType where
  | path (name : String)
  | option (t : RustType)
  | vec (item : RustType)
  | hashMap (value : RustType)
deriving DecidableEq

def scalarName : Scalar → String
  | .string | .dateTime | .uuid => "String"
  | .integer => "i32"
  | .integer64 => "i64"
  | .float => "f64"
  | .boolean | .base64 | .binary => "bool"

mutual

def renderType : IrType → RustType
  | .scalar s => .path (scalarName s)
  | .stringEnum _ _ => .path "String"
  | .array item _ => .vec (renderType item)
  | .map value => .hashMap (renderType value)
  | .reference name nullable _ =>
      if nullable then .option (.path (pascal name)) else .path (pascal name)
  | .composition .allOf members _ => renderFirst members
  | .composition .oneOf _ _ => .path "serde_json::Value"
  | .composition .anyOf _ _ => .path "serde_json::Value"
  | .any => .path "serde_json::Value"
  | .unknown => .path "serde_json::Value"

/-- The first member stands for an `allOf`. -/
def renderFirst : List IrType → RustType
  | [] => .path "serde_json::Value"
  | m :: _ => renderType m

end

/-! ## §2  Declarations -/

/-- A field under its JSON name; `skipNone` if it has a default and is left out when `None`. -/
structure RustField where
  json : String
  skipNone : Bool
  type : RustType

inductive RustDecl where
  | enum (name : String) (values : List String)
  /-- An untagged enum with one variant for each arm. -/
  | union (name : String) (arms : List String)
  | struct (name : String) (flattened : Option String) (fields : List RustField)
  | typeAlias (name : String) (type : RustType)

/-- What starts with `Option<` is not wrapped again. -/
def optional : RustType → RustType
  | .option t => .option t
  | t => .option t

def structFields (o : ObjectModel) (registry : SchemaRegistry) : List RustField :=
  (ownProperties registry o).map fun p =>
    ⟨p.name, !p.required, if p.required then renderType p.ty else optional (renderType p.ty)⟩

def emitEnum (e : EnumModel) : RustDecl :=
  .enum (safeModelName (pascal e.name)) (e.variants.map (·.value))

/-- The arms that become the variants of an enum. -/
def unionArms (o : ObjectModel) : List String := ((unionMembers o).map referenceArms).getD []

def emitObject (o : ObjectModel) (registry : SchemaRegistry) : RustDecl :=
  let name := safeModelName (pascal o.name)
  let arms := unionArms o
  if !arms.isEmpty then .union name (arms.map pascal)
  else if !o.properties.isEmpty then
    .struct name ((baseName o).map pascal) (structFields o registry)
  else match o.shapeType with
    | some shape => .typeAlias name (renderType shape)
    | none => .struct name none []

def emitModel (registry : SchemaRegistry) : Model → RustDecl
  | .enum e => emitEnum e
  | .object o => emitObject o registry

def emitModels (doc : Document) : List RustDecl :=
  doc.schemas.models.values.map (emitModel doc.schemas)

def RustDecl.name : RustDecl → String
  | .enum name _ => name
  | .union name _ => name
  | .struct name _ _ => name
  | .typeAlias name _ => name

/-- Every path in a type. -/
def RustType.idents : RustType → List String
  | .path name => [name]
  | .option t => t.idents
  | .vec item => item.idents
  | .hashMap value => value.idents

/-- The paths whose types a value of this type holds. -/
def RustType.byValue : RustType → List String
  | .path name => [name]
  | .option t => t.byValue
  | .vec _ => []
  | .hashMap _ => []

def RustDecl.byValue : RustDecl → List String
  | .enum _ _ => []
  | .union _ arms => arms
  | .struct _ flattened fields => flattened.toList ++ fields.flatMap (·.type.byValue)
  | .typeAlias _ type => type.byValue

end SpecForge.Rust
