import SpecForge.Lib.IndexMap

/-!
# The intermediate representation

The language-neutral IR that `resolve` produces and every other part reads:
types (§1), models and their registry (§2), operations and documents (§3).
References between models are by name, so a document may be cyclic while each
`IrType` is a finite tree.
-/

namespace SpecForge

open Lib (IndexMap)

/-! ## §1  Types -/

inductive Scalar where
  | string
  | dateTime
  | uuid
  | integer
  | integer64
  | float
  | boolean
  | base64
  | binary
deriving DecidableEq

structure Discriminator where
  propertyName : String
  mapping : Option (IndexMap String String)

inductive CompositionKind where
  | allOf
  | oneOf
  | anyOf
deriving DecidableEq

/-- The IR's `Type`. Only string enums, arrays and references carry a
`nullable` flag. -/
inductive IrType where
  | scalar (s : Scalar)
  | stringEnum (variants : List String) (nullable : Bool)
  | array (item : IrType) (nullable : Bool)
  | map (value : IrType)
  | reference (name : String) (nullable : Bool) (description : Option String)
  | composition (kind : CompositionKind) (members : List IrType)
      (discriminator : Option Discriminator)
  | any
  | unknown

/-! ## §2  Models -/

structure Property where
  name : String
  ty : IrType
  required : Bool
  description : Option String

structure ObjectModel where
  name : String
  description : Option String
  properties : List Property
  additionalProperties : Option IrType
  shapeType : Option IrType
  baseType : Option IrType

structure EnumVariant where
  value : String
  description : Option String
deriving DecidableEq

structure EnumModel where
  name : String
  description : Option String
  variants : List EnumVariant
deriving DecidableEq

inductive Model where
  | object (o : ObjectModel)
  | enum (e : EnumModel)

def Model.name : Model → String
  | .object o => o.name
  | .enum e => e.name

/-- Models by schema name, in the order of the document. -/
structure SchemaRegistry where
  models : IndexMap String Model

namespace SchemaRegistry

def default : SchemaRegistry := ⟨IndexMap.empty⟩

def get (r : SchemaRegistry) (name : String) : Option Model := r.models.get name

def names (r : SchemaRegistry) : List String := r.models.keys

end SchemaRegistry

/-! ## §3  Operations and documents -/

inductive HttpMethod where
  | get
  | post
  | put
  | patch
  | delete
  | head
  | options
deriving DecidableEq

namespace HttpMethod

def asStr : HttpMethod → String
  | get => "get"
  | post => "post"
  | put => "put"
  | patch => "patch"
  | delete => "delete"
  | head => "head"
  | options => "options"

def upper : HttpMethod → String
  | get => "GET"
  | post => "POST"
  | put => "PUT"
  | patch => "PATCH"
  | delete => "DELETE"
  | head => "HEAD"
  | options => "OPTIONS"

end HttpMethod

inductive ParamLocation where
  | path
  | query
  | header
deriving DecidableEq

structure Parameter where
  name : String
  location : ParamLocation
  ty : IrType
  required : Bool
  description : Option String

structure Response where
  status : String
  description : Option String
  body : Option IrType

structure RequestBody where
  ty : IrType
  required : Bool
  description : Option String

structure RetryPolicy where
  maxRetries : Option UInt32
  retryable : Bool
deriving DecidableEq

structure Operation where
  operationId : String
  method : HttpMethod
  path : String
  tag : Option String
  summary : Option String
  description : Option String
  parameters : List Parameter
  requestBody : Option RequestBody
  responses : List Response
  retryPolicy : Option RetryPolicy

structure Webhook where
  name : String
  method : HttpMethod
  path : String
  summary : Option String
  description : Option String
  requestBody : Option RequestBody
  responses : List Response

inductive SecurityScheme where
  | httpBearer
  | apiKey (header : String)
deriving DecidableEq

def IR_VERSION : String := "1.0"

structure Document where
  irVersion : String
  title : String
  version : String
  baseUrl : Option String
  security : List SecurityScheme
  schemas : SchemaRegistry
  operations : List Operation
  webhooks : List Webhook

/-- A document with these schemas and operations and nothing else. -/
def Document.minimal (schemas : SchemaRegistry) (operations : List Operation) : Document where
  irVersion := IR_VERSION
  title := ""
  version := ""
  baseUrl := none
  security := []
  schemas := schemas
  operations := operations
  webhooks := []

/-- Operation ids tell the operations of a document apart. -/
def Document.UniqueIds (d : Document) : Prop := (d.operations.map (·.operationId)).Nodup

/-- Property names tell the properties of each object model apart. -/
def Document.UniqueProperties (d : Document) : Prop :=
  ∀ name o, d.schemas.get name = some (.object o) → (o.properties.map (·.name)).Nodup

theorem Document.uniqueProperties_default (operations : List Operation) :
    (Document.minimal SchemaRegistry.default operations).UniqueProperties := by
  intro name o ho
  cases ho

end SpecForge
