import SpecForge.Lib.IndexMap

/-!
# OpenAPI documents as parsed (`openapiv3`)

What `resolve` reads of the parsed document. Schemas nest (§1); a property list
stands for the `IndexMap` of the parser. The operations and the document
around them are §2 and §3.
-/

namespace SpecForge.OpenApi

open Lib (IndexMap)

/-! ## §1  Schemas -/

inductive ReferenceOr (α : Type) where
  | reference (reference : String)
  | item (a : α)
deriving DecidableEq

structure Discriminator where
  propertyName : String
  mapping : IndexMap String String

structure SchemaData where
  nullable : Bool
  deprecated : Bool
  title : Option String
  description : Option String
  discriminator : Option Discriminator

def SchemaData.default : SchemaData := ⟨false, false, none, none, none⟩

inductive StringFormat where
  | date
  | dateTime
  | password
  | byte
  | binary
deriving DecidableEq

inductive VariantOrUnknownOrEmpty (α : Type) where
  | item (a : α)
  | unknown (s : String)
  | empty
deriving DecidableEq

structure StringType where
  format : VariantOrUnknownOrEmpty StringFormat
  enumeration : List (Option String)

inductive IntegerFormat where
  | int32
  | int64
deriving DecidableEq

structure IntegerType where
  format : VariantOrUnknownOrEmpty IntegerFormat

mutual

structure Schema where
  schemaData : SchemaData
  schemaKind : SchemaKind

inductive SchemaKind where
  | type (t : OApiType)
  | oneOf (oneOf : List (ReferenceOr Schema))
  | allOf (allOf : List (ReferenceOr Schema))
  | anyOf (anyOf : List (ReferenceOr Schema))
  | not
  | any

inductive OApiType where
  | string (s : StringType)
  | number
  | integer (i : IntegerType)
  | object (o : ObjectType)
  | array (items : Option (ReferenceOr Schema))
  | boolean

structure ObjectType where
  properties : List (String × ReferenceOr Schema)
  required : List String
  additionalProperties : Option AdditionalProperties

inductive AdditionalProperties where
  | any (b : Bool)
  | schema (s : ReferenceOr Schema)

end

/-! ## §2  Operations -/

structure MediaType where
  schema : Option (ReferenceOr Schema)

inductive ParameterSchemaOrContent where
  | schema (s : ReferenceOr Schema)
  | content

structure ParameterData where
  name : String
  description : Option String
  required : Bool
  format : ParameterSchemaOrContent

inductive Parameter where
  | query (parameterData : ParameterData)
  | header (parameterData : ParameterData)
  | path (parameterData : ParameterData)
  | cookie (parameterData : ParameterData)

structure RequestBody where
  description : Option String
  content : IndexMap String MediaType
  required : Bool

structure Response where
  description : String
  content : IndexMap String MediaType

inductive StatusCode where
  | code (n : UInt16)
  | range (n : UInt16)
deriving DecidableEq

structure Responses where
  default : Option (ReferenceOr Response)
  responses : IndexMap StatusCode (ReferenceOr Response)

structure Operation where
  tags : List String
  summary : Option String
  description : Option String
  operationId : Option String
  parameters : List (ReferenceOr Parameter)
  requestBody : Option (ReferenceOr RequestBody)
  responses : Responses

structure PathItem where
  get : Option Operation
  put : Option Operation
  post : Option Operation
  delete : Option Operation
  options : Option Operation
  head : Option Operation
  patch : Option Operation
  parameters : List (ReferenceOr Parameter)

/-! ## §3  Documents -/

inductive APIKeyLocation where
  | query
  | header
  | cookie
deriving DecidableEq

inductive SecurityScheme where
  | apiKey (name : String) (location : APIKeyLocation)
  | http (scheme : String)
  | oauth2
  | openIdConnect
deriving DecidableEq

structure Components where
  securitySchemes : IndexMap String (ReferenceOr SecurityScheme)
  parameters : IndexMap String (ReferenceOr Parameter)
  requestBodies : IndexMap String (ReferenceOr RequestBody)
  schemas : IndexMap String (ReferenceOr Schema)

/-- Components that declare schemas only. -/
def Components.ofSchemas (schemas : List (String × ReferenceOr Schema)) : Components :=
  ⟨IndexMap.empty, IndexMap.empty, IndexMap.empty, IndexMap.ofList schemas⟩

structure Info where
  title : String
  version : String
deriving DecidableEq

structure Server where
  url : String
deriving DecidableEq

structure OpenAPI where
  info : Info
  servers : List Server
  paths : IndexMap String (ReferenceOr PathItem)
  components : Option Components
  /-- The scheme names of each requirement, in order. -/
  security : Option (List (List String))

end SpecForge.OpenApi
