import SpecForge.Core.Validate
import SpecForge.Lib.Js
import SpecForge.Lib.JsLiteral
import SpecForge.Ts.Name

/-!
# The generated validators (`runtime.rs`, `validate.ts`)

For each model `validate.ts` has a validator, and for each object model a descriptor of its
properties that the validator runs on. The descriptors know strings, numbers, booleans,
enums, arrays and references; a reference is never followed, and whatever else the IR has
is described as a string.

- §1 descriptors; §2 the file, and when a JavaScript engine loads it; §3 JavaScript values; §4 the
  interpreter.
-/

namespace SpecForge.Ts

open Lib

/-! ## §1  Descriptors -/

/-- The descriptor of a property. -/
inductive SchemaType where
  | string
  | number
  | boolean
  | enum (values : List String)
  | array (items : SchemaType)
  | ref (name : String)

structure SchemaField where
  type : SchemaType
  required : Bool

/-- The descriptor of a model, as written: one entry for each property. -/
structure SchemaObject where
  fields : List (String × SchemaField)

def escapeTsString (s : String) : String :=
  Text.replaceChar '"' "\\\"" (Text.replaceChar '\\' "\\\\" s)

/-- How a text is written in a descriptor. -/
def schemaLiteral (s : String) : String := "\"" ++ escapeTsString s ++ "\""

/-- The texts that the expression of a descriptor has as literals, besides its kinds. -/
def SchemaType.literals : SchemaType → List String
  | enum values => values
  | array items => items.literals
  | ref name => [name]
  | _ => []

def scalarDescriptor : Scalar → SchemaType
  | .string | .dateTime | .uuid | .integer64 | .base64 | .binary => .string
  | .integer | .float => .number
  | .boolean => .boolean

/-- The first reference among the members of a union. -/
def firstReference (members : List IrType) : Option String :=
  members.findSome? fun
    | .reference name _ _ => some name
    | _ => none

/-- A union is described by its first reference. -/
def unionDescriptor (members : List IrType) : SchemaType :=
  match firstReference members with
  | some name => .ref (pascal name)
  | none => .string

/-- `ts_schema_type`: the value of the expression that it writes. -/
def descriptor : IrType → SchemaType
  | .scalar s => scalarDescriptor s
  | .stringEnum variants _ => .enum variants
  | .array item _ => .array (descriptor item)
  -- meant for the keys, but it is the map that is checked
  | .map _ => .string
  | .reference name _ _ => .ref (pascal name)
  | .composition .allOf (m :: _) _ => descriptor m
  | .composition .allOf [] _ => .string
  | .composition .oneOf members _ => unionDescriptor members
  | .composition .anyOf members _ => unionDescriptor members
  | .any => .string
  | .unknown => .string

/-! ## §2  The file -/

inductive ModelValidator where
  | object (name : String) (schema : SchemaObject)
  | enum (name : String) (values : List String)

def objectSchema (o : ObjectModel) : SchemaObject :=
  ⟨o.properties.map fun p => (p.name, ⟨descriptor p.ty, p.required⟩)⟩

def modelValidator : Model → ModelValidator
  | .object o => .object (pascal o.name) (objectSchema o)
  | .enum e => .enum (pascal e.name) (e.variants.map (·.value))

/-- The validators of the file, in the order of the schemas. -/
def validateSource (doc : Document) : List ModelValidator :=
  doc.schemas.models.entries.map fun x => modelValidator x.2

namespace ModelValidator

def name : ModelValidator → String
  | object name _ => name
  | enum name _ => name

/-- The values of an enum are not exported. -/
def exports : ModelValidator → List String
  | object name _ => [name ++ "Schema", "validate" ++ name]
  | enum name _ => ["validate" ++ name]

/-- The names of the constant and the function that are declared for a model. -/
def declarations : ModelValidator → List String
  | object name _ => [name ++ "Schema", "validate" ++ name]
  | enum name _ => [name ++ "Values", "validate" ++ name]

/-- The texts that are written as literals. -/
def literals : ModelValidator → List String
  | object _ schema => schema.fields.flatMap fun e => e.1 :: e.2.type.literals
  | enum _ values => values

/-- How often the descriptor of a model sets the prototype of its fields. -/
def prototypes : ModelValidator → ℕ
  | object _ schema => (schema.fields.filter fun e => e.1 == "__proto__").length
  | enum _ _ => 0

end ModelValidator

/-- The functions of the generic part of the file. -/
def runtimeFunctions : List String :=
  ["validateString", "validateNumber", "validateBoolean", "validateEnum", "validateArray",
   "validateObject", "resolveSchema", "validateValue", "validateRequest", "validateResponse"]

/-- The file has no early error: a module declares no name twice, its literals end, and an object
literal sets its prototype once. -/
structure Loads (doc : Document) : Prop where
  declared : ((validateSource doc).flatMap (·.declarations) ++ runtimeFunctions).Nodup
  literals : ∀ mv ∈ validateSource doc, ∀ s ∈ mv.literals,
    (JsLiteral.literal (schemaLiteral s).toList).isSome = true
  prototypes : ∀ mv ∈ validateSource doc, mv.prototypes ≤ 1

instance (doc : Document) : Decidable (Loads doc) :=
  decidable_of_iff
    (((validateSource doc).flatMap (·.declarations) ++ runtimeFunctions).Nodup ∧
      (∀ mv ∈ validateSource doc, ∀ s ∈ mv.literals,
        (JsLiteral.literal (schemaLiteral s).toList).isSome = true) ∧
      ∀ mv ∈ validateSource doc, mv.prototypes ≤ 1)
    ⟨fun h => ⟨h.1, h.2.1, h.2.2⟩, fun h => ⟨h.declared, h.literals, h.prototypes⟩⟩

/-- The validators of the module, if it loads. -/
def validateModule (doc : Document) : Option (List ModelValidator) :=
  if Loads doc then some (validateSource doc) else none

def validateExports (doc : Document) : List String :=
  match validateModule doc with
  | none => []
  | some validators =>
      ["SchemaField", "SchemaObject", "SchemaRef", "SchemaString", "SchemaNumber",
       "SchemaBoolean", "SchemaEnum", "SchemaArray", "SchemaType", "ValidationError"] ++
      validators.flatMap (·.exports) ++ ["validateValue", "validateRequest", "validateResponse"]

/-! ## §3  JavaScript values -/

/-- What reading a property of parsed JSON can give. -/
inductive JsValue where
  | json (v : Value)
  /-- A method that the object inherits. -/
  | method
  /-- `Object.prototype`. -/
  | objectPrototype

namespace JsValue

def typeOf : JsValue → String
  | json .null => "object"
  | json (.bool _) => "boolean"
  | json (.number _) => "number"
  | json (.string _) => "string"
  | json (.array _) => "object"
  | json (.object _) => "object"
  | method => "function"
  | objectPrototype => "object"

def isNull : JsValue → Bool
  | json .null => true
  | _ => false

/-- `Array.isArray`, with the elements. -/
def asArray : JsValue → Option (List JsValue)
  | json (.array items) => some (items.map json)
  | _ => none

/-- What an object without the property has there. -/
def inherited (key : String) : Option JsValue :=
  if key = "__proto__" then some objectPrototype
  else if key ∈ Js.prototypeMethods then some method
  else none

/-- `obj[key]`; `none` is `undefined`. -/
def get : JsValue → String → Option JsValue
  | json (.object entries), key => ((entries.lookup key).map json).or (inherited key)
  | objectPrototype, key => if key = "__proto__" then some (json .null) else inherited key
  | _, _ => none

/-- A value that `validateObject` goes into. -/
def isObject : JsValue → Bool
  | json (.object _) => true
  | objectPrototype => true
  | _ => false

end JsValue

/-! ## §4  Validation -/

/-- `validateString`, `validateNumber` and `validateBoolean`. -/
def expectType (what : String) (value : JsValue) (path : String) : List ValidationError :=
  if value.typeOf ≠ what then [⟨path, "expected " ++ what ++ ", got " ++ value.typeOf⟩] else []

def validateString (value : JsValue) (path : String) : List ValidationError :=
  expectType "string" value path

def validateNumber (value : JsValue) (path : String) : List ValidationError :=
  expectType "number" value path

def validateBoolean (value : JsValue) (path : String) : List ValidationError :=
  expectType "boolean" value path

def validateEnum (value : JsValue) (values : List String) (path : String) :
    List ValidationError :=
  match value with
  | .json (.string s) =>
      if !values.contains s then
        [⟨path, "expected one of [" ++ Text.join ", " values ++ "], got \"" ++ s ++ "\""⟩]
      else []
  | _ => [⟨path, "expected string, got " ++ value.typeOf⟩]

/-- `validateArray`, with the check of an element as a parameter. -/
def validateArray (validateItem : JsValue → String → List ValidationError) (value : JsValue)
    (path : String) : List ValidationError :=
  match value.asArray with
  | none => [⟨path, "expected array, got " ++ value.typeOf⟩]
  | some items =>
      items.zipIdx.flatMap fun x => validateItem x.1 (path ++ "[" ++ toString x.2 ++ "]")

/-- `validateValue` on the descriptor of a property. -/
def validateValue : SchemaType → JsValue → String → List ValidationError
  | schema, value, path =>
    if value.isNull then []
    else match schema with
    | .string => validateString value path
    | .number => validateNumber value path
    | .boolean => validateBoolean value path
    | .enum values => validateEnum value values path
    | .array items => validateArray (validateValue items) value path
    -- references are left to the caller
    | .ref _ => []

def validateField (value : JsValue) (path : String) (entry : String × SchemaField) :
    List ValidationError :=
  let fieldPath := if path.isEmpty then entry.1 else path ++ "." ++ entry.1
  match value.get entry.1 with
  | none => if entry.2.required then [⟨fieldPath, "missing required field"⟩] else []
  | some w => validateValue entry.2.type w fieldPath

/-- The entries of a descriptor as they are enumerated. -/
def SchemaObject.entries (schema : SchemaObject) : List (String × SchemaField) :=
  Js.objectEntries (Js.objectLiteral schema.fields)

def validateObject (value : JsValue) (schema : SchemaObject) (path : String) :
    List ValidationError :=
  if value.isObject then schema.entries.flatMap (validateField value path)
  else [⟨path, "expected object, got " ++ if value.isNull then "null" else value.typeOf⟩]

/-- `validateValue` on the descriptor of a model. -/
def validateModelValue (value : JsValue) (schema : SchemaObject) (path : String) :
    List ValidationError :=
  if value.isNull then [] else validateObject value schema path

namespace ModelValidator

/-- The validator function of a model. -/
def validate : ModelValidator → JsValue → String → List ValidationError
  | object _ schema, value, path => validateModelValue value schema path
  | enum _ values, value, path => validateEnum value values path

end ModelValidator

end SpecForge.Ts
