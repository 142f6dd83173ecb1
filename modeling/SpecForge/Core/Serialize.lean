import SpecForge.Core.Ir
import SpecForge.Core.Json

/-!
# The IR as JSON

What the serialisation derived for the IR writes: a record is an object with its fields in
the order of their declaration, an enumeration is tagged by the name of the variant, and a
variant without data is that name alone. An object lists its entries as they are written.
-/

namespace SpecForge

open Lib (IndexMap)

/-! ## §1  Types -/

/-- An absent value is `null`. -/
def serializeOption {α : Type} (f : α → Value) : Option α → Value
  | none => .null
  | some a => f a

/-- A variant with data. -/
def serializeVariant (tag : String) (data : Value) : Value := .object [(tag, data)]

def Scalar.serialize : Scalar → Value
  | .string => .string "String"
  | .dateTime => .string "DateTime"
  | .uuid => .string "Uuid"
  | .integer => .string "Integer"
  | .integer64 => .string "Integer64"
  | .float => .string "Float"
  | .boolean => .string "Boolean"
  | .base64 => .string "Base64"
  | .binary => .string "Binary"

def Discriminator.serialize (d : Discriminator) : Value :=
  .object [
    ("property_name", .string d.propertyName),
    ("mapping", serializeOption (fun m : IndexMap String String =>
      .object (m.entries.map fun e => (e.1, .string e.2))) d.mapping)]

def CompositionKind.serialize : CompositionKind → Value
  | .allOf => .string "AllOf"
  | .oneOf => .string "OneOf"
  | .anyOf => .string "AnyOf"

mutual

def IrType.serialize : IrType → Value
  | .scalar s => serializeVariant "Scalar" s.serialize
  | .stringEnum variants nullable =>
      serializeVariant "StringEnum" (.object [
        ("variants", .array (variants.map .string)),
        ("nullable", .bool nullable)])
  | .array item nullable =>
      serializeVariant "Array" (.object [
        ("item", item.serialize),
        ("nullable", .bool nullable)])
  | .map value => serializeVariant "Map" (.object [("value", value.serialize)])
  | .reference name nullable description =>
      serializeVariant "Reference" (.object [
        ("name", .string name),
        ("nullable", .bool nullable),
        ("description", serializeOption .string description)])
  | .composition kind members discriminator =>
      serializeVariant "Composition" (.object [
        ("kind", kind.serialize),
        ("members", .array (serializeMembers members)),
        ("discriminator", serializeOption Discriminator.serialize discriminator)])
  | .any => .string "Any"
  | .unknown => .string "Unknown"

def serializeMembers : List IrType → List Value
  | [] => []
  | m :: ms => m.serialize :: serializeMembers ms

end

theorem serializeMembers_eq_map : ∀ ms : List IrType,
    serializeMembers ms = ms.map IrType.serialize
  | [] => rfl
  | m :: ms => by rw [serializeMembers, serializeMembers_eq_map ms, List.map_cons]

/-! ## §2  Models -/

def Property.serialize (p : Property) : Value :=
  .object [
    ("name", .string p.name),
    ("ty", p.ty.serialize),
    ("required", .bool p.required),
    ("description", serializeOption .string p.description)]

def ObjectModel.serialize (o : ObjectModel) : Value :=
  .object [
    ("name", .string o.name),
    ("description", serializeOption .string o.description),
    ("properties", .array (o.properties.map Property.serialize)),
    ("additional_properties", serializeOption IrType.serialize o.additionalProperties),
    ("shape_type", serializeOption IrType.serialize o.shapeType),
    ("base_type", serializeOption IrType.serialize o.baseType)]

def EnumVariant.serialize (v : EnumVariant) : Value :=
  .object [
    ("value", .string v.value),
    ("description", serializeOption .string v.description)]

def EnumModel.serialize (e : EnumModel) : Value :=
  .object [
    ("name", .string e.name),
    ("description", serializeOption .string e.description),
    ("variants", .array (e.variants.map EnumVariant.serialize))]

def Model.serialize : Model → Value
  | .object o => serializeVariant "Object" o.serialize
  | .enum e => serializeVariant "Enum" e.serialize

def SchemaRegistry.serialize (r : SchemaRegistry) : Value :=
  .object [("models", .object (r.models.entries.map fun e => (e.1, e.2.serialize)))]

/-! ## §3  Operations and documents -/

def HttpMethod.serialize : HttpMethod → Value
  | .get => .string "Get"
  | .post => .string "Post"
  | .put => .string "Put"
  | .patch => .string "Patch"
  | .delete => .string "Delete"
  | .head => .string "Head"
  | .options => .string "Options"

def ParamLocation.serialize : ParamLocation → Value
  | .path => .string "Path"
  | .query => .string "Query"
  | .header => .string "Header"

def Parameter.serialize (p : Parameter) : Value :=
  .object [
    ("name", .string p.name),
    ("location", p.location.serialize),
    ("ty", p.ty.serialize),
    ("required", .bool p.required),
    ("description", serializeOption .string p.description)]

def Response.serialize (r : Response) : Value :=
  .object [
    ("status", .string r.status),
    ("description", serializeOption .string r.description),
    ("body", serializeOption IrType.serialize r.body)]

def RequestBody.serialize (b : RequestBody) : Value :=
  .object [
    ("ty", b.ty.serialize),
    ("required", .bool b.required),
    ("description", serializeOption .string b.description)]

def RetryPolicy.serialize (r : RetryPolicy) : Value :=
  .object [
    ("max_retries", serializeOption (fun n : UInt32 => .number (.posInt n.toUInt64))
      r.maxRetries),
    ("retryable", .bool r.retryable)]

def Operation.serialize (op : Operation) : Value :=
  .object [
    ("operation_id", .string op.operationId),
    ("method", op.method.serialize),
    ("path", .string op.path),
    ("tag", serializeOption .string op.tag),
    ("summary", serializeOption .string op.summary),
    ("description", serializeOption .string op.description),
    ("parameters", .array (op.parameters.map Parameter.serialize)),
    ("request_body", serializeOption RequestBody.serialize op.requestBody),
    ("responses", .array (op.responses.map Response.serialize)),
    ("retry_policy", serializeOption RetryPolicy.serialize op.retryPolicy)]

def Webhook.serialize (w : Webhook) : Value :=
  .object [
    ("name", .string w.name),
    ("method", w.method.serialize),
    ("path", .string w.path),
    ("summary", serializeOption .string w.summary),
    ("description", serializeOption .string w.description),
    ("request_body", serializeOption RequestBody.serialize w.requestBody),
    ("responses", .array (w.responses.map Response.serialize))]

def SecurityScheme.serialize : SecurityScheme → Value
  | .httpBearer => .string "HttpBearer"
  | .apiKey header => serializeVariant "ApiKey" (.object [("header", .string header)])

def Document.serialize (d : Document) : Value :=
  .object [
    ("ir_version", .string d.irVersion),
    ("title", .string d.title),
    ("version", .string d.version),
    ("base_url", serializeOption .string d.baseUrl),
    ("security", .array (d.security.map SecurityScheme.serialize)),
    ("schemas", d.schemas.serialize),
    ("operations", .array (d.operations.map Operation.serialize)),
    ("webhooks", .array (d.webhooks.map Webhook.serialize))]

end SpecForge
