import SpecForge.Core.JsonSchema
import SpecForge.Core.References
import SpecForge.Core.ResolveOrder
import SpecForge.Core.Serialize

/-!
# The published schema of the IR

`emit` prints the IR as JSON and `emit --schema` the schema of it (§1). The schema has fallen
behind: no document conforms, for the root is closed and does not know two of the members
that every document has (§2). §3 and §4 say what is left of it. A type conforms unless it
refers to a model or holds bytes, every registry conforms, and no operation does; with a root
that admits the two members, the documents that conform are those without operations and
without bearer authentication.
-/

namespace SpecForge

open JsonSchema

/-! ## §1  The schema -/

def typeAlternatives : List String := ["ScalarType", "StringEnumType", "ArrayType", "MapType",
  "ReferenceType", "CompositionType", "AnyType", "UnknownType"]

/-- The `$defs` of the schema. -/
def irDefs : List (String × JsonSchema) := [
  ("SchemaRegistry", .object ["models"] [
    ("models", .object [] [] (.ref "Model"))] (.bool false)),
  ("Model", .oneOf (["ObjectModel", "EnumModel"].map .ref)),
  ("ObjectModel", .object ["name", "properties"] [
    ("Object", .object ["name", "properties"] [
      ("name", .type [.string]),
      ("description", .type [.string, .null]),
      ("properties", .array (.ref "Property")),
      ("additional_properties", .oneOf [.ref "Type", .type [.null]]),
      ("shape_type", .oneOf [.ref "Type", .type [.null]]),
      ("base_type", .oneOf [.ref "Type", .type [.null]])] (.bool false))] (.bool true)),
  ("EnumModel", .object [] [
    ("Enum", .object ["name", "variants"] [
      ("name", .type [.string]),
      ("description", .type [.string, .null]),
      ("variants", .array (.ref "EnumVariant"))] (.bool false))] (.bool true)),
  ("EnumVariant", .object ["value"] [
    ("value", .type [.string]),
    ("description", .type [.string, .null])] (.bool false)),
  ("Property", .object ["name", "ty", "required"] [
    ("name", .type [.string]),
    ("ty", .ref "Type"),
    ("required", .type [.boolean]),
    ("description", .type [.string, .null])] (.bool false)),
  ("Type", .oneOf (typeAlternatives.map .ref)),
  ("ScalarType", .object ["Scalar"] [("Scalar", .ref "Scalar")] (.bool false)),
  ("StringEnumType", .object ["StringEnum"] [
    ("StringEnum", .object ["variants", "nullable"] [
      ("variants", .array (.type [.string])),
      ("nullable", .type [.boolean])] (.bool false))] (.bool false)),
  ("ArrayType", .object ["Array"] [
    ("Array", .object ["item", "nullable"] [
      ("item", .ref "Type"),
      ("nullable", .type [.boolean])] (.bool false))] (.bool false)),
  ("MapType", .object ["Map"] [
    ("Map", .object ["value"] [
      ("value", .ref "Type")] (.bool false))] (.bool false)),
  ("ReferenceType", .object ["Reference"] [
    ("Reference", .object ["name", "nullable"] [
      ("name", .type [.string]),
      ("nullable", .type [.boolean])] (.bool false))] (.bool false)),
  ("CompositionType", .object ["Composition"] [
    ("Composition", .ref "Composition")] (.bool false)),
  ("AnyType", .enum ["Any"]),
  ("UnknownType", .enum ["Unknown"]),
  ("Scalar", .enum ["String", "DateTime", "Uuid", "Integer", "Integer64", "Float",
    "Boolean"]),
  ("Composition", .object ["kind", "members"] [
    ("kind", .ref "CompositionKind"),
    ("members", .array (.ref "Type")),
    ("discriminator", .oneOf [.ref "Discriminator", .type [.null]])] (.bool false)),
  ("CompositionKind", .enum ["AllOf", "OneOf", "AnyOf"]),
  ("Discriminator", .object ["property_name"] [
    ("property_name", .type [.string]),
    ("mapping", .oneOf [.object [] [] (.type [.string]), .type [.null]])] (.bool false)),
  ("Operation", .object ["operation_id", "method", "path", "parameters", "responses"] [
    ("operation_id", .type [.string]),
    ("method", .ref "HttpMethod"),
    ("path", .type [.string]),
    ("tag", .type [.string, .null]),
    ("summary", .type [.string, .null]),
    ("description", .type [.string, .null]),
    ("parameters", .array (.ref "Parameter")),
    ("request_body", .oneOf [.ref "RequestBody", .type [.null]]),
    ("responses", .array (.ref "Response"))] (.bool false)),
  ("HttpMethod", .enum ["Get", "Post", "Put", "Patch", "Delete", "Head", "Options"]),
  ("Parameter", .object ["name", "location", "ty", "required"] [
    ("name", .type [.string]),
    ("location", .ref "ParamLocation"),
    ("ty", .ref "Type"),
    ("required", .type [.boolean]),
    ("description", .type [.string, .null])] (.bool false)),
  ("ParamLocation", .enum ["Path", "Query", "Header"]),
  ("RequestBody", .object ["ty", "required"] [
    ("ty", .ref "Type"),
    ("required", .type [.boolean]),
    ("description", .type [.string, .null])] (.bool false)),
  ("Response", .object ["status"] [
    ("status", .type [.string]),
    ("description", .type [.string, .null]),
    ("body", .oneOf [.ref "Type", .type [.null]])] (.bool false)),
  ("SecurityScheme", .oneOf [
    .object ["HttpBearer"] [("HttpBearer", .type [.null])] (.bool false),
    .object ["ApiKey"] [
      ("ApiKey", .object ["header"] [
        ("header", .type [.string])] (.bool false))] (.bool false)])]

/-- The root of the schema, with this for the members that it does not name. -/
def irRoot (additionalProperties : JsonSchema) : JsonSchema :=
  .object ["title", "version", "security", "schemas", "operations"] [
    ("title", .type [.string]),
    ("version", .type [.string]),
    ("base_url", .type [.string, .null]),
    ("security", .array (.ref "SecurityScheme")),
    ("schemas", .ref "SchemaRegistry"),
    ("operations", .array (.ref "Operation"))] additionalProperties

def irSchema : JsonSchema := irRoot (.bool false)

/-! ## §2  No document conforms -/

/-- The root is closed and knows nothing of the version of the IR. -/
theorem verdict_document (d : Document) : Verdict irDefs irSchema d.serialize false := by
  have hmem : ("ir_version", .string d.irVersion) ∈ [("ir_version", Value.string d.irVersion)] :=
    List.mem_cons_self
  exact verdict_object_extra (List.mem_append_left _ hmem) rfl

/-- **No emitted document is valid against the published schema.** -/
theorem emitted_not_valid (d : Document) : ¬Valid irDefs irSchema d.serialize :=
  not_valid_of_verdict (verdict_document d)

def emptySpec : OpenApi.OpenAPI where
  info := ⟨"Pets", "1.0.0"⟩
  servers := []
  paths := Lib.IndexMap.empty
  components := none
  security := none

theorem empty_document_not_valid : ¬∀ (spec : OpenApi.OpenAPI) (webhooks : Option Value)
    (d : Document), resolve spec = .ok d ∨ resolveWithWebhooks spec webhooks = .ok d →
      Valid irDefs irSchema d.serialize := by
  intro hclaim
  obtain ⟨d, hd⟩ : ∃ d, resolve emptySpec = .ok d := ⟨_, rfl⟩
  exact not_valid_of_verdict (verdict_document d) (hclaim emptySpec none d (Or.inl hd))

/-! ## §3  Types -/

def Scalar.conforms : Scalar → Bool
  | .base64 => false
  | .binary => false
  | _ => true

mutual

/-- No reference, for they are written with their description, and nothing that holds bytes. -/
def IrType.conforms : IrType → Bool
  | .scalar s => s.conforms
  | .array item _ => item.conforms
  | .map value => value.conforms
  | .reference _ _ _ => false
  | .composition _ members _ => membersConform members
  | _ => true

def membersConform : List IrType → Bool
  | [] => true
  | m :: ms => m.conforms && membersConform ms

end

theorem membersConform_eq_all : ∀ ms : List IrType, membersConform ms = ms.all IrType.conforms
  | [] => rfl
  | m :: ms => by rw [membersConform, membersConform_eq_all ms, List.all_cons]

theorem verdict_variant {defs : List (String × JsonSchema)} {tag : String} {s : JsonSchema}
    {data : Value} {b : Bool} (h : Verdict defs s data b) :
    Verdict defs (.object [tag] [(tag, s)] (.bool false)) (serializeVariant tag data) b := by
  have hdata : Verdict defs (([(tag, s)].lookup tag).getD (.bool false)) data b := by
    rw [List.lookup_cons_self]
    exact h
  apply verdict_object
  · simp
  · exact .cons hdata .nil
  · exact Bool.and_true b

/-- Text that may be absent. -/
theorem verdict_text {o : Option String} :
    Verdict irDefs (.type [.string, .null]) (serializeOption .string o) true := by
  cases o with
  | none => exact verdict_type
  | some x => exact verdict_type

theorem verdict_texts {l : List String} :
    Verdict irDefs (.array (.type [.string])) (.array (l.map .string)) true := by
  have harray : Verdict irDefs (.array (.type [.string])) (.array (l.map .string))
      (l.all fun _ => true) := verdict_array fun _ _ => verdict_type
  rw [List.all_eq_true.mpr fun _ _ => rfl] at harray
  exact harray

theorem verdict_option {α : Type} {s : JsonSchema} {f : α → Value} {o : Option α}
    {verdict : α → Bool} (hnull : Verdict irDefs s .null false)
    (hvalue : ∀ a, JsonType.of (f a) ≠ .null) (h : ∀ a ∈ o, Verdict irDefs s (f a) (verdict a)) :
    Verdict irDefs (.oneOf [s, .type [.null]]) (serializeOption f o) (o.all verdict) := by
  cases o with
  | none => exact verdict_oneOf (.cons hnull (.cons verdict_type .nil))
  | some a => exact verdict_oneOf_null (hvalue a) (h a rfl)

theorem verdict_discriminator (d : Discriminator) :
    Verdict irDefs (.ref "Discriminator") d.serialize true := by
  apply verdict_ref rfl
  have hmapping : Verdict irDefs (.oneOf [.object [] [] (.type [.string]), .type [.null]])
      (serializeOption (fun m : Lib.IndexMap String String =>
        .object (m.entries.map fun e => (e.1, .string e.2))) d.mapping)
      (d.mapping.all fun m => m.entries.all fun _ => true) := by
    apply verdict_option
    · exact verdict_of_succ (N := 0) fun _ _ => rfl
    · intro m h
      cases h
    · intro m _
      exact verdict_object_map fun _ _ => verdict_type
  refine verdict_object rfl (.cons verdict_type (.cons hmapping .nil)) ?_
  simp [JsonType.of, Option.all_eq_true]

/-- A variant of the type, which the other alternatives do not admit. -/
theorem verdict_type_variant (name : String) {tag : String} {data : Value} {b : Bool}
    (hone : typeAlternatives.count name = 1)
    (hothers : ∀ n ∈ typeAlternatives, n ≠ name →
      (irDefs.lookup n).map (admits tag) = some false)
    (h : Verdict irDefs (.ref name) (serializeVariant tag data) b) :
    Verdict irDefs (.ref "Type") (serializeVariant tag data) b :=
  verdict_ref rfl
    (verdict_oneOf_ref_object (e := (tag, data)) List.mem_cons_self hone h hothers)

/-- What the schema admits as a type. -/
theorem verdict_irType (t : IrType) :
    Verdict irDefs (.ref "Type") t.serialize t.conforms := by
  induction t using IrType.induction with
  | scalar s =>
      apply verdict_type_variant "ScalarType" (by decide) (by decide)
      apply verdict_ref rfl
      apply verdict_variant
      apply verdict_ref rfl
      cases s with
      | base64 => exact verdict_enum
      | binary => exact verdict_enum
      | _ => exact verdict_enum
  | stringEnum variants nullable =>
      apply verdict_type_variant "StringEnumType" (by decide) (by decide)
      apply verdict_ref rfl
      apply verdict_variant
      exact verdict_object rfl (.cons verdict_texts (.cons verdict_type .nil)) rfl
  | array item nullable ih =>
      apply verdict_type_variant "ArrayType" (by decide) (by decide)
      apply verdict_ref rfl
      apply verdict_variant
      exact verdict_object rfl (.cons ih (.cons verdict_type .nil)) (Bool.and_true _)
  | map value ih =>
      apply verdict_type_variant "MapType" (by decide) (by decide)
      apply verdict_ref rfl
      apply verdict_variant
      exact verdict_object rfl (.cons ih .nil) (Bool.and_true _)
  | reference name nullable description =>
      apply verdict_type_variant "ReferenceType" (by decide) (by decide)
      apply verdict_ref rfl
      apply verdict_variant
      -- the description is written, absent or not, and the schema does not name it
      apply verdict_object_extra (e := ("description", serializeOption .string description))
      · simp
      · rfl
  | composition kind members discriminator ih =>
      apply verdict_type_variant "CompositionType" (by decide) (by decide)
      apply verdict_ref rfl
      apply verdict_variant
      have hkind : Verdict irDefs (.ref "CompositionKind") kind.serialize true := by
        apply verdict_ref rfl
        cases kind with
        | _ => exact verdict_enum
      have hmembers : Verdict irDefs (.array (.ref "Type")) (.array (serializeMembers members))
          (membersConform members) := by
        rw [serializeMembers_eq_map, membersConform_eq_all]
        exact verdict_array ih
      have hdiscriminator : Verdict irDefs (.oneOf [.ref "Discriminator", .type [.null]])
          (serializeOption Discriminator.serialize discriminator)
          (discriminator.all fun _ => true) := by
        apply verdict_option
        · exact verdict_ref rfl (verdict_of_succ (N := 0) fun _ _ => rfl)
        · intro d h
          cases h
        · intro d _
          exact verdict_discriminator d
      apply verdict_ref rfl
      refine verdict_object rfl
        (.cons hkind (.cons hmembers (.cons hdiscriminator .nil))) ?_
      simp [IrType.conforms]
  | any =>
      refine ⟨4, fun n hn => ?_⟩
      obtain ⟨n, rfl⟩ := Nat.exists_eq_add_of_le' hn
      rfl
  | unknown =>
      refine ⟨4, fun n hn => ?_⟩
      obtain ⟨n, rfl⟩ := Nat.exists_eq_add_of_le' hn
      rfl

/-! ## §4  Documents -/

theorem verdict_enumModel (e : EnumModel) :
    Verdict irDefs (.ref "EnumModel") (Model.enum e).serialize true := by
  have hvariants : Verdict irDefs (.array (.ref "EnumVariant"))
      (.array (e.variants.map EnumVariant.serialize)) (e.variants.all fun _ => true) := by
    apply verdict_array
    intro v _
    apply verdict_ref rfl
    exact verdict_object rfl (.cons verdict_type (.cons verdict_text .nil)) rfl
  rw [List.all_eq_true.mpr fun _ _ => rfl] at hvariants
  have henum : Verdict irDefs (.object ["name", "variants"] [
      ("name", .type [.string]),
      ("description", .type [.string, .null]),
      ("variants", .array (.ref "EnumVariant"))] (.bool false)) e.serialize true :=
    verdict_object rfl (.cons verdict_type (.cons verdict_text (.cons hvariants .nil))) rfl
  apply verdict_ref rfl
  exact verdict_object rfl (.cons henum .nil) rfl

/-- Every model is an `EnumModel` for the schema: what is required of an `ObjectModel` stands
one level too high, and an `EnumModel` may have any other member. -/
theorem verdict_model (m : Model) : Verdict irDefs (.ref "Model") m.serialize true := by
  have hobject : Verdict irDefs (.ref "ObjectModel") m.serialize false := by
    apply verdict_ref rfl
    cases m with
    | object o => exact verdict_object_missing (k := "name") List.mem_cons_self rfl
    | enum e => exact verdict_object_missing (k := "name") List.mem_cons_self rfl
  have henum : Verdict irDefs (.ref "EnumModel") m.serialize true := by
    cases m with
    | object o =>
        apply verdict_ref rfl
        exact verdict_object rfl (.cons verdict_bool .nil) rfl
    | enum e => exact verdict_enumModel e
  apply verdict_ref rfl
  exact verdict_oneOf (.cons hobject (.cons henum .nil))

theorem verdict_registry (r : SchemaRegistry) :
    Verdict irDefs (.ref "SchemaRegistry") r.serialize true := by
  have hmodels : Verdict irDefs (.object [] [] (.ref "Model"))
      (.object (r.models.entries.map fun e => (e.1, e.2.serialize)))
      (r.models.entries.all fun _ => true) :=
    verdict_object_map fun e _ => verdict_model e.2
  rw [List.all_eq_true.mpr fun _ _ => rfl] at hmodels
  apply verdict_ref rfl
  exact verdict_object rfl (.cons hmodels .nil) rfl

def SecurityScheme.conforms : SecurityScheme → Bool
  | .httpBearer => false
  | .apiKey _ => true

theorem verdict_securityScheme (s : SecurityScheme) :
    Verdict irDefs (.ref "SecurityScheme") s.serialize s.conforms := by
  apply verdict_ref rfl
  cases s with
  | httpBearer =>
      refine ⟨2, fun n hn => ?_⟩
      obtain ⟨n, rfl⟩ := Nat.exists_eq_add_of_le' hn
      rfl
  | apiKey header =>
      have hheader : Verdict irDefs (.object ["header"] [("header", .type [.string])]
          (.bool false)) (.object [("header", .string header)]) true :=
        verdict_object rfl (.cons verdict_type .nil) rfl
      exact verdict_oneOf (.cons (verdict_object_extra (e := ("ApiKey", _))
        List.mem_cons_self rfl) (.cons (verdict_variant hheader) .nil))

/-- The retry policy is written, absent or not, and the schema does not name it. -/
theorem verdict_operation (op : Operation) :
    Verdict irDefs (.ref "Operation") op.serialize false := by
  apply verdict_ref rfl
  apply verdict_object_extra
    (e := ("retry_policy", serializeOption RetryPolicy.serialize op.retryPolicy))
  · simp
  · rfl

/-- **With an open root the documents without operations and bearer authentication conform.** -/
theorem verdict_open_document (d : Document) :
    Verdict irDefs (irRoot (.bool true)) d.serialize
      (d.security.all SecurityScheme.conforms && d.operations.isEmpty) := by
  have hsecurity : Verdict irDefs (.array (.ref "SecurityScheme"))
      (.array (d.security.map SecurityScheme.serialize))
      (d.security.all SecurityScheme.conforms) :=
    verdict_array fun s _ => verdict_securityScheme s
  have hoperations : Verdict irDefs (.array (.ref "Operation"))
      (.array (d.operations.map Operation.serialize)) (d.operations.all fun _ => false) :=
    verdict_array fun op _ => verdict_operation op
  have hempty : (d.operations.all fun _ => false) = d.operations.isEmpty := by
    cases d.operations with
    | nil => rfl
    | cons op ops => rfl
  rw [hempty] at hoperations
  refine verdict_object rfl (.cons verdict_bool (.cons verdict_type (.cons verdict_type
    (.cons verdict_text (.cons hsecurity (.cons (verdict_registry d.schemas)
      (.cons hoperations (.cons verdict_bool .nil)))))))) ?_
  simp [JsonType.of]

end SpecForge
