import SpecForge.Core.Spec

/-!
# Positions of a document

What a JSON value inside an OpenAPI document is for depends on where it stands: an object
may be a schema, a map from names to schemas, example data or a reference (§1). The
positions of a document (§2) and their counterparts in the downgraded one (§3) follow the
same grammar.
-/

namespace SpecForge

open Lib

/-! ## §1  Roles -/

/-- The objects of the OpenAPI grammar that positions are followed through. -/
inductive Kind where
  | components
  | pathItem
  | operation
  | parameter
  | requestBody
  | response
  | header
  | mediaType
  | encoding
  | callback
  | link
  | example
  | securityScheme
  | server
  | serverVariable
  | schema
deriving DecidableEq

/-- What a value is for. A map may allow `x-` extensions between its names. -/
inductive Role where
  | document
  | one (kind : Kind)
  | list (kind : Kind)
  | names (extensible : Bool) (kind : Kind)
  | schemas
  | literal
deriving DecidableEq

/-- A reference object may stand in place of such an object. -/
def Kind.referable : Kind → Bool
  | .pathItem | .parameter | .requestBody | .response | .header | .callback | .link | .example
  | .securityScheme => true
  | _ => false

def documentFields : List (String × Role) :=
  [("paths", .names true .pathItem), ("webhooks", .names false .pathItem),
    ("components", .one .components), ("servers", .list .server)]

def contentFields : List (String × Role) :=
  [("schema", .one .schema), ("example", .literal), ("examples", .names false .example),
    ("content", .names false .mediaType)]

/-- The fields of an object of a kind. A callback maps expressions to path items instead. -/
def Kind.fields : Kind → List (String × Role)
  | .components => [("schemas", .schemas), ("responses", .names false .response),
      ("parameters", .names false .parameter), ("examples", .names false .example),
      ("requestBodies", .names false .requestBody), ("headers", .names false .header),
      ("securitySchemes", .names false .securityScheme), ("links", .names false .link),
      ("callbacks", .names false .callback), ("pathItems", .names false .pathItem)]
  | .pathItem => [("parameters", .list .parameter), ("servers", .list .server),
      ("get", .one .operation), ("put", .one .operation), ("post", .one .operation),
      ("delete", .one .operation), ("options", .one .operation), ("head", .one .operation),
      ("patch", .one .operation), ("trace", .one .operation)]
  | .operation => [("parameters", .list .parameter), ("requestBody", .one .requestBody),
      ("responses", .names true .response), ("callbacks", .names false .callback),
      ("servers", .list .server)]
  | .parameter | .header => contentFields
  | .requestBody => [("content", .names false .mediaType)]
  | .response => [("headers", .names false .header), ("content", .names false .mediaType),
      ("links", .names false .link)]
  | .mediaType => [("schema", .one .schema), ("example", .literal),
      ("examples", .names false .example), ("encoding", .names false .encoding)]
  | .encoding => [("headers", .names false .header)]
  | .link => [("server", .one .server)]
  | .server => [("variables", .names false .serverVariable)]
  | .serverVariable => [("default", .literal), ("enum", .literal)]
  | .schema => [("properties", .schemas), ("items", .one .schema), ("not", .one .schema),
      ("additionalProperties", .one .schema), ("allOf", .list .schema), ("oneOf", .list .schema),
      ("anyOf", .list .schema), ("if", .one .schema), ("then", .one .schema),
      ("else", .one .schema), ("contains", .one .schema), ("propertyNames", .one .schema),
      ("unevaluatedItems", .one .schema), ("unevaluatedProperties", .one .schema),
      ("patternProperties", .names false .schema), ("dependentSchemas", .names false .schema),
      ("$defs", .names false .schema), ("example", .literal), ("default", .literal),
      ("enum", .literal)]
  | .callback | .example | .securityScheme => []

/-- A keyword that the downgrade replaces by another one: `items` beside `prefixItems`,
`enum` beside `const`. -/
def Value.replaced (v : Value) (k : String) : Bool :=
  (k == "items" && (v.asObject.bind firstPrefixItem).isSome) ||
    (k == "enum" && (v.get "const").isSome)

/-- The role of a member. -/
def Role.member (v : Value) (k : String) : Role → Option Role
  | .document => documentFields.lookup k
  | .one .callback => if k = "$ref" ∨ Text.startsWith "x-" k then none else some (.one .pathItem)
  | .one kind => if v.replaced k then none else kind.fields.lookup k
  | .names extensible kind => if extensible && Text.startsWith "x-" k then none else some (.one kind)
  | .schemas => some (.one .schema)
  | .list _ | .literal => none

/-- The object is a reference with other members next to it. -/
def Value.hasRefSiblings (v : Value) : Bool := ((v.asObject.bind siblingRef)).isSome

/-! ## §2  Positions in the document -/

/-- The members that a map from names loses when its names are taken for keywords. -/
def Value.displaces (v : Value) (k : String) : Bool :=
  decide (k ∈ removedKeywords) || (k == "enum" && (v.get "const").isSome)

/-- The member is lost on the way: its object is wrapped, or its name is taken for a keyword. -/
def Role.displaced (v : Value) (k : String) : Role → Bool
  | .one .schema => false
  | .one .callback => v.hasRefSiblings || v.displaces k
  | .document | .one _ => v.hasRefSiblings
  | .names _ _ | .schemas => v.displaces k
  | .list _ | .literal => false

/-- A value of the document with its role, and whether something on the way to it is lost. -/
inductive Place (doc : Value) : Role → Value → Bool → Prop where
  | root : Place doc .document doc false
  | member {r v lost k r' w} : Place doc r v lost → r.member v k = some r' → v.get k = some w →
      Place doc r' w (lost || r.displaced v k)
  | item {kind xs lost x} {i : ℕ} : Place doc (.list kind) (.array xs) lost → xs[i]? = some x →
      Place doc (.one kind) x lost
  | prefixItem {obj lost x} : Place doc (.one .schema) (.object obj) lost →
      firstPrefixItem obj = some x → Place doc (.one .schema) x lost

/-- The entries of maps are objects or booleans. -/
def EntriesOk (v : Value) : Role → Prop
  | .one .callback => ∀ k w, v.get k = some w → k ≠ "$ref" → ¬Text.startsWith "x-" k →
      w.isObject = true ∨ w.isBoolean = true
  | .names extensible _ => ∀ k w, v.get k = some w → ¬(extensible && Text.startsWith "x-" k) →
      w.isObject = true ∨ w.isBoolean = true
  | .schemas => ∀ k w, v.get k = some w → w.isObject = true ∨ w.isBoolean = true
  | _ => True

/-- A document whose maps have entries of the right kind. -/
def WellFormed (doc : Value) : Prop := ∀ r v lost, Place doc r v lost → EntriesOk v r

/-! ## §3  Counterparts -/

/-- Where the members of an object are after the downgrade: those of a schema that is a
reference with siblings are in the second member of an `allOf`. -/
def Role.body (v : Value) (o : Option Value) : Role → Option Value
  | .one .schema =>
      if v.hasRefSiblings then ((o.bind (·.get "allOf")).bind Value.asArray).bind (·[1]?) else o
  | _ => o

/-- A position of the document together with what `doc'` has there. -/
inductive Counterpart (doc doc' : Value) : Role → Value → Option Value → Prop where
  | root : Counterpart doc doc' .document doc (some doc')
  | member {r v o k r' w} : Counterpart doc doc' r v o → r.member v k = some r' →
      v.get k = some w → Counterpart doc doc' r' w ((r.body v o).bind (·.get k))
  | item {kind xs o x} {i : ℕ} : Counterpart doc doc' (.list kind) (.array xs) o → xs[i]? = some x →
      Counterpart doc doc' (.one kind) x ((o.bind Value.asArray).bind (·[i]?))
  | prefixItem {obj o x} : Counterpart doc doc' (.one .schema) (.object obj) o →
      firstPrefixItem obj = some x → Counterpart doc doc' (.one .schema) x
        ((Role.body (.object obj) o (.one .schema)).bind (·.get "items"))

/-- The downgrade may rewrite the keywords of schemas, but names, literal data and references
stay. -/
def Kept (v : Value) (o : Option Value) : Role → Prop
  | .schemas => ∃ v', o = some v' ∧ ∀ k, (v'.get k).isSome = (v.get k).isSome
  | .literal => o = some v
  | .one kind => kind.referable = true → ∀ ref, v.get "$ref" = some (.string ref) →
      o.bind (·.get "$ref") = some (.string ref)
  | _ => True

end SpecForge
