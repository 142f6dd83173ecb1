import SpecForge.Core.Downgraded
import SpecForge.Core.OpenApi

/-!
# Decoding schemas

The decoder of schemas (`openapiv3`) is not part of the program and is a parameter here: an
object is decoded as the first of the variants of a schema that its keywords fit (§1). Which
one that is for a downgraded schema can be read off the raw one (§2).
-/

namespace SpecForge

open Lib
open OpenApi (ReferenceOr Schema SchemaData SchemaKind OApiType AdditionalProperties StringFormat
  VariantOrUnknownOrEmpty)

/-! ## §1  The decoder -/

inductive TypeName where
  | string
  | number
  | integer
  | boolean
  | array
  | object
deriving DecidableEq

namespace TypeName

def ofStr : String → Option TypeName
  | "string" => some .string
  | "number" => some .number
  | "integer" => some .integer
  | "boolean" => some .boolean
  | "array" => some .array
  | "object" => some .object
  | _ => none

/-- A value that an `enum` of the type may list. -/
def lists (T : TypeName) (v : Value) : Bool :=
  v.isNull || match T with
    | .string => v.isString
    | .number => v.isNumber
    | .integer => v.isI64
    | .boolean => v.isBoolean
    | .array | .object => true

/-- The `enum` of arrays and objects is not read. -/
def enumFits (T : TypeName) (enumeration : Option Value) : Bool :=
  T == .array || T == .object || match enumeration with
    | some v => match v.asArray with
        | some xs => xs.all T.lists
        | none => false
    | none => true

end TypeName

def typeNamed (type : Option Value) : Option TypeName := (type.bind Value.asStr).bind TypeName.ofStr

/-- What a schema is decoded as. -/
inductive Variant where
  | reference (ref : String)
  | typed (T : TypeName)
  | oneOf
  | allOf (members : List Value)
  | anyOf
  | not
  | any

def Variant.map (f : Value → Value) : Variant → Variant
  | .allOf members => .allOf (members.map f)
  | w => w

/-- The schemas of a list of them, if each is one. -/
def schemaList (readable : Value → Bool) (o : Option Value) : Option (List Value) :=
  (o.bind Value.asArray).filter (·.all readable)

/-- The first variant that fits. Of the keywords of a type, those but `enum` are up to `fits`. -/
def variantOf (readable : Value → Bool) (fits : TypeName → Bool) (get : String → Option Value) :
    Variant :=
  match (get "$ref").bind Value.asStr with
  | some ref => .reference ref
  | none =>
      match (typeNamed (get "type")).filter fun T => T.enumFits (get "enum") && fits T with
      | some T => .typed T
      | none =>
          if (schemaList readable (get "oneOf")).isSome then .oneOf
          else match schemaList readable (get "allOf") with
            | some members => .allOf members
            | none =>
                if (schemaList readable (get "anyOf")).isSome then .anyOf
                else if (get "not").any readable then .not
                else .any

structure Decoder where
  decode : Value → Option (ReferenceOr Schema)
  /-- The other keywords of an object are such as the type has them. -/
  fits : TypeName → Value → Bool

/-- An optional member may be `null`. -/
def present (o : Option Value) : Option Value := o.filter fun v => !v.isNull

def readFormat (o : Option Value) : VariantOrUnknownOrEmpty StringFormat :=
  match o.bind Value.asStr with
  | none => .empty
  | some "date" => .item .date
  | some "date-time" => .item .dateTime
  | some "password" => .item .password
  | some "byte" => .item .byte
  | some "binary" => .item .binary
  | some s => .unknown s

def readIntegerFormat (o : Option Value) : VariantOrUnknownOrEmpty OpenApi.IntegerFormat :=
  match o.bind Value.asStr with
  | none => .empty
  | some "int32" => .item .int32
  | some "int64" => .item .int64
  | some s => .unknown s

def readEnum (o : Option Value) : List (Option String) :=
  ((o.bind Value.asArray).getD []).map Value.asStr

structure ReadsData (v : Value) (data : SchemaData) : Prop where
  nullable : data.nullable = true ↔ v.get "nullable" = some (.bool true)
  deprecated : data.deprecated = true ↔ v.get "deprecated" = some (.bool true)
  title : data.title = (v.get "title").bind Value.asStr
  description : data.description = (v.get "description").bind Value.asStr

section

-- How a schema `v` is decoded, given how those inside it are.
variable (decode : Value → Option (ReferenceOr Schema)) (v : Value)

inductive ReadsOptional : Option Value → Option (ReferenceOr Schema) → Prop where
  | none : ReadsOptional none none
  | some {v r} : decode v = some r → ReadsOptional (some v) (some r)

inductive ReadsAdditional : Option Value → Option AdditionalProperties → Prop where
  | none : ReadsAdditional none none
  | any {b} : ReadsAdditional (some (.bool b)) (some (.any b))
  | schema {v r} : v.isBoolean = false → decode v = some r →
      ReadsAdditional (some v) (some (.schema r))

inductive ReadsType : TypeName → OApiType → Prop where
  | string : ReadsType .string
      (.string ⟨readFormat (v.get "format"), readEnum (v.get "enum")⟩)
  | number : ReadsType .number .number
  | integer : ReadsType .integer (.integer ⟨readIntegerFormat (v.get "format")⟩)
  | boolean : ReadsType .boolean .boolean
  | array {items} : ReadsOptional decode (present (v.get "items")) items →
      ReadsType .array (.array items)
  | object {o} :
      ReadsAdditional decode (present (v.get "additionalProperties")) o.additionalProperties →
      ReadsType .object (.object o)

inductive ReadsKind : Variant → SchemaKind → Prop where
  | typed {T t} : ReadsType decode v T t → ReadsKind (.typed T) (.type t)
  | oneOf {rs} : ReadsKind .oneOf (.oneOf rs)
  | allOf {members rs} : List.Forall₂ (fun m r => decode m = some r) members rs →
      ReadsKind (.allOf members) (.allOf rs)
  | anyOf {rs} : ReadsKind .anyOf (.anyOf rs)
  | not : ReadsKind .not .not
  | any : ReadsKind .any .any

inductive Reads : Variant → ReferenceOr Schema → Prop where
  | reference {ref} : Reads (.reference ref) (.reference ref)
  | item {w data kind} : ReadsData v data → ReadsKind decode v w kind →
      Reads w (.item ⟨data, kind⟩)

end

namespace Decoder

def reads (D : Decoder) (v : Value) : Bool := (D.decode v).isSome

def variant (D : Decoder) (v : Value) : Variant := variantOf D.reads (D.fits · v) v.get

/-- What is known of the decoder: of a schema that it accepts it reads the keywords as
OpenAPI 3.0 means them. -/
structure Lawful (D : Decoder) : Prop where
  isObject : ∀ v r, D.decode v = some r → v.isObject = true
  reads : ∀ v r, D.decode v = some r → Reads D.decode v (D.variant v) r

end Decoder

/-! ## §2  Downgraded schemas -/

/-- A reference with siblings as an `allOf`. -/
def wrapSiblings (obj : List (String × Value)) : List (String × Value) :=
  match siblingRef obj with
  | some ref => refWrapper ref (BTreeMap.removeKey "$ref" obj)
  | none => obj

/-- A raw schema with its own keywords downgraded, and those inside it as they were. -/
def Value.rewritten : Value → Value
  | .object obj => .object (downgradeKeywords (wrapSiblings obj))
  | v => v

/-- The variant that the decoder finds once the schema is downgraded. -/
def Decoder.rawVariant (D : Decoder) (v : Value) : Variant :=
  variantOf (fun m => D.reads (downgraded m)) (D.fits · (downgraded v)) v.rewritten.get

section

variable {obj : List (String × Value)} {k ref : String} {v : Value} {D : Decoder}

theorem siblingRef_wrapSiblings (obj : List (String × Value)) :
    siblingRef (wrapSiblings obj) = none := by
  unfold wrapSiblings
  split
  · rfl
  · assumption

theorem downgraded_reference (ref : String) :
    downgraded (.object [("$ref", .string ref)]) = .object [("$ref", .string ref)] := by
  have hbare : siblingRef [("$ref", Value.string ref)] = none := by
    show (if ref ≠ "" ∧ ([] : List (String × Value)) ≠ [] then some ref else none) = none
    rw [if_neg fun h => h.2 rfl]
  rw [downgraded_object hbare]
  rfl

theorem downgraded_wrapSiblings (obj : List (String × Value)) :
    downgraded (.object (wrapSiblings obj)) = downgraded (.object obj) := by
  cases h : siblingRef obj with
  | none => rw [wrapSiblings, h]
  | some ref =>
      have hmembers : downgraded (.array [.object [("$ref", .string ref)],
          .object (BTreeMap.removeKey "$ref" obj)]) = .array [.object [("$ref", .string ref)],
          downgraded (.object (BTreeMap.removeKey "$ref" obj))] := by
        rw [downgraded_array, List.map_cons, downgraded_reference, List.map_singleton]
      have hplain : downgraded (.object (refWrapper ref (BTreeMap.removeKey "$ref" obj))) =
          .object [("allOf", downgraded (.array [.object [("$ref", .string ref)],
            .object (BTreeMap.removeKey "$ref" obj)]))] := by
        rw [downgraded_object rfl]
        rfl
      rw [wrapSiblings, h, downgraded_wrapper h]
      dsimp only
      rw [hplain, hmembers]

/-- The keywords of the downgraded schema are those of the rewritten one, downgraded inside. -/
theorem get_downgraded_rewritten (hk : k ∉ ["exclusiveMinimum", "exclusiveMaximum", "required"]) :
    (downgraded v).get k = (v.rewritten.get k).map downgraded := by
  cases v with
  | object obj =>
      rw [← downgraded_wrapSiblings, get_downgraded_keyword (siblingRef_wrapSiblings obj) hk]
      rfl
  | array xs =>
      rw [downgraded_array]
      rfl
  | _ => rfl

/-- Objects stay objects, arrays are mapped, and the rest stays as it is. -/
theorem downgraded_shape {P : Value → Value → Prop} (hobject : ∀ o o', P (.object o) (.object o'))
    (harray : ∀ xs, P (.array xs) (.array (xs.map downgraded)))
    (hrest : ∀ v, v.isObject = false → v.asArray = none → P v v) (v : Value) :
    P v (downgraded v) := by
  cases v with
  | object obj =>
      rw [← downgraded_wrapSiblings, downgraded_object (siblingRef_wrapSiblings obj)]
      exact hobject _ _
  | array xs =>
      rw [downgraded_array]
      exact harray xs
  | _ => exact hrest _ rfl rfl

theorem asStr_downgraded (v : Value) : (downgraded v).asStr = v.asStr := by
  rw [downgraded, asStr_downgradeValue, asStr_extractRefSiblings]

theorem isNull_downgraded (v : Value) : (downgraded v).isNull = v.isNull :=
  downgraded_shape (P := fun v w => w.isNull = v.isNull) (fun _ _ => rfl) (fun _ => rfl)
    (fun _ _ _ => rfl) v

theorem isBoolean_downgraded (v : Value) : (downgraded v).isBoolean = v.isBoolean :=
  downgraded_shape (P := fun v w => w.isBoolean = v.isBoolean) (fun _ _ => rfl) (fun _ => rfl)
    (fun _ _ _ => rfl) v

theorem asArray_downgraded (v : Value) :
    (downgraded v).asArray = v.asArray.map (·.map downgraded) :=
  downgraded_shape (P := fun v w => w.asArray = v.asArray.map (·.map downgraded))
    (fun _ _ => rfl) (fun _ => rfl) (fun v _ harray => by rw [harray, Option.map_none]) v

theorem lists_downgraded (T : TypeName) (v : Value) : T.lists (downgraded v) = T.lists v :=
  downgraded_shape (P := fun v w => T.lists w = T.lists v) (fun _ _ => by cases T <;> rfl)
    (fun _ => by cases T <;> rfl) (fun _ _ _ => rfl) v

theorem enumFits_downgraded (T : TypeName) (o : Option Value) :
    T.enumFits (o.map downgraded) = T.enumFits o := by
  unfold TypeName.enumFits
  cases o with
  | none => rfl
  | some v =>
      have hlists : T.lists ∘ downgraded = T.lists := funext (lists_downgraded T)
      rw [Option.map_some]
      dsimp only
      rw [asArray_downgraded]
      cases v.asArray with
      | none => rfl
      | some xs => rw [Option.map_some]; dsimp only; rw [List.all_map, hlists]

theorem bind_asStr_downgraded (o : Option Value) :
    (o.map downgraded).bind Value.asStr = o.bind Value.asStr := by
  cases o with
  | none => rfl
  | some v => exact asStr_downgraded v

theorem schemaList_downgraded (readable : Value → Bool) (o : Option Value) :
    schemaList readable (o.map downgraded) =
      (schemaList (fun m => readable (downgraded m)) o).map (·.map downgraded) := by
  unfold schemaList
  cases o with
  | none => rfl
  | some v =>
      show (downgraded v).asArray.filter _ = (v.asArray.filter _).map _
      rw [asArray_downgraded]
      cases v.asArray with
      | none => rfl
      | some xs =>
          have hall : (xs.map downgraded).all readable =
              xs.all fun m => readable (downgraded m) := List.all_map
          rw [Option.map_some, Option.filter_some, Option.filter_some, hall]
          split <;> rfl

/-- **The variant of a downgraded schema is found in the raw one.** -/
theorem variant_downgraded (D : Decoder) (v : Value) :
    D.variant (downgraded v) = (D.rawVariant v).map downgraded := by
  have hget : ∀ k ∈ ["$ref", "type", "enum", "oneOf", "allOf", "anyOf", "not"],
      (downgraded v).get k = (v.rewritten.get k).map downgraded := by
    intro k hk
    refine get_downgraded_rewritten ?_
    revert k
    decide
  unfold Decoder.variant Decoder.rawVariant variantOf
  rw [hget "$ref" (by decide), hget "type" (by decide), hget "enum" (by decide),
    hget "oneOf" (by decide), hget "allOf" (by decide), hget "anyOf" (by decide),
    hget "not" (by decide), bind_asStr_downgraded, typeNamed, bind_asStr_downgraded,
    schemaList_downgraded, schemaList_downgraded, schemaList_downgraded, Option.isSome_map,
    Option.isSome_map, Option.any_map]
  simp only [enumFits_downgraded]
  cases (v.rewritten.get "$ref").bind Value.asStr with
  | some ref => rfl
  | none =>
      dsimp only
      rw [typeNamed]
      split
      · rfl
      · split
        · rfl
        · cases schemaList (fun m => D.reads (downgraded m)) (v.rewritten.get "allOf") with
          | some members => rfl
          | none =>
              dsimp only [Option.map_none]
              split
              · rfl
              · show (if (v.rewritten.get "not").any fun m => D.reads (downgraded m) then
                  Variant.not else .any) = _
                split <;> rfl

theorem map_downgraded_eq_bool_iff {o : Option Value} {b : Bool} :
    o.map downgraded = some (.bool b) ↔ o = some (.bool b) := by
  cases o with
  | none => simp
  | some v =>
      rw [Option.map_some, Option.some.injEq, Option.some.injEq]
      exact downgraded_shape (P := fun v w => w = .bool b ↔ v = .bool b)
        (fun _ _ => by simp) (fun _ => by simp) (fun _ _ _ => Iff.rfl) v

theorem present_downgraded (o : Option Value) :
    present (o.map downgraded) = (present o).map downgraded := by
  cases o with
  | none => rfl
  | some v =>
      rw [Option.map_some, present, present, Option.filter_some, Option.filter_some,
        isNull_downgraded]
      split <;> rfl

theorem readEnum_downgraded (o : Option Value) : readEnum (o.map downgraded) = readEnum o := by
  have hasStr : Value.asStr ∘ downgraded = Value.asStr := funext asStr_downgraded
  unfold readEnum
  cases o with
  | none => rfl
  | some v =>
      rw [Option.map_some, Option.bind_some, Option.bind_some, asArray_downgraded]
      cases v.asArray with
      | none => rfl
      | some xs => rw [Option.map_some, Option.getD_some, Option.getD_some, List.map_map, hasStr]

theorem readsOptional_downgraded {decode : Value → Option (ReferenceOr Schema)}
    {o : Option Value} {items : Option (ReferenceOr Schema)}
    (h : ReadsOptional decode (o.map downgraded) items) :
    ReadsOptional (fun m => decode (downgraded m)) o items := by
  cases o with
  | none =>
      cases h with
      | none => exact .none
  | some v =>
      cases h with
      | some hr => exact .some hr

theorem readsAdditional_downgraded {decode : Value → Option (ReferenceOr Schema)}
    {o : Option Value} {a : Option AdditionalProperties}
    (h : ReadsAdditional decode (o.map downgraded) a) :
    ReadsAdditional (fun m => decode (downgraded m)) o a := by
  generalize ho : o.map downgraded = o' at h
  cases h with
  | none =>
      obtain rfl := Option.map_eq_none_iff.mp ho
      exact .none
  | any =>
      obtain rfl := map_downgraded_eq_bool_iff.mp ho
      exact .any
  | schema hbool hr =>
      obtain ⟨v, rfl, rfl⟩ := Option.map_eq_some_iff.mp ho
      exact .schema ((isBoolean_downgraded v).symm.trans hbool) hr

theorem readsData_downgraded {data : SchemaData} (h : ReadsData (downgraded v) data) :
    ReadsData v.rewritten data where
  nullable := by
    rw [h.nullable, get_downgraded_rewritten (k := "nullable") (by decide),
      map_downgraded_eq_bool_iff]
  deprecated := by
    rw [h.deprecated, get_downgraded_rewritten (k := "deprecated") (by decide),
      map_downgraded_eq_bool_iff]
  title := by
    rw [h.title, get_downgraded_rewritten (k := "title") (by decide), bind_asStr_downgraded]
  description := by
    rw [h.description, get_downgraded_rewritten (k := "description") (by decide),
      bind_asStr_downgraded]

theorem readsType_downgraded {decode : Value → Option (ReferenceOr Schema)} {T : TypeName}
    {t : OApiType} (h : ReadsType decode (downgraded v) T t) :
    ReadsType (fun m => decode (downgraded m)) v.rewritten T t := by
  cases h with
  | string =>
      rw [get_downgraded_rewritten (k := "format") (by decide),
        get_downgraded_rewritten (k := "enum") (by decide), readEnum_downgraded, readFormat,
        bind_asStr_downgraded]
      exact .string
  | number => exact .number
  | integer =>
      rw [get_downgraded_rewritten (k := "format") (by decide), readIntegerFormat,
        bind_asStr_downgraded]
      exact .integer
  | boolean => exact .boolean
  | array hitems =>
      rw [get_downgraded_rewritten (k := "items") (by decide), present_downgraded] at hitems
      exact .array (readsOptional_downgraded hitems)
  | object hadditional =>
      rw [get_downgraded_rewritten (k := "additionalProperties") (by decide),
        present_downgraded] at hadditional
      exact .object (readsAdditional_downgraded hadditional)

theorem readsKind_downgraded {decode : Value → Option (ReferenceOr Schema)} {w : Variant}
    {kind : SchemaKind} (h : ReadsKind decode (downgraded v) (w.map downgraded) kind) :
    ReadsKind (fun m => decode (downgraded m)) v.rewritten w kind := by
  cases w with
  | reference ref => cases h
  | typed T =>
      cases h with
      | typed htype => exact .typed (readsType_downgraded htype)
  | oneOf =>
      cases h
      exact .oneOf
  | allOf members =>
      cases h with
      | allOf hmembers => exact .allOf (List.forall₂_map_left_iff.mp hmembers)
  | anyOf =>
      cases h
      exact .anyOf
  | not =>
      cases h
      exact .not
  | any =>
      cases h
      exact .any

/-- **A downgraded schema is decoded by its rewritten keywords, with what is inside it
downgraded first.** -/
theorem reads_downgraded (hD : D.Lawful) {r : ReferenceOr Schema}
    (h : D.decode (downgraded v) = some r) :
    Reads (fun m => D.decode (downgraded m)) v.rewritten (D.rawVariant v) r := by
  have hreads := hD.reads _ _ h
  rw [variant_downgraded] at hreads
  generalize D.rawVariant v = w at hreads ⊢
  generalize hw' : w.map downgraded = w' at hreads
  cases hreads with
  | reference =>
      cases w <;> cases hw'
      exact .reference
  | item hdata hkind =>
      exact .item (readsData_downgraded hdata) (readsKind_downgraded (hw' ▸ hkind))

end

end SpecForge
