import SpecForge.Core.Json

/-!
# Inferring a schema from a sample (`infer.rs`)

- §1 `inferSchema`. An array is summarised by its first element.
- §2 `Accepts`: what the keywords it emits mean in OpenAPI 3.0.
- §3 `fits`: having the shape of a sample. The inferred schema accepts exactly
  the values that fit (`accepts_inferSchema_iff`), so a sample conforms to its
  own schema exactly if it fits itself.
-/

namespace SpecForge.Infer

/-! ## §1  Inference -/

/-- The patterns are crude: any text with a `T` and a `Z` is a date-time. -/
def inferStringSchema (s : String) : Value :=
  if s.toList.contains 'T' && s.toList.contains 'Z' then
    .object [("format", .string "date-time"), ("type", .string "string")]
  else if s.utf8ByteSize == 36 && s.toList.contains '-' then
    .object [("format", .string "uuid"), ("type", .string "string")]
  else .object [("type", .string "string")]

mutual

/-- The `name` never reaches the schema. -/
def inferSchema (json : Value) (name : String) : Value :=
  match json with
  | .null => .object [("nullable", .bool true), ("type", .string "string")]
  | .bool _ => .object [("type", .string "boolean")]
  | .number n =>
      if n.isI64 || n.isU64 then .object [("type", .string "integer")]
      else .object [("type", .string "number")]
  | .string s => inferStringSchema s
  | .array [] =>
      .object [("items", .object [("type", .string "string")]), ("type", .string "array")]
  | .array (v :: _) =>
      .object [("items", inferSchema v (name ++ "Item")), ("type", .string "array")]
  | .object obj => .object [
      ("properties", .object (inferProperties obj)),
      ("required", .array (obj.map fun e => .string e.1)),
      ("type", .string "object")]

/-- The loop over the members. They come by increasing key, each key once, so
the inserted properties are laid out in the same order. -/
def inferProperties : List (String × Value) → List (String × Value)
  | [] => []
  | (k, v) :: rest => (k, inferSchema v k) :: inferProperties rest

end

theorem inferProperties_eq (obj : List (String × Value)) :
    inferProperties obj = obj.map fun e => (e.1, inferSchema e.2 e.1) := by
  induction obj with
  | nil => rw [inferProperties, List.map_nil]
  | cons e rest ih =>
      obtain ⟨k, v⟩ := e
      rw [inferProperties, ih, List.map_cons]

/-! ## §2  What the keywords mean -/

/-- The values of a `type`. An integer is written without fraction and exponent. -/
def ofType (type : String) (v : Value) : Bool :=
  if type = "string" then v.isString
  else if type = "integer" then v.isI64 || v.isU64
  else if type = "number" then v.isNumber
  else if type = "boolean" then v.isBoolean
  else if type = "array" then v.asArray.isSome
  else if type = "object" then v.isObject
  else false

/-- `v` is accepted by a schema with the keywords `type`, `nullable`, `items`,
`properties` and `required`; `format` is an annotation. -/
inductive Accepts : Value → Value → Prop where
  | intro {keywords : List (String × Value)} {v : Value}
      (type : ∀ t, keywords.lookup "type" = some (.string t) →
        ofType t v = true ∨ (keywords.lookup "nullable" = some (.bool true) ∧ v = .null))
      (items : ∀ s, keywords.lookup "items" = some s → ∀ xs, v = .array xs →
        ∀ x ∈ xs, Accepts s x)
      (properties : ∀ props, keywords.lookup "properties" = some (.object props) →
        ∀ obj, v = .object obj → ∀ p ∈ props, ∀ x, obj.lookup p.1 = some x → Accepts p.2 x)
      (required : ∀ names, keywords.lookup "required" = some (.array names) →
        ∀ obj, v = .object obj → ∀ k, Value.string k ∈ names → ∃ x, obj.lookup k = some x) :
      Accepts (.object keywords) v

theorem accepts_object {keywords : List (String × Value)} {v : Value} :
    Accepts (.object keywords) v ↔
      (∀ t, keywords.lookup "type" = some (.string t) →
        ofType t v = true ∨ (keywords.lookup "nullable" = some (.bool true) ∧ v = .null)) ∧
      (∀ s, keywords.lookup "items" = some s → ∀ xs, v = .array xs → ∀ x ∈ xs, Accepts s x) ∧
      (∀ props, keywords.lookup "properties" = some (.object props) →
        ∀ obj, v = .object obj → ∀ p ∈ props, ∀ x, obj.lookup p.1 = some x → Accepts p.2 x) ∧
      ∀ names, keywords.lookup "required" = some (.array names) →
        ∀ obj, v = .object obj → ∀ k, Value.string k ∈ names → ∃ x, obj.lookup k = some x := by
  constructor
  · rintro ⟨htype, hitems, hprops, hreq⟩
    exact ⟨htype, hitems, hprops, hreq⟩
  · rintro ⟨htype, hitems, hprops, hreq⟩
    exact .intro htype hitems hprops hreq

/-- A schema that only names its type. -/
theorem accepts_type {t : String} {v : Value} :
    Accepts (.object [("type", .string t)]) v ↔ ofType t v = true := by
  rw [accepts_object]
  simp [List.lookup_cons]

theorem accepts_format {format t : String} {v : Value} :
    Accepts (.object [("format", .string format), ("type", .string t)]) v ↔
      ofType t v = true := by
  rw [accepts_object]
  simp [List.lookup_cons]

theorem accepts_nullable {t : String} {v : Value} :
    Accepts (.object [("nullable", .bool true), ("type", .string t)]) v ↔
      ofType t v = true ∨ v = .null := by
  rw [accepts_object]
  simp [List.lookup_cons]

theorem accepts_array {s v : Value} :
    Accepts (.object [("items", s), ("type", .string "array")]) v ↔
      ∃ xs, v = .array xs ∧ ∀ x ∈ xs, Accepts s x := by
  rw [accepts_object]
  cases v with
  | array xs => simp [List.lookup_cons, ofType, Value.asArray]
  | _ => simp [List.lookup_cons, ofType, Value.asArray]

theorem accepts_properties {props : List (String × Value)} {names : List Value} {v : Value} :
    Accepts (.object [("properties", .object props), ("required", .array names),
      ("type", .string "object")]) v ↔
      ∃ obj, v = .object obj ∧
        (∀ p ∈ props, ∀ x, obj.lookup p.1 = some x → Accepts p.2 x) ∧
        ∀ k, Value.string k ∈ names → ∃ x, obj.lookup k = some x := by
  rw [accepts_object]
  cases v with
  | object obj => simp [List.lookup_cons, ofType, Value.isObject]
  | _ => simp [List.lookup_cons, ofType, Value.isObject]

/-! ## §3  Shapes -/

mutual

/-- `x` has the shape the sample `a` stands for: `null` stands for a nullable
string, an array for arrays of what its first element stands for (of strings, if it
is empty), an object for objects that have at least its members. -/
def fits (a x : Value) : Bool :=
  match a with
  | .null => x.isString || x.isNull
  | .bool _ => x.isBoolean
  | .number n => if n.isI64 || n.isU64 then x.isI64 || x.isU64 else x.isNumber
  | .string _ => x.isString
  | .array [] => x.asArray.any (·.all Value.isString)
  | .array (v :: _) => x.asArray.any (·.all (fits v))
  | .object obj => x.asObject.any (fitsMembers obj)

def fitsMembers : List (String × Value) → List (String × Value) → Bool
  | [], _ => true
  | (k, v) :: rest, entries =>
      (match entries.lookup k with
        | some x => fits v x
        | none => false) && fitsMembers rest entries

end

theorem fitsMembers_iff {obj entries : List (String × Value)} :
    fitsMembers obj entries = true ↔
      ∀ e ∈ obj, ∃ x, entries.lookup e.1 = some x ∧ fits e.2 x = true := by
  induction obj with
  | nil => simp [fitsMembers]
  | cons e rest ih =>
      obtain ⟨k, v⟩ := e
      rw [fitsMembers, Bool.and_eq_true, ih, List.forall_mem_cons]
      refine and_congr ?_ Iff.rfl
      cases entries.lookup k with
      | none => simp
      | some x => simp

theorem accepts_inferStringSchema {s : String} {v : Value} :
    Accepts (inferStringSchema s) v ↔ v.isString = true := by
  unfold inferStringSchema
  split
  · exact accepts_format
  · split
    · exact accepts_format
    · exact accepts_type

/-- **The inferred schema accepts exactly what fits the sample.** -/
theorem accepts_inferSchema_iff (a : Value) :
    ∀ name x, Accepts (inferSchema a name) x ↔ fits a x = true := by
  induction a using Value.induction with
  | null =>
      intro name x
      rw [inferSchema, fits, accepts_nullable, Bool.or_eq_true, Value.isNull_iff]
      exact Iff.rfl
  | bool b =>
      intro name x
      rw [inferSchema, fits, accepts_type]
      exact Iff.rfl
  | number n =>
      intro name x
      rw [inferSchema, fits]
      cases n.isI64 || n.isU64 with
      | true => exact accepts_type
      | false => exact accepts_type
  | string s =>
      intro name x
      rw [inferSchema, fits]
      exact accepts_inferStringSchema
  | array items ih =>
      intro name x
      cases items with
      | nil =>
          rw [inferSchema, fits, accepts_array]
          simp only [accepts_type]
          cases x with
          | array xs => simp [Value.asArray, ofType]
          | _ => simp [Value.asArray]
      | cons v rest =>
          have hv := ih v List.mem_cons_self
          rw [inferSchema, fits, accepts_array]
          simp only [hv]
          cases x with
          | array xs => simp [Value.asArray]
          | _ => simp [Value.asArray]
  | object obj ih =>
      intro name x
      rw [inferSchema, fits, accepts_properties, inferProperties_eq]
      cases x with
      | object entries =>
          simp only [Value.object.injEq, exists_eq_left', Value.asObject, Option.any_some,
            fitsMembers_iff, List.forall_mem_map]
          constructor
          · rintro ⟨hprops, hreq⟩ e he
            obtain ⟨x, hx⟩ := hreq e.1 (List.mem_map_of_mem he)
            exact ⟨x, hx, (ih e he e.1 x).mp (hprops e he x hx)⟩
          · intro hall
            constructor
            · intro e he x hx
              obtain ⟨y, hy, hfit⟩ := hall e he
              rw [hx] at hy
              cases hy
              exact (ih e he e.1 x).mpr hfit
            · intro k hk
              obtain ⟨e, he, heq⟩ := List.mem_map.mp hk
              cases heq
              obtain ⟨x, hx, -⟩ := hall e he
              exact ⟨x, hx⟩
      | _ => simp [Value.asObject]

/-- **A sample conforms to the schema inferred from it exactly if it fits its own
shape**: in every array all elements have the shape of the first. -/
theorem sample_conforms_iff (v : Value) (name : String) :
    Accepts (inferSchema v name) v ↔ fits v v = true :=
  accepts_inferSchema_iff v name v

/-- An array of a number and a text is summarised by the number. -/
theorem mixed_array_rejected :
    ¬Accepts (inferSchema (.array [.number (.posInt 1), .string "a"]) "sample")
      (.array [.number (.posInt 1), .string "a"]) := by
  rw [accepts_inferSchema_iff]
  decide

end SpecForge.Infer
