import SpecForge.Core.ResolvedObjects
import SpecForge.Native.Rust

/-!
# Integers of the Rust models

The width of an integer is decided twice: `type_to_ir` gives a schema its scalar and
`render_type` gives the scalar its Rust type. The format of the schema is read by neither,
so an integer is an `i32` wherever it has a type of its own.

- §1 ranges and what a Rust type can hold; §2 the place of an integer in a schema and in
  the type of that schema; §3 which integers fit.
-/

namespace SpecForge.Rust

open OpenApi (ReferenceOr Schema AdditionalProperties IntegerFormat IntegerType VariantOrUnknownOrEmpty)

/-! ## §1  Ranges -/

/-- A signed integer of that many bits and one. -/
def Signed (bits : ℕ) (n : ℤ) : Prop := -2 ^ bits ≤ n ∧ n < 2 ^ bits

/-- The bits after the sign; 64-bit when there is no format. -/
def formatBits : VariantOrUnknownOrEmpty IntegerFormat → Option ℕ
  | .item .int32 => some 31
  | .item .int64 => some 63
  | .empty => some 63
  | .unknown _ => none

def InFormat (i : IntegerType) (n : ℤ) : Prop :=
  ∃ bits, formatBits i.format = some bits ∧ Signed bits n

/-- The integers that a value of the type can be. -/
def RustType.HoldsInteger : RustType → ℤ → Prop
  | .path name, n => name = "i32" ∧ Signed 31 n ∨ name = "i64" ∧ Signed 63 n ∨
      name = "serde_json::Value" ∧ -2 ^ 63 ≤ n ∧ n < 2 ^ 64
  | .option t, n => t.HoldsInteger n
  | .vec _, _ => False
  | .hashMap _, _ => False

/-- `int32` and `int64`, and no format, are at most 64-bit. -/
theorem InFormat.signed {i : IntegerType} {n : ℤ} (h : InFormat i n) : Signed 63 n := by
  obtain ⟨bits, hbits, hlow, hhigh⟩ := h
  unfold formatBits at hbits
  split at hbits
  · cases hbits
    exact ⟨by omega, by omega⟩
  · cases hbits
    exact ⟨hlow, hhigh⟩
  · cases hbits
    exact ⟨hlow, hhigh⟩
  · cases hbits

/-! ## §2  Places -/

inductive Step where
  | property (name : String)
  | item
  | value

/-- An integer schema below a schema. An inline object with an `additionalProperties` schema
is a map of these: what it says about its properties has no type of its own. -/
inductive IntegerAt : ReferenceOr Schema → List Step → IntegerType → Prop where
  | here {data i} : IntegerAt (.item ⟨data, .type (.integer i)⟩) [] i
  | item {data s p i} : IntegerAt s p i →
      IntegerAt (.item ⟨data, .type (.array (some s))⟩) (.item :: p) i
  | value {data o s p i} : o.additionalProperties = some (.schema s) → IntegerAt s p i →
      IntegerAt (.item ⟨data, .type (.object o)⟩) (.value :: p) i
  | property {data o name s p i} : (name, s) ∈ o.properties →
      (∀ s', o.additionalProperties ≠ some (.schema s')) → IntegerAt s p i →
      IntegerAt (.item ⟨data, .type (.object o)⟩) (.property name :: p) i

/-- The type that a Rust type has for what lies below it. Everything in a JSON value is one. -/
def RustType.descend : RustType → List Step → Option RustType
  | .option t, p => t.descend p
  | .path name, p => if p.isEmpty || name == "serde_json::Value" then some (.path name) else none
  | .vec t, [] => some (.vec t)
  | .vec t, .item :: p => t.descend p
  | .vec _, _ :: _ => none
  | .hashMap t, [] => some (.hashMap t)
  | .hashMap t, .value :: p => t.descend p
  | .hashMap t, .property _ :: p => t.descend p
  | .hashMap _, .item :: _ => none

/-- The type of a struct field. -/
def fieldType (required : Bool) (t : RustType) : RustType := if required then t else optional t

theorem descend_fieldType (required : Bool) (t : RustType) (p : List Step) :
    (fieldType required t).descend p = t.descend p := by
  cases required with
  | true => rfl
  | false =>
      cases t with
      | option t => rfl
      | path name => rfl
      | vec item => rfl
      | hashMap value => rfl

theorem descend_value (p : List Step) :
    (RustType.path "serde_json::Value").descend p = some (.path "serde_json::Value") := by
  rw [RustType.descend, if_pos]
  rw [beq_self_eq_true, Bool.or_true]

/-- The schemas below a property of an inline object are not looked at. -/
def Untyped (p : List Step) : Prop := ∃ name, .property name ∈ p

theorem untyped_cons_property (name : String) (p : List Step) : Untyped (.property name :: p) :=
  ⟨name, List.mem_cons_self⟩

theorem untyped_cons_iff {step : Step} {p : List Step} (h : ∀ name, step ≠ .property name) :
    Untyped (step :: p) ↔ Untyped p := by
  constructor
  · rintro ⟨name, hname⟩
    exact ⟨name, (List.mem_cons.mp hname).resolve_left fun heq => h name heq.symm⟩
  · rintro ⟨name, hname⟩
    exact ⟨name, List.mem_cons_of_mem step hname⟩

/-- An object without a schema for further properties says nothing about what it holds. -/
theorem descend_objectShape {additional : Option AdditionalProperties}
    (h : ∀ s, additional ≠ some (.schema s)) (name : String) (p : List Step) :
    (renderType (objectShape additional)).descend (.property name :: p) =
      some (.path "serde_json::Value") := by
  rcases additional with _ | ⟨b⟩ | s
  · exact descend_value _
  · cases b with
    | true =>
        rw [objectShape, renderType, RustType.descend, renderType]
        exact descend_value p
    | false => exact descend_value _
  · exact absurd rfl (h s)

theorem descend_of_integerAt {s : ReferenceOr Schema} {p : List Step} {i : IntegerType}
    (h : IntegerAt s p i) : (renderType (refOrSchemaToType s)).descend p = some (.path "i32") ∧
      ¬ Untyped p ∨
    (renderType (refOrSchemaToType s)).descend p = some (.path "serde_json::Value") ∧
      Untyped p := by
  induction h with
  | here =>
      refine Or.inl ⟨?_, fun ⟨_, hname⟩ => absurd hname List.not_mem_nil⟩
      rw [refOrSchemaToType, schemaKindToType, typeToIr]
      rfl
  | item _ ih =>
      rw [refOrSchemaToType, schemaKindToType, typeToIr, renderType, RustType.descend,
        untyped_cons_iff (by intro name h; cases h)]
      exact ih
  | value hadditional _ ih =>
      rw [refOrSchemaToType, schemaKindToType, typeToIr_object, hadditional, objectShape,
        renderType, RustType.descend, untyped_cons_iff (by intro name h; cases h)]
      exact ih
  | property _ hadditional _ _ =>
      refine Or.inr ⟨?_, untyped_cons_property _ _⟩
      rw [refOrSchemaToType, schemaKindToType, typeToIr_object]
      exact descend_objectShape hadditional _ _

/-! ## §3  What fits -/

/-- An integer fits exactly if it has 32 bits, whatever the format says, or if nothing gives it
a type. -/
theorem integer_fits_iff {s : ReferenceOr Schema} {p : List Step} {i : IntegerType} {n : ℤ}
    (hat : IntegerAt s p i) (hn : InFormat i n) (required : Bool) :
    (∃ t, (fieldType required (renderType (refOrSchemaToType s))).descend p = some t ∧
      t.HoldsInteger n) ↔ Signed 31 n ∨ Untyped p := by
  rw [descend_fieldType]
  rcases descend_of_integerAt hat with ⟨htype, htyped⟩ | ⟨htype, huntyped⟩
  · rw [htype]
    constructor
    · rintro ⟨t, ht, hholds⟩
      cases ht
      rcases hholds with ⟨-, h⟩ | ⟨h, -⟩ | ⟨h, -⟩
      · exact Or.inl h
      · exact absurd h (by decide)
      · exact absurd h (by decide)
    · intro h
      exact ⟨_, rfl, Or.inl ⟨rfl, h.resolve_right htyped⟩⟩
  · rw [htype]
    obtain ⟨hlow, hhigh⟩ := hn.signed
    refine iff_of_true ⟨_, rfl, Or.inr (Or.inr ⟨rfl, hlow, ?_⟩)⟩ (Or.inr huntyped)
    omega

/-- The items of an array of `int64`. -/
def bigItems : ReferenceOr Schema :=
  .item ⟨.default, .type (.array (some (.item ⟨.default, .type (.integer ⟨.item .int64⟩)⟩)))⟩

theorem integerAt_bigItems : IntegerAt bigItems [.item] ⟨.item .int64⟩ := .item .here

theorem inFormat_int64 : InFormat ⟨.item .int64⟩ (2 ^ 31) := ⟨63, rfl, by omega, by omega⟩

theorem integer_fits_bigItems : (∃ t, (fieldType true (renderType (refOrSchemaToType
    bigItems))).descend [.item] = some t ∧ t.HoldsInteger (2 ^ 31)) ↔
      Signed 31 (2 ^ 31) ∨ Untyped [.item] :=
  integer_fits_iff integerAt_bigItems inFormat_int64 true

/-- The first integer that needs a 33rd bit does not fit an item of format `int64`. -/
theorem int64_item_too_big : ¬ ∀ (s : ReferenceOr Schema) (p : List Step) (i : IntegerType)
    (n : ℤ), IntegerAt s p i → InFormat i n → ∀ required,
      ∃ t, (fieldType required (renderType (refOrSchemaToType s))).descend p = some t ∧
        t.HoldsInteger n := by
  intro h
  obtain ⟨t, ht, hholds⟩ := h bigItems [.item] ⟨.item .int64⟩ (2 ^ 31) integerAt_bigItems
    inFormat_int64 true
  have htype : (fieldType true (renderType (refOrSchemaToType bigItems))).descend [.item] =
      some (.path "i32") := by
    rw [descend_fieldType]
    rcases descend_of_integerAt integerAt_bigItems with ⟨htype, -⟩ | ⟨-, name, hname⟩
    · exact htype
    · cases hname with
      | tail _ hname => cases hname
  rw [htype] at ht
  cases ht
  rcases hholds with ⟨-, -, hhigh⟩ | ⟨h, -⟩ | ⟨h, -⟩
  · omega
  · exact absurd h (by decide)
  · exact absurd h (by decide)

end SpecForge.Rust
