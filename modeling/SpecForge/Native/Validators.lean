import SpecForge.Core.MockConformance
import SpecForge.Core.ResolvedObjects
import SpecForge.Native.Go

/-!
# The validators of the Go and the Rust SDK

For each model both emitters write a validator that looks at required properties and at
properties that are string enums, and at nothing else. A JSON value decoded into Go's `any` is
the value itself here: a `map[string]any` is an object and `nil` is `null`.

- §1 Go, §2 Rust. §3 what each of them asks, and the values that pass.
- §4 values without members: what a type says of them. §5 when the two validators are fair.

The string literals of the generated code stand for the names they are written for, as they do
in every package that compiles.
-/

namespace SpecForge

open Native
open OpenApi (OpenAPI Components SchemaData)
open Lib (IndexMap)

/-! ## §1  Go -/

namespace Go

/-- `%T` of a decoded value. -/
def goTypeName : Value → String
  | .null => "<nil>"
  | .bool _ => "bool"
  | .number _ => "float64"
  | .string _ => "string"
  | .array _ => "[]interface \x7b\x7d"
  | .object _ => "map[string]interface \x7b\x7d"

/-- `validateObject`. A value that is no map is encoded and decoded into one, which only `null`
and an object can be. -/
def validateIsObject (v : Value) (path : String) : List ValidationError :=
  match v with
  | .null => [⟨path, "expected object, got nil"⟩]
  | .object _ => []
  | v => [⟨path, "expected object, got " ++ goTypeName v⟩]

def isStringEnum : IrType → Bool
  | .stringEnum _ _ => true
  | _ => false

/-- The checks of one property. -/
def propertyChecks (obj : List (String × Value)) (prop : Property) : List ValidationError :=
  (if prop.required && (obj.lookup prop.name).isNone then
    [⟨prop.name, "missing required field"⟩] else []) ++
  match prop.ty, (obj.lookup prop.name).bind Value.asStr with
  | .stringEnum variants _, some s =>
      if variants.contains s then [] else [⟨prop.name, "invalid enum value: " ++ s⟩]
  | _, _ => []

/-- The part of a validator that declares `obj`. -/
def objectChecks (o : ObjectModel) (v : Value) : List ValidationError :=
  match v with
  | .object obj => o.properties.flatMap (propertyChecks obj)
  -- decoding `null` succeeds and leaves a nil map
  | .null => o.properties.flatMap (propertyChecks [])
  | _ => [⟨"", "expected object"⟩]

/-- What `Validate{Model}` returns; no errors are `nil`. -/
def validatorErrors (m : Model) (v : Value) : List ValidationError :=
  match m with
  | .object o =>
      validateIsObject v "" ++
        if o.properties.any fun p => p.required || isStringEnum p.ty then objectChecks o v else []
  | .enum e =>
      match v.asStr with
      | some s =>
          if e.variants.any fun x => x.value == s then []
          else [⟨"", "invalid " ++ exportIdent e.name ++ " value: " ++ s⟩]
      | none => [⟨"", "expected string for " ++ exportIdent e.name ++ ", got " ++ goTypeName v⟩]

end Go

/-! ## §2  Rust -/

namespace Rust

def validateObjectFields (value : Value) (required : List String) (path : String) :
    List ValidationError :=
  match value.asObject with
  | none => [⟨path, "expected object, got " ++ valueTypeName value⟩]
  | some obj => (required.filter fun field => (obj.lookup field).isNone).map fun field =>
      ⟨if path = "" then field else path ++ "." ++ field, "missing required field"⟩

def validateEnumField (value : Value) (field : String) (allowed : List String) (path : String) :
    List ValidationError :=
  match (value.asObject.bind (·.lookup field)).bind Value.asStr with
  | some s =>
      if allowed.contains s then []
      else [⟨if path = "" then field else path ++ "." ++ field,
        "invalid enum value: \"" ++ s ++ "\""⟩]
  | none => []

def requiredNamesOf (o : ObjectModel) : List String :=
  (o.properties.filter (·.required)).map (·.name)

/-- What `validate_{model}` returns; no errors are `Ok`. -/
def validatorErrors (m : Model) (v : Value) : List ValidationError :=
  match m with
  | .object o =>
      if (requiredNamesOf o).isEmpty && o.properties.isEmpty then
        if v.isObject then [] else [⟨"", "expected object, got " ++ valueTypeName v⟩]
      else
        (if (requiredNamesOf o).isEmpty then []
          else validateObjectFields v (requiredNamesOf o) "") ++
        o.properties.flatMap fun prop =>
          match prop.ty with
          | .stringEnum variants _ => validateEnumField v prop.name variants ""
          | _ => []
  | .enum e =>
      match v.asStr with
      | some s =>
          if e.variants.any fun x => x.value == s then []
          else [⟨"", "invalid " ++ pascal e.name ++ " value: \"" ++ s ++ "\""⟩]
      | none => [⟨"", "expected string for " ++ pascal e.name ++ ", got " ++ valueTypeName v⟩]

end Rust

/-! ## §3  What they ask -/

section Asked

variable {o : ObjectModel} {e : EnumModel} {v : Value} {obj : List (String × Value)}

/-- A property is there if it has to be, and is no text that its enum lacks. -/
structure PropertyPasses (obj : List (String × Value)) (p : Property) : Prop where
  present : p.required = true → obj.lookup p.name ≠ none
  variant : ∀ variants nullable s, p.ty = .stringEnum variants nullable →
    obj.lookup p.name = some (.string s) → s ∈ variants

theorem asStr_eq_some_iff {w : Value} {t : String} : w.asStr = some t ↔ w = .string t := by
  cases w <;> simp [Value.asStr]

theorem Go.propertyChecks_eq_nil_iff {p : Property} :
    Go.propertyChecks obj p = [] ↔ PropertyPasses obj p := by
  have hpresent : (if p.required && (obj.lookup p.name).isNone then
      [(⟨p.name, "missing required field"⟩ : ValidationError)] else []) = [] ↔
      (p.required = true → obj.lookup p.name ≠ none) := by
    cases p.required <;> cases obj.lookup p.name <;> simp
  unfold Go.propertyChecks
  rw [List.append_eq_nil_iff, hpresent]
  constructor
  · rintro ⟨hthere, hchecks⟩
    refine ⟨hthere, fun variants nullable s hty hs => ?_⟩
    have hstr : (obj.lookup p.name).bind Value.asStr = some s := by
      rw [hs]
      rfl
    rw [hty, hstr] at hchecks
    simpa using hchecks
  · rintro ⟨hthere, hvariant⟩
    refine ⟨hthere, ?_⟩
    split
    · next variants nullable s hty hs =>
        obtain ⟨w, hw, hstr⟩ := Option.bind_eq_some_iff.mp hs
        rw [asStr_eq_some_iff.mp hstr] at hw
        simpa using hvariant variants nullable s hty hw
    · rfl

theorem Go.validatorErrors_object_iff : Go.validatorErrors (.object o) v = [] ↔
    ∃ obj, v = .object obj ∧ ∀ p ∈ o.properties, PropertyPasses obj p := by
  have hchecks : ∀ obj, (if o.properties.any fun p => p.required || Go.isStringEnum p.ty then
      Go.objectChecks o (.object obj) else []) = [] ↔
      ∀ p ∈ o.properties, PropertyPasses obj p := by
    intro obj
    split
    · simp only [Go.objectChecks, List.flatMap_eq_nil_iff, Go.propertyChecks_eq_nil_iff]
    · next hnone =>
        refine iff_of_true rfl fun p hp => ?_
        have hp' : ¬ (p.required || Go.isStringEnum p.ty) = true :=
          fun h => hnone (List.any_eq_true.mpr ⟨p, hp, h⟩)
        simp only [Bool.or_eq_true, not_or] at hp'
        refine ⟨fun hreq => absurd hreq hp'.1, fun variants nullable s hty _ => ?_⟩
        rw [hty] at hp'
        exact absurd rfl hp'.2
  rw [Go.validatorErrors, List.append_eq_nil_iff]
  cases v with
  | object obj => simp only [Go.validateIsObject, true_and, hchecks, Value.object.injEq,
      exists_eq_left']
  | _ => simp [Go.validateIsObject]

theorem Rust.validateEnumField_eq_nil_iff {field : String} {allowed : List String} :
    Rust.validateEnumField v field allowed "" = [] ↔
      ∀ obj, v = .object obj → ∀ s, obj.lookup field = some (.string s) → s ∈ allowed := by
  unfold Rust.validateEnumField
  cases v with
  | object obj =>
      simp only [Value.asObject, Option.bind_some, Value.object.injEq, forall_eq']
      cases hw : obj.lookup field with
      | none => simp
      | some w => cases w <;> simp [Value.asStr]
  | _ => simp [Value.asObject]

theorem Rust.validateObjectFields_eq_nil_iff {required : List String} :
    Rust.validateObjectFields v required "" = [] ↔
      ∃ obj, v = .object obj ∧ ∀ field ∈ required, obj.lookup field ≠ none := by
  unfold Rust.validateObjectFields
  cases v with
  | object obj => simp [Value.asObject, List.filter_eq_nil_iff]
  | _ => simp [Value.asObject]

/-- Without required properties the Rust validator does not ask for an object. -/
theorem Rust.validatorErrors_object_iff (hprops : o.properties ≠ []) :
    Rust.validatorErrors (.object o) v = [] ↔
      ((∃ p ∈ o.properties, p.required = true) → v.isObject = true) ∧
        ∀ obj, v = .object obj → ∀ p ∈ o.properties, PropertyPasses obj p := by
  have hrequired : (requiredNamesOf o).isEmpty = true ↔ ∀ p ∈ o.properties, ¬ p.required = true := by
    simp [requiredNamesOf, List.filter_eq_nil_iff]
  have henums : (o.properties.flatMap fun prop =>
      match prop.ty with
      | .stringEnum variants _ => Rust.validateEnumField v prop.name variants ""
      | _ => []) = [] ↔ ∀ obj, v = .object obj → ∀ p ∈ o.properties, ∀ variants nullable s,
        p.ty = .stringEnum variants nullable → obj.lookup p.name = some (.string s) →
          s ∈ variants := by
    rw [List.flatMap_eq_nil_iff]
    constructor
    · intro hchecks obj hv p hp variants nullable s hty hs
      have hcheck := hchecks p hp
      rw [hty] at hcheck
      exact Rust.validateEnumField_eq_nil_iff.mp hcheck obj hv s hs
    · intro hvariants p hp
      split
      · next variants nullable hty =>
          apply Rust.validateEnumField_eq_nil_iff.mpr
          intro obj hv s hs
          exact hvariants obj hv p hp variants nullable s hty hs
      · rfl
  have hmembers : (if (requiredNamesOf o).isEmpty then []
      else Rust.validateObjectFields v (requiredNamesOf o) "") = [] ↔
      ((∃ p ∈ o.properties, p.required = true) → v.isObject = true) ∧
        ∀ obj, v = .object obj → ∀ p ∈ o.properties, p.required = true →
          obj.lookup p.name ≠ none := by
    split
    · next hnone =>
        have hnone' := hrequired.mp hnone
        refine iff_of_true rfl ⟨?_, fun obj _ p hp hreq => absurd hreq (hnone' p hp)⟩
        rintro ⟨p, hp, hreq⟩
        exact absurd hreq (hnone' p hp)
    · next hsome =>
        have hsome' : ∃ p ∈ o.properties, p.required = true := by
          simpa using mt hrequired.mpr hsome
        rw [Rust.validateObjectFields_eq_nil_iff]
        constructor
        · rintro ⟨obj, rfl, hfields⟩
          refine ⟨fun _ => rfl, fun obj' hobj p hp hreq => ?_⟩
          cases hobj
          apply hfields
          exact List.mem_map_of_mem (List.mem_filter.mpr ⟨hp, hreq⟩)
        · rintro ⟨hobject, hpresent⟩
          obtain ⟨obj, rfl⟩ := Value.isObject_iff.mp (hobject hsome')
          refine ⟨obj, rfl, fun field hfield => ?_⟩
          obtain ⟨p, hp, rfl⟩ := List.mem_map.mp hfield
          obtain ⟨hp, hreq⟩ := List.mem_filter.mp hp
          exact hpresent obj rfl p hp hreq
  have hbody : ((requiredNamesOf o).isEmpty && o.properties.isEmpty) = false := by
    rw [List.isEmpty_eq_false_iff.mpr hprops, Bool.and_false]
  rw [Rust.validatorErrors, hbody, if_neg (by simp), List.append_eq_nil_iff, hmembers, henums]
  constructor
  · rintro ⟨⟨hobject, hpresent⟩, hvariant⟩
    exact ⟨hobject, fun obj hv p hp => ⟨hpresent obj hv p hp, hvariant obj hv p hp⟩⟩
  · rintro ⟨hobject, hpasses⟩
    exact ⟨⟨hobject, fun obj hv p hp => (hpasses obj hv p hp).present⟩,
      fun obj hv p hp => (hpasses obj hv p hp).variant⟩

theorem Rust.validatorErrors_bare_iff (hprops : o.properties = []) :
    Rust.validatorErrors (.object o) v = [] ↔ v.isObject = true := by
  simp [Rust.validatorErrors, requiredNamesOf, hprops]

theorem Go.validatorErrors_enum_iff :
    Go.validatorErrors (.enum e) v = [] ↔ ∃ x ∈ e.variants, v = .string x.value := by
  cases v with
  | string s =>
      simp only [Go.validatorErrors, Value.asStr, ite_eq_left_iff, reduceCtorEq, imp_false,
        Decidable.not_not, List.any_eq_true, beq_iff_eq, Value.string.injEq]
      exact exists_congr fun x => and_congr_right fun _ => eq_comm
  | _ => simp [Go.validatorErrors, Value.asStr]

theorem Rust.validatorErrors_enum_iff :
    Rust.validatorErrors (.enum e) v = [] ↔ ∃ x ∈ e.variants, v = .string x.value := by
  cases v with
  | string s =>
      simp only [Rust.validatorErrors, Value.asStr, ite_eq_left_iff, reduceCtorEq, imp_false,
        Decidable.not_not, List.any_eq_true, beq_iff_eq, Value.string.injEq]
      exact exists_congr fun x => and_congr_right fun _ => eq_comm
  | _ => simp [Rust.validatorErrors, Value.asStr]

end Asked

/-- A value that is valid for a model: for its properties, or else for its shape. -/
def ValidFor (reg : SchemaRegistry) (m : Model) (v : Value) : Prop :=
  match m with
  | .object o =>
      if o.properties = [] then ∀ shape, o.shapeType = some shape → Validates reg v shape
      else ValidatesObject reg v o.properties
  | .enum e => ∃ x ∈ e.variants, v = .string x.value

/-- The two validators agree on a value, and let it pass if it is valid. -/
structure FairValidators (reg : SchemaRegistry) (m : Model) (v : Value) : Prop where
  agree : Go.validatorErrors m v = [] ↔ Rust.validatorErrors m v = []
  pass : ValidFor reg m v → Go.validatorErrors m v = [] ∧ Rust.validatorErrors m v = []

/-! ## §4  Values without members -/

section Shapes

variable {reg : SchemaRegistry}

/-- Every object model has a shape. -/
def Shaped (reg : SchemaRegistry) : Prop :=
  ∀ name o, reg.get name = some (.object o) → o.shapeType ≠ none

/-- Resolution gives every object model a shape. -/
theorem shaped_of_resolve {spec : OpenAPI} {webhooks : Option Value} {d : Document}
    (h : resolveWithWebhooks spec webhooks = .ok d) : Shaped d.schemas := by
  have hs := (resolveWithWebhooks_ok h).1
  intro name o hget
  -- the models do not depend on the webhooks
  have hplain : ∃ d', resolve spec = .ok d' ∧ d'.schemas = d.schemas := by
    unfold resolve resolveWithWebhooks
    rw [hs]
    exact ⟨_, rfl, rfl⟩
  obtain ⟨d', hd, hschemas⟩ := hplain
  rw [← hschemas] at hget
  exact resolve_shape hd hget

/-- Members are looked at by maps only, and a map lets everything else pass: what lets an
object pass lets everything pass that is none. -/
theorem validates_of_validates_object (hshaped : Shaped reg) (hac : reg.AcyclicRefs) {t : IrType}
    {obj : List (String × Value)} (h : Validates reg (.object obj) t) {w : Value}
    (hw : w.isObject = false) : Validates reg w t := by
  induction t using Consults.induction hac with
  | hstep t ih =>
      cases t with
      | scalar s =>
          rw [validates_scalar] at h
          cases s <;> cases h
      | stringEnum variants nullable =>
          rw [validates_stringEnum] at h
          obtain ⟨-, hnull⟩ | ⟨s, -, hs⟩ := h
          · cases hnull
          · cases hs
      | array item nullable =>
          rw [validates_array] at h
          obtain ⟨-, hnull⟩ | ⟨items, hitems, -⟩ := h
          · cases hnull
          · cases hitems
      | map value =>
          rw [validates_map]
          rintro obj' rfl
          cases hw
      | reference name nullable description =>
          cases hget : reg.get name with
          | none => exact validates_reference_unknown hget
          | some model =>
              cases model with
              | enum e =>
                  rw [validates_reference_enum hget] at h
                  obtain ⟨-, hnull⟩ | ⟨x, -, hx⟩ := h
                  · cases hnull
                  · cases hx
              | object o =>
                  obtain ⟨shape, hshape⟩ := Option.ne_none_iff_exists'.mp (hshaped name o hget)
                  rw [validates_reference_shape hget hshape] at h ⊢
                  obtain ⟨-, hnull⟩ | hobj := h
                  · cases hnull
                  · exact Or.inr (ih shape (.shape hget hshape) hobj)
      | composition kind members discriminator =>
          by_cases hkind : kind = .allOf
          · subst hkind
            rw [validates_allOf] at h ⊢
            intro m hm
            exact ih m (.member hm) (h m hm)
          · have hret : ∀ v, ∀ m ∈ members, Settles reg v m :=
              fun v m _ => settles_of_acyclic hac m v
            rw [validates_anyOf hkind (hret _)] at h ⊢
            obtain hnone | ⟨m, hm, hobj⟩ := h
            · exact Or.inl hnone
            · exact Or.inr ⟨m, hm, ih m (.member hm) hobj⟩
      | any => exact validates_any
      | unknown => exact validates_unknown

end Shapes

/-! ## §5  Fair validators -/

/-- An enum; an object model that requires a property; one without properties that no value is
valid for. -/
def Checkable (reg : SchemaRegistry) : Model → Prop
  | .object o => (∃ p ∈ o.properties, p.required = true) ∨
      o.properties = [] ∧ ∀ v, ¬ ValidFor reg (.object o) v
  | .enum _ => True

section Fair

variable {reg : SchemaRegistry} {o : ObjectModel} {e : EnumModel}

/-- What passes a property's type passes its validator. -/
theorem propertyPasses_of_validates {obj : List (String × Value)} {p : Property}
    (hrequired : obj.lookup p.name = none → p.required = false)
    (hvalid : ∀ x, obj.lookup p.name = some x → Validates reg x p.ty) : PropertyPasses obj p where
  present hreq hnone := by
    rw [hrequired hnone] at hreq
    cases hreq
  variant variants nullable s hty hs := by
    have hs' := hvalid _ hs
    rw [hty, validates_stringEnum] at hs'
    obtain ⟨-, hnull⟩ | ⟨s', hs', heq⟩ := hs'
    · cases hnull
    · cases heq
      exact hs'

theorem fairValidators_enum (v : Value) : FairValidators reg (.enum e) v where
  agree := Go.validatorErrors_enum_iff.trans Rust.validatorErrors_enum_iff.symm
  pass h := ⟨Go.validatorErrors_enum_iff.mpr h, Rust.validatorErrors_enum_iff.mpr h⟩

/-- With a required property both validators ask for an object, and for the same of it. -/
theorem fairValidators_of_required (hreq : ∃ p ∈ o.properties, p.required = true) (v : Value) :
    FairValidators reg (.object o) v := by
  have hprops : o.properties ≠ [] := by
    obtain ⟨p, hp, -⟩ := hreq
    exact List.ne_nil_of_mem hp
  have hagree : Go.validatorErrors (.object o) v = [] ↔ Rust.validatorErrors (.object o) v = [] := by
    rw [Go.validatorErrors_object_iff, Rust.validatorErrors_object_iff hprops]
    constructor
    · rintro ⟨obj, rfl, hpasses⟩
      refine ⟨fun _ => rfl, fun obj' hobj => ?_⟩
      cases hobj
      exact hpasses
    · rintro ⟨hobject, hpasses⟩
      obtain ⟨obj, rfl⟩ := Value.isObject_iff.mp (hobject hreq)
      exact ⟨obj, rfl, hpasses obj rfl⟩
  have hpass : ValidFor reg (.object o) v → Go.validatorErrors (.object o) v = [] := by
    simp only [ValidFor, if_neg hprops]
    rintro ⟨obj, rfl, hvalid⟩
    rw [Go.validatorErrors_object_iff]
    exact ⟨obj, rfl, fun p hp => propertyPasses_of_validates (hvalid p hp).1 (hvalid p hp).2⟩
  exact ⟨hagree, fun h => ⟨hpass h, hagree.mp (hpass h)⟩⟩

/-- Where no property is required the Go validator rejects `null`, the Rust one does not. -/
theorem not_agree_null (hprops : o.properties ≠ [])
    (hreq : ¬ ∃ p ∈ o.properties, p.required = true) :
    Go.validatorErrors (.object o) .null ≠ [] ∧ Rust.validatorErrors (.object o) .null = [] := by
  constructor
  · intro h
    obtain ⟨obj, hobj, -⟩ := Go.validatorErrors_object_iff.mp h
    cases hobj
  · rw [Rust.validatorErrors_object_iff hprops]
    exact ⟨fun h => absurd h hreq, fun obj hobj => by cases hobj⟩

theorem Go.validatorErrors_bare_iff {v : Value} (hprops : o.properties = []) :
    Go.validatorErrors (.object o) v = [] ↔ v.isObject = true := by
  rw [Go.validatorErrors_object_iff, Value.isObject_iff, hprops]
  simp

/-- Without properties both validators ask for an object; a shape that some value is valid for
has one that is none. -/
theorem fairValidators_bare_iff (hshaped : Shaped reg) (hac : reg.AcyclicRefs)
    (hprops : o.properties = []) :
    (∀ v, FairValidators reg (.object o) v) ↔ ∀ v, ¬ ValidFor reg (.object o) v := by
  constructor
  · intro hfair v hv
    have hobject : ∀ w, ValidFor reg (.object o) w → w.isObject = true :=
      fun w hw => (Go.validatorErrors_bare_iff hprops).mp ((hfair w).pass hw).1
    obtain ⟨obj, rfl⟩ := Value.isObject_iff.mp (hobject v hv)
    -- `null` is valid as well
    have hnull : ValidFor reg (.object o) .null := by
      simp only [ValidFor, if_pos hprops] at hv ⊢
      intro shape hshape
      exact validates_of_validates_object hshaped hac (hv shape hshape) rfl
    exact absurd (hobject .null hnull) (by simp [Value.isObject])
  · intro hnone v
    refine ⟨?_, fun hv => absurd hv (hnone v)⟩
    exact (Go.validatorErrors_bare_iff hprops).trans (Rust.validatorErrors_bare_iff hprops).symm

end Fair

/-- **The validators of a model agree on every value and let every valid one pass exactly if
it is an enum, requires a property, or has neither properties nor values.** -/
theorem fairValidators_iff {spec : OpenAPI} {webhooks : Option Value} {d : Document}
    (h : resolveWithWebhooks spec webhooks = .ok d) (hac : d.schemas.AcyclicRefs) {name : String}
    {m : Model} (hm : d.schemas.get name = some m) :
    (∀ v, FairValidators d.schemas m v) ↔ Checkable d.schemas m := by
  cases m with
  | enum e => exact iff_of_true fairValidators_enum trivial
  | object o =>
      by_cases hreq : ∃ p ∈ o.properties, p.required = true
      · exact iff_of_true (fairValidators_of_required hreq) (Or.inl hreq)
      · by_cases hprops : o.properties = []
        · rw [fairValidators_bare_iff (shaped_of_resolve h) hac hprops]
          exact ⟨fun hnone => Or.inr ⟨hprops, hnone⟩,
            fun hcheck => (hcheck.resolve_left hreq).2⟩
        · constructor
          · intro hfair
            obtain ⟨hgo, hrust⟩ := not_agree_null hprops hreq
            exact absurd ((hfair .null).agree.mpr hrust) hgo
          · rintro (hreq' | ⟨hprops', -⟩)
            · exact absurd hreq' hreq
            · exact absurd hprops' hprops

/-- A schema with one property, a string. -/
def namedSpec (required : List String) : OpenAPI where
  info := ⟨"Named", "1.0.0"⟩
  servers := []
  paths := IndexMap.empty
  components := some (Components.ofSchemas
    [("Named", .item ⟨SchemaData.default, .type (.object
      ⟨[("name", .item ⟨SchemaData.default, .type (.string ⟨.empty, []⟩)⟩)], required, none⟩)⟩)])
  security := none

theorem fairValidators_named : ∃ d m, resolve (namedSpec ["name"]) = .ok d ∧
    d.schemas.get "Named" = some m ∧ ∀ v, FairValidators d.schemas m v := by
  obtain ⟨d, o, hd, hac, hget, hreq⟩ : ∃ d o, resolve (namedSpec ["name"]) = .ok d ∧
      d.schemas.AcyclicRefs ∧ d.schemas.get "Named" = some (.object o) ∧
      o.properties.map (·.required) = [true] :=
    ⟨_, _, rfl, acyclicRefs_single rfl rfl rfl rfl, rfl, rfl⟩
  refine ⟨d, .object o, hd, hget, (fairValidators_iff hd hac hget).mpr (Or.inl ?_)⟩
  exact List.mem_map.mp (hreq ▸ List.mem_singleton.mpr rfl)

/-- If the name is optional, only the Go validator rejects `null`. -/
theorem null_accepted_by_rust : ¬∀ (spec : OpenAPI) (d : Document) (name : String) (m : Model),
    resolve spec = .ok d → d.schemas.AcyclicRefs → d.schemas.get name = some m →
      ∀ v, FairValidators d.schemas m v := by
  intro h
  obtain ⟨d, m, hd, hac, hget, hgo, hrust⟩ : ∃ d m, resolve (namedSpec []) = .ok d ∧
      d.schemas.AcyclicRefs ∧ d.schemas.get "Named" = some m ∧
      Go.validatorErrors m .null = [⟨"", "expected object, got nil"⟩] ∧
      Rust.validatorErrors m .null = [] :=
    ⟨_, _, rfl, acyclicRefs_single rfl rfl rfl rfl, rfl, rfl, rfl⟩
  have hnil := (h _ d "Named" m hd hac hget .null).agree.mpr hrust
  rw [hgo] at hnil
  cases hnil

end SpecForge
