import SpecForge.Ts.Validate

/-!
# False alarms of the generated validators

Which values that are right for a model its TypeScript validator reports. §1 says when the
interpreter finds nothing; §2 what of an IR type the descriptor gets wrong; §3 the exact
condition.
-/

namespace SpecForge.Ts

open Lib

/-! ## §1  No errors -/

theorem expectType_eq_nil_iff {what : String} {w : JsValue} {path : String} :
    expectType what w path = [] ↔ w.typeOf = what := by
  unfold expectType
  split
  · next h => exact ⟨fun hnil => absurd hnil (List.cons_ne_nil _ _), fun heq => absurd heq h⟩
  · next h => exact ⟨fun _ => not_not.mp h, fun _ => rfl⟩

theorem validateEnum_eq_nil_iff {w : JsValue} {values : List String} {path : String} :
    validateEnum w values path = [] ↔ ∃ s ∈ values, w = .json (.string s) := by
  unfold validateEnum
  split
  · next s =>
      rcases h : values.contains s with _ | _
      · have hs : s ∉ values := by simpa using h
        simpa using hs
      · have hs : s ∈ values := by simpa using h
        simpa using hs
  · next hstring =>
      refine ⟨fun hnil => absurd hnil (List.cons_ne_nil _ _), ?_⟩
      rintro ⟨s, -, rfl⟩
      exact absurd rfl (hstring s)

theorem validateArray_eq_nil_iff {check : JsValue → String → List ValidationError}
    {P : JsValue → Prop} (hcheck : ∀ w path, check w path = [] ↔ P w) {w : JsValue}
    {path : String} :
    validateArray check w path = [] ↔ ∃ items, w.asArray = some items ∧ ∀ x ∈ items, P x := by
  unfold validateArray
  rcases w.asArray with _ | items
  · simp
  · simp only [List.flatMap_eq_nil_iff, hcheck, Option.some.injEq, exists_eq_left']
    constructor
    · intro h x hx
      obtain ⟨i, hi⟩ := List.mem_iff_getElem?.mp hx
      exact h (x, i) (List.mem_zipIdx_iff_getElem?.mpr hi)
    · rintro h ⟨x, i⟩ hx
      exact h x (List.mem_of_getElem? (List.mem_zipIdx_iff_getElem?.mp hx))

theorem mem_entries {schema : SchemaObject} {k : String} {f : SchemaField} :
    (k, f) ∈ schema.entries ↔ k ≠ "__proto__" ∧ schema.fields.reverse.lookup k = some f := by
  rw [SchemaObject.entries, Js.mem_objectEntries, Js.mem_objectLiteral]

/-- A value, not null, that the descriptor has nothing against. -/
def Passes : SchemaType → JsValue → Prop
  | .string, w => w.typeOf = "string"
  | .number, w => w.typeOf = "number"
  | .boolean, w => w.typeOf = "boolean"
  | .enum values, w => ∃ s ∈ values, w = .json (.string s)
  | .array items, w =>
      ∃ xs, w.asArray = some xs ∧ ∀ x ∈ xs, x.isNull = true ∨ Passes items x
  | .ref _, _ => True

theorem validateValue_eq_nil_iff (schema : SchemaType) (w : JsValue) (path : String) :
    validateValue schema w path = [] ↔ w.isNull = true ∨ Passes schema w := by
  induction schema generalizing w path with
  | string =>
      rw [validateValue, Passes]
      split
      · next h => exact iff_of_true rfl (Or.inl h)
      · next h => exact expectType_eq_nil_iff.trans (or_iff_right h).symm
  | number =>
      rw [validateValue, Passes]
      split
      · next h => exact iff_of_true rfl (Or.inl h)
      · next h => exact expectType_eq_nil_iff.trans (or_iff_right h).symm
  | boolean =>
      rw [validateValue, Passes]
      split
      · next h => exact iff_of_true rfl (Or.inl h)
      · next h => exact expectType_eq_nil_iff.trans (or_iff_right h).symm
  | enum values =>
      rw [validateValue, Passes]
      split
      · next h => exact iff_of_true rfl (Or.inl h)
      · next h => exact validateEnum_eq_nil_iff.trans (or_iff_right h).symm
  | array items ih =>
      rw [validateValue, Passes]
      split
      · next h => exact iff_of_true rfl (Or.inl h)
      · next h => exact (validateArray_eq_nil_iff ih).trans (or_iff_right h).symm
  | ref name =>
      rw [validateValue, Passes]
      split
      · next h => exact iff_of_true rfl (Or.inl h)
      · exact iff_of_true rfl (Or.inr trivial)

/-- A field has nothing to report: what is read there passes, or nothing is needed. -/
theorem validateField_eq_nil_iff {w : JsValue} {path key : String} {f : SchemaField} :
    validateField w path (key, f) = [] ↔
      (w.get key = none → f.required = false) ∧
        ∀ x, w.get key = some x → x.isNull = true ∨ Passes f.type x := by
  unfold validateField
  rcases w.get key with _ | x
  · rcases f.required with _ | _
    · simp
    · simp
  · simp [validateValue_eq_nil_iff]

theorem validateObject_eq_nil_iff {w : JsValue} {schema : SchemaObject} {path : String} :
    validateObject w schema path = [] ↔
      w.isObject = true ∧ ∀ e ∈ schema.entries, validateField w path e = [] := by
  unfold validateObject
  split
  · next h =>
      rw [List.flatMap_eq_nil_iff]
      exact (and_iff_right h).symm
  · next h =>
      exact ⟨fun hnil => absurd hnil (List.cons_ne_nil _ _), fun hand => absurd hand.1 h⟩

/-! ## §2  What the descriptor of a type misses -/

/-- The descriptor of the type is a reference, so no value is looked at. -/
def LeftAlone : IrType → Prop
  | .reference _ _ _ => True
  | .composition .allOf (m :: _) _ => LeftAlone m
  | .composition .oneOf members _ => (firstReference members).isSome = true
  | .composition .anyOf members _ => (firstReference members).isSome = true
  | _ => False

/-- The value, not null and right for the type, is what the descriptor of the type takes it
for. -/
def FitsKind : IrType → Value → Prop
  -- a number for the IR, a string for the descriptor
  | .scalar s, _ => s ≠ .integer64
  | .stringEnum _ _, _ => True
  | .array item _, v => ∀ xs, v = .array xs → ∀ x ∈ xs, x = .null ∨ FitsKind item x
  | .map _, v => v.isString = true
  | .reference _ _ _, _ => True
  | .composition .allOf (m :: _) _, v => FitsKind m v
  | .composition .allOf [] _, v => v.isString = true
  | .composition .oneOf members _, v => (firstReference members).isSome = true ∨ v.isString = true
  | .composition .anyOf members _, v => (firstReference members).isSome = true ∨ v.isString = true
  | .any, v => v.isString = true
  | .unknown, v => v.isString = true

theorem typeOf_eq_string {v : Value} : (JsValue.json v).typeOf = "string" ↔ v.isString = true := by
  rcases v with _ | _ | _ | _ | _ | _
  all_goals simp [JsValue.typeOf, Value.isString]

theorem isNull_json {v : Value} : (JsValue.json v).isNull = true ↔ v = .null := by
  rcases v with _ | _ | _ | _ | _ | _
  all_goals simp [JsValue.isNull]

theorem passes_unionDescriptor {members : List IrType} {w : JsValue} :
    Passes (unionDescriptor members) w ↔
      (firstReference members).isSome = true ∨ w.typeOf = "string" := by
  unfold unionDescriptor
  rcases firstReference members with _ | name
  · exact (or_iff_right Bool.false_ne_true).symm
  · exact iff_of_true trivial (Or.inl rfl)

theorem passes_scalar {s : Scalar} {v : Value} (h : acceptsScalar v s = true) :
    Passes (scalarDescriptor s) (.json v) ↔ s ≠ .integer64 := by
  have hnumber : ∀ {w : Value}, (w.isI64 || w.isU64) = true → ∃ n, w = .number n := by
    intro w hw
    rcases w with _ | _ | n | _ | _ | _
    · cases hw
    · cases hw
    · exact ⟨n, rfl⟩
    · cases hw
    · cases hw
    · cases hw
  rcases s with _ | _ | _ | _ | _ | _ | _ | _ | _
  · exact iff_of_true (typeOf_eq_string.mpr h) (by decide)
  · exact iff_of_true (typeOf_eq_string.mpr h) (by decide)
  · exact iff_of_true (typeOf_eq_string.mpr h) (by decide)
  · obtain ⟨n, rfl⟩ := hnumber h
    exact iff_of_true rfl (by decide)
  · obtain ⟨n, rfl⟩ := hnumber h
    exact iff_of_false (by simp [Passes, scalarDescriptor, JsValue.typeOf]) (by decide)
  · rcases v with _ | _ | n | _ | _ | _
    all_goals first | exact iff_of_true rfl (by decide) | cases h
  · rcases v with _ | b | _ | _ | _ | _
    all_goals first | exact iff_of_true rfl (by decide) | cases h
  · exact iff_of_true (typeOf_eq_string.mpr h) (by decide)
  · exact iff_of_true (typeOf_eq_string.mpr h) (by decide)

/-- **What the descriptor of a type passes, of the values that are right for the type.** -/
theorem passes_descriptor_iff {reg : SchemaRegistry} (t : IrType) {v : Value}
    (h : Validates reg v t) (hnull : v ≠ .null) :
    Passes (descriptor t) (.json v) ↔ FitsKind t v := by
  induction t using IrType.induction generalizing v with
  | scalar s => exact passes_scalar (validates_scalar.mp h)
  | stringEnum variants nullable =>
      obtain ⟨s, hs, rfl⟩ := (validates_stringEnum.mp h).resolve_left fun hand => hnull hand.2
      exact iff_of_true ⟨s, hs, rfl⟩ trivial
  | array item nullable ih =>
      obtain ⟨xs, rfl, hxs⟩ := (validates_array.mp h).resolve_left fun hand => hnull hand.2
      rw [descriptor, Passes, FitsKind]
      constructor
      · rintro ⟨ws, hws, hall⟩ xs' hxs' x hx
        obtain rfl := Option.some.inj hws
        rw [← Value.array.inj hxs'] at hx
        by_cases hx' : x = .null
        · exact Or.inl hx'
        · have hpass := (hall _ (List.mem_map_of_mem hx)).resolve_left fun hn =>
            hx' (isNull_json.mp hn)
          exact Or.inr ((ih (hxs x hx) hx').mp hpass)
      · intro hall
        refine ⟨_, rfl, ?_⟩
        rw [List.forall_mem_map]
        intro x hx
        by_cases hx' : x = .null
        · exact Or.inl (isNull_json.mpr hx')
        · have hfits := (hall xs rfl x hx).resolve_left hx'
          exact Or.inr ((ih (hxs x hx) hx').mpr hfits)
  | map value ih => exact typeOf_eq_string
  | reference name nullable description => exact iff_of_true trivial trivial
  | composition kind members discriminator ih =>
      rcases kind with _ | _ | _
      · rcases members with _ | ⟨m, ms⟩
        · exact typeOf_eq_string
        · have hm := validates_allOf.mp h m List.mem_cons_self
          exact ih m List.mem_cons_self hm hnull
      · exact passes_unionDescriptor.trans (or_congr_right typeOf_eq_string)
      · exact passes_unionDescriptor.trans (or_congr_right typeOf_eq_string)
  | any => exact typeOf_eq_string
  | unknown => exact typeOf_eq_string

/-- An inherited method is only passed where nothing is looked at. -/
theorem passes_method_iff (t : IrType) : Passes (descriptor t) .method ↔ LeftAlone t := by
  have hstring : JsValue.method.typeOf ≠ "string" := by decide
  induction t using IrType.induction with
  | scalar s =>
      refine iff_of_false ?_ not_false
      rcases s with _ | _ | _ | _ | _ | _ | _ | _ | _
      all_goals simp [descriptor, scalarDescriptor, Passes, JsValue.typeOf]
  | stringEnum variants nullable =>
      refine iff_of_false ?_ not_false
      rintro ⟨s, -, hs⟩
      cases hs
  | array item nullable ih =>
      refine iff_of_false ?_ not_false
      rintro ⟨xs, hxs, -⟩
      cases hxs
  | map value ih => exact iff_of_false hstring not_false
  | reference name nullable description => exact iff_of_true trivial trivial
  | composition kind members discriminator ih =>
      rcases kind with _ | _ | _
      · rcases members with _ | ⟨m, ms⟩
        · exact iff_of_false hstring not_false
        · exact ih m List.mem_cons_self
      · exact passes_unionDescriptor.trans (or_iff_left hstring)
      · exact passes_unionDescriptor.trans (or_iff_left hstring)
  | any => exact iff_of_false hstring not_false
  | unknown => exact iff_of_false hstring not_false

/-! ## §3  The condition -/

/-- The core validator accepts the value against the properties of the model, and what is
required is there and not null. -/
def AcceptedBy (reg : SchemaRegistry) : Model → Value → Prop
  | .object o, v => ValidatesObject reg v o.properties ∧
      ∀ p ∈ o.properties, p.required = true → ∀ obj, v = .object obj →
        obj.lookup p.name ≠ some .null
  | .enum e, v => ∃ x ∈ e.variants, v = .string x.value

/-- The property that a descriptor has under a name: the last one so called. -/
def describedProperty (o : ObjectModel) (name : String) : Option Property :=
  o.properties.reverse.find? fun p => p.name == name

/-- The descriptors of the model do not take the value for something else. -/
def FitsModel : Model → Value → Prop
  | .object o, v => ∀ name p, describedProperty o name = some p → name ≠ "__proto__" →
      ∀ obj, v = .object obj →
        (∀ w, obj.lookup name = some w → w = .null ∨ FitsKind p.ty w) ∧
        (obj.lookup name = none → name ∈ Js.prototypeMethods → LeftAlone p.ty)
  | .enum _, _ => True

theorem lookup_fields (o : ObjectModel) (name : String) :
    (objectSchema o).fields.reverse.lookup name =
      (describedProperty o name).map fun p => ⟨descriptor p.ty, p.required⟩ := by
  rw [objectSchema, describedProperty, ← List.map_reverse]
  induction o.properties.reverse with
  | nil => rfl
  | cons p ps ih =>
      rw [List.map_cons, List.find?_cons]
      by_cases h : name = p.name
      · rw [lookup_cons_self h, h, beq_self_eq_true]
        rfl
      · rw [lookup_cons_ne h, ih, beq_eq_false_iff_ne.mpr (Ne.symm h)]

theorem describedProperty_spec {o : ObjectModel} {name : String} {p : Property}
    (h : describedProperty o name = some p) : p ∈ o.properties ∧ p.name = name :=
  ⟨List.mem_reverse.mp (List.mem_of_find?_eq_some h), by simpa using List.find?_some h⟩

/-- What is read of an object under a name. -/
theorem get_object (obj : List (String × Value)) {name : String} (h : name ≠ "__proto__")
    {w : JsValue} :
    (JsValue.json (.object obj)).get name = some w ↔
      (∃ v, obj.lookup name = some v ∧ w = .json v) ∨
        obj.lookup name = none ∧ name ∈ Js.prototypeMethods ∧ w = .method := by
  rw [JsValue.get, JsValue.inherited, if_neg h]
  rcases obj.lookup name with _ | v
  · rw [Option.map_none, Option.none_or]
    split
    · next hmem => simp [hmem, eq_comm]
    · next hmem => simp [hmem]
  · simp [eq_comm]

/-- **A value that is right for a model gives no alarm exactly when it fits the descriptors.** -/
theorem validate_eq_nil_iff {reg : SchemaRegistry} {m : Model} {v : Value}
    (h : AcceptedBy reg m v) (path : String) :
    (modelValidator m).validate (.json v) path = [] ↔ FitsModel m v := by
  rcases m with o | e
  · obtain ⟨⟨obj, rfl, hprops⟩, hrequired⟩ := h
    have hvalidate : (modelValidator (.object o)).validate (.json (.object obj)) path =
        validateObject (.json (.object obj)) (objectSchema o) path := rfl
    rw [hvalidate, validateObject_eq_nil_iff, FitsModel]
    constructor
    · rintro ⟨-, hfields⟩ name p hp hproto obj' hobj
      obtain rfl := Value.object.inj hobj
      obtain ⟨hmem, rfl⟩ := describedProperty_spec hp
      have hentry : (p.name, ⟨descriptor p.ty, p.required⟩) ∈ (objectSchema o).entries :=
        mem_entries.mpr ⟨hproto, by rw [lookup_fields, hp]; rfl⟩
      obtain ⟨-, hread⟩ := validateField_eq_nil_iff.mp (hfields _ hentry)
      constructor
      · intro w hw
        have hpass := hread (.json w) ((get_object obj hproto).mpr (Or.inl ⟨w, hw, rfl⟩))
        rw [isNull_json] at hpass
        by_cases hnull : w = .null
        · exact Or.inl hnull
        · have hvalid := (hprops p hmem).2 w hw
          exact Or.inr ((passes_descriptor_iff p.ty hvalid hnull).mp (hpass.resolve_left hnull))
      · intro hnone hmethod
        have hpass := hread .method ((get_object obj hproto).mpr (Or.inr ⟨hnone, hmethod, rfl⟩))
        exact (passes_method_iff p.ty).mp (hpass.resolve_left Bool.false_ne_true)
    · intro hfits
      refine ⟨rfl, ?_⟩
      rintro ⟨name, f⟩ hentry
      obtain ⟨hproto, hlookup⟩ := mem_entries.mp hentry
      rw [lookup_fields] at hlookup
      obtain ⟨p, hp, rfl⟩ := Option.map_eq_some_iff.mp hlookup
      obtain ⟨hmem, rfl⟩ := describedProperty_spec hp
      obtain ⟨hown, hinherited⟩ := hfits p.name p hp hproto obj rfl
      refine validateField_eq_nil_iff.mpr ⟨?_, ?_⟩
      · intro hnone
        refine (hprops p hmem).1 ?_
        rcases hown' : obj.lookup p.name with _ | w
        · rfl
        · have hget := (get_object obj hproto).mpr (Or.inl ⟨w, hown', rfl⟩)
          rw [hnone] at hget
          cases hget
      · intro x hx
        rcases (get_object obj hproto).mp hx with ⟨w, hw, rfl⟩ | ⟨hnone, hmethod, rfl⟩
        · rw [isNull_json]
          by_cases hnull : w = .null
          · exact Or.inl hnull
          · have hvalid := (hprops p hmem).2 w hw
            have hkind := (hown w hw).resolve_left hnull
            exact Or.inr ((passes_descriptor_iff p.ty hvalid hnull).mpr hkind)
        · exact Or.inr ((passes_method_iff p.ty).mpr (hinherited hnone hmethod))
  · obtain ⟨x, hx, rfl⟩ := h
    refine iff_of_true ?_ trivial
    exact validateEnum_eq_nil_iff.mpr ⟨x.value, List.mem_map_of_mem hx, rfl⟩

/-- A model whose property, a string, is there. -/
theorem acceptedBy_single {reg : SchemaRegistry} {name key : String} {t : IrType} {w : Value}
    (hw : w ≠ .null) (h : Validates reg w t) :
    AcceptedBy reg (.object ⟨name, none, [⟨key, t, true, none⟩], none, none, none⟩)
      (.object [(key, w)]) := by
  have hlookup : ([(key, w)] : List (String × Value)).lookup key = some w :=
    lookup_cons_self (e := (key, w)) rfl
  refine ⟨⟨_, rfl, ?_⟩, ?_⟩
  · rw [List.forall_mem_singleton]
    refine ⟨fun hnone => ?_, fun x hx => ?_⟩
    · rw [hlookup] at hnone
      cases hnone
    · rw [hlookup] at hx
      rw [← Option.some.inj hx]
      exact h
  · rw [List.forall_mem_singleton]
    rintro - obj hobj hnull
    rw [← Value.object.inj hobj, hlookup] at hnull
    exact hw (Option.some.inj hnull)

theorem validate_eq_nil_iff_pet :
    (modelValidator (.object ⟨"Pet", none, [⟨"name", .scalar .string, true, none⟩], none, none,
      none⟩)).validate (.json (.object [("name", .string "Rex")])) "" = [] ↔
    FitsModel (.object ⟨"Pet", none, [⟨"name", .scalar .string, true, none⟩], none, none, none⟩)
      (.object [("name", .string "Rex")]) :=
  validate_eq_nil_iff (acceptedBy_single (fun h => Value.noConfusion h) (validates_scalar.mpr rfl : Validates
    SchemaRegistry.default (.string "Rex") (.scalar .string))) ""

/-- An event with labels of any name. -/
def labelled : Document :=
  Document.minimal ⟨IndexMap.ofList
    [("Event", .object ⟨"Event", none, [⟨"labels", .map (.scalar .string), true, none⟩], none,
      none, none⟩)]⟩ []

theorem labelled_acyclic : labelled.schemas.AcyclicRefs := by
  have hno : ∀ a b, ¬ labelled.schemas.RefersTo a b := by
    rintro a b ⟨o, ho, href⟩
    have hmem := IndexMap.mem_of_get_ofList ho
    rw [List.mem_singleton] at hmem
    cases hmem
    rcases href with ⟨s, hs, -⟩ | ⟨p, hp, hb⟩
    · exact absurd hs (by simp)
    · rw [List.mem_singleton.mp hp] at hb
      exact absurd hb List.not_mem_nil
  intro a ha
  obtain ⟨b, hb, -⟩ := Relation.TransGen.head'_iff.mp ha
  exact hno a b hb

/-- The labels are an object, and the descriptor says string. -/
theorem labelled_alarms :
    ¬ ∀ doc : Document, doc.schemas.AcyclicRefs → ∀ x ∈ doc.schemas.models.entries, ∀ v,
      AcceptedBy doc.schemas x.2 v → (modelValidator x.2).validate (.json v) "" = [] := by
  intro h
  have hvalid : Validates labelled.schemas (.object [("env", .string "prod")])
      (.map (.scalar .string)) := by
    rw [validates_map]
    rintro obj hobj x hx
    rw [← Value.object.inj hobj] at hx
    rw [List.mem_singleton.mp hx]
    exact validates_scalar.mpr rfl
  have hnone := h labelled labelled_acyclic _ List.mem_cons_self _
    (acceptedBy_single (fun h => Value.noConfusion h) hvalid)
  have hobject : validateObject (.json (.object [("labels", .object [("env", .string "prod")])]))
      ⟨[("labels", ⟨.string, true⟩)]⟩ "" = [] := hnone
  obtain ⟨-, hfields⟩ := validateObject_eq_nil_iff.mp hobject
  have hfield := hfields ("labels", ⟨.string, true⟩) (mem_entries.mpr ⟨by decide, rfl⟩)
  have hvalue := (validateField_eq_nil_iff.mp hfield).2 _ rfl
  simp [JsValue.isNull, Passes, JsValue.typeOf] at hvalue

end SpecForge.Ts
