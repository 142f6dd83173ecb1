import SpecForge.Ts.FalseAlarms
import SpecForge.Ts.Literals
import SpecForge.Ts.References

/-!
# Validation of request and response bodies

A method checks its body against the descriptor of the model under the body's arrays and
maps, so a body that is not the model itself is checked for being the model.

- §1 what is checked and exported, by a validation module that loads; §2 the documents whose
  module loads; §3 descriptors that every right value of a type passes; §4 a map checked as a
  model; §5 the exact condition.
-/

namespace SpecForge.Ts

open Lib

/-! ## §1  Bodies -/

/-- The errors of `validateRequest` and `validateResponse`; they throw if there are any. -/
def validateBody (body : JsValue) (schema : Option SchemaObject) : List ValidationError :=
  match schema with
  | none => []
  | some s => if body.isNull then [] else validateModelValue body s "body"

/-- The descriptor that a constant of the validation module holds. -/
def schemaConstant (doc : Document) (constant : String) : Option SchemaObject :=
  (validateModule doc).bind fun validators =>
    match validators.find? fun mv => mv.name ++ "Schema" == constant with
    | some (.object _ schema) => some schema
    | _ => none

/-- The validator of a model in the validation module. -/
def validatorNamed (doc : Document) (name : String) : Option ModelValidator :=
  (validateModule doc).bind fun validators => validators.find? fun mv => mv.name == name

/-- Arrays and maps of values that pass the validator of their model. -/
def CorrectBody (doc : Document) : IrType → Value → Prop
  | .reference name nullable _, v => (nullable = true ∧ v = .null) ∨
      ∃ mv, validatorNamed doc (pascal name) = some mv ∧ mv.validate (.json v) "" = []
  | .array item nullable, v => (nullable = true ∧ v = .null) ∨
      ∃ xs, v = .array xs ∧ ∀ x ∈ xs, CorrectBody doc item x
  | .map value, v => ∃ obj, v = .object obj ∧ ∀ x ∈ obj, CorrectBody doc value x.2
  | _, _ => True

def bodyTypes (op : Operation) : List IrType := (requestType op).toList ++ (successBody op).toList

/-- The descriptor passed for a body with a model in it describes all of the body, and
what the API files import from the validation module is exported there. -/
structure BodiesValidated (doc : Document) : Prop where
  described : ∀ op ∈ doc.operations, ∀ t ∈ bodyTypes op, ∀ constant,
    checkedSchema (some t) = some constant → ∃ schema, schemaConstant doc constant = some schema ∧
      ∀ v, CorrectBody doc t v → validateBody (.json v) (some schema) = []
  exported : ∀ f ∈ collectOperations doc, ∀ s ∈ f.2.validateImports, s ∈ validateExports doc

/-! ## §2  Modules that load -/

/-- The names whose validators the generic part of the file has. -/
def runtimeNames : List String :=
  ["String", "Number", "Boolean", "Enum", "Array", "Object", "Value", "Request", "Response"]

/-- No two models have one name in PascalCase, none has that of a generic validator, and what is
written about them stays on its line and says `__proto__` once. -/
structure Loadable (doc : Document) : Prop where
  distinct : ((validateSource doc).map (·.name)).Nodup
  free : ∀ mv ∈ validateSource doc, mv.name ∉ runtimeNames
  lines : ∀ mv ∈ validateSource doc, ∀ s ∈ mv.literals, OneLine s
  prototypes : ∀ mv ∈ validateSource doc, mv.prototypes ≤ 1

theorem literal_schemaLiteral_isSome_iff (s : String) :
    (JsLiteral.literal (schemaLiteral s).toList).isSome = true ↔ OneLine s := by
  have hliteral := literal_stringLiteral s []
  rw [List.append_nil] at hliteral
  show (JsLiteral.literal (stringLiteral s).toList).isSome = true ↔ OneLine s
  rw [hliteral]
  split
  · next h => exact iff_of_true rfl h
  · next h => exact iff_of_false Bool.false_ne_true h

/-- The name of a validator is one that `pascal` returns. -/
theorem exists_pascal_of_mem {doc : Document} {mv : ModelValidator} (h : mv ∈ validateSource doc) :
    ∃ s, mv.name = pascal s := by
  obtain ⟨⟨_, o | e⟩, -, rfl⟩ := List.mem_map.mp h
  · exact ⟨o.name, rfl⟩
  · exact ⟨e.name, rfl⟩

/-- No PascalCase name starts as the functions do. -/
theorem pascal_append_ne {s suffix w : String} {c : Char} {cs : List Char} (hw : w.toList = c :: cs)
    (hlower : c.isLower = true) : pascal s ++ suffix ≠ w := by
  intro heq
  have hlist := congrArg String.toList heq
  rw [String.toList_append, hw] at hlist
  have hshape := pascalShape_pascal s
  rcases hpascal : (pascal s).toList with _ | ⟨d, ds⟩
  · rw [hpascal] at hshape
    exact hshape
  · rw [hpascal] at hshape hlist
    obtain rfl : d = c := (List.cons.inj hlist).1
    rcases hshape.2 with hupper | ⟨rfl, -⟩
    · rw [Ascii.isLower_eq_false_of_isUpper hupper] at hlower
      cases hlower
    · exact absurd hlower (by decide)

theorem declarations_eq (mv : ModelValidator) : ∃ suffix : String, suffix.toList.length = 6 ∧
    mv.declarations = [mv.name ++ suffix, "validate" ++ mv.name] := by
  rcases mv with ⟨name, schema⟩ | ⟨name, values⟩
  · exact ⟨"Schema", rfl, rfl⟩
  · exact ⟨"Values", rfl, rfl⟩

theorem validate_ne_pascal (s t suffix : String) : pascal s ++ suffix ≠ "validate" ++ t := by
  have hword : ("validate" ++ t).toList = 'v' :: ("alidate".toList ++ t.toList) := by
    rw [String.toList_append]
    rfl
  exact pascal_append_ne hword rfl

theorem nodup_declarations {doc : Document} {mv : ModelValidator} (h : mv ∈ validateSource doc) :
    mv.declarations.Nodup := by
  obtain ⟨suffix, -, heq⟩ := declarations_eq mv
  obtain ⟨s, hs⟩ := exists_pascal_of_mem h
  rw [heq, List.nodup_cons, List.mem_singleton, hs]
  exact ⟨validate_ne_pascal s _ suffix, List.nodup_singleton _⟩

/-- Two models declare names apart exactly if their own are. -/
theorem disjoint_declarations_iff {doc : Document} {mv mv' : ModelValidator}
    (h : mv ∈ validateSource doc) (h' : mv' ∈ validateSource doc) :
    mv.declarations.Disjoint mv'.declarations ↔ mv.name ≠ mv'.name := by
  obtain ⟨suffix, hlength, heq⟩ := declarations_eq mv
  obtain ⟨suffix', hlength', heq'⟩ := declarations_eq mv'
  obtain ⟨s, hs⟩ := exists_pascal_of_mem h
  obtain ⟨s', hs'⟩ := exists_pascal_of_mem h'
  rw [heq, heq']
  constructor
  · intro hdisjoint hname
    rw [hname] at hdisjoint
    exact hdisjoint (by simp) (List.mem_cons_of_mem _ List.mem_cons_self)
  · intro hne x hx hx'
    rcases List.mem_pair.mp hx with rfl | rfl
    · rcases List.mem_pair.mp hx' with hsame | hsame
      · have hlist := congrArg String.toList hsame
        rw [String.toList_append, String.toList_append] at hlist
        have hnames := (List.append_inj' hlist (hlength.trans hlength'.symm)).1
        exact hne (String.toList_injective hnames)
      · rw [hs] at hsame
        exact validate_ne_pascal s _ suffix hsame
    · rcases List.mem_pair.mp hx' with hsame | hsame
      · rw [hs'] at hsame
        exact validate_ne_pascal s' _ suffix' hsame.symm
      · exact hne (Text.append_inj_left hsame)

theorem validate_mem_runtimeFunctions_iff (s : String) :
    "validate" ++ s ∈ runtimeFunctions ↔ s ∈ runtimeNames := by
  constructor
  · intro h
    have hall : ∀ x ∈ runtimeFunctions,
        x = "resolveSchema" ∨ ∃ n ∈ runtimeNames, x = "validate" ++ n := by decide
    rcases hall _ h with hresolve | ⟨n, hn, heq⟩
    · have hlist := congrArg String.toList hresolve
      rw [String.toList_append] at hlist
      cases hlist
    · rw [Text.append_inj_left heq]
      exact hn
  · have hall : ∀ n ∈ runtimeNames, "validate" ++ n ∈ runtimeFunctions := by decide
    exact hall s

/-- What a model declares is not in the generic part exactly if its validator is not. -/
theorem apart_declarations_iff {doc : Document} {mv : ModelValidator}
    (h : mv ∈ validateSource doc) :
    mv.declarations.Disjoint runtimeFunctions ↔ mv.name ∉ runtimeNames := by
  obtain ⟨suffix, -, heq⟩ := declarations_eq mv
  obtain ⟨s, hs⟩ := exists_pascal_of_mem h
  have hlower : ∀ w ∈ runtimeFunctions, ∃ c cs, w.toList = c :: cs ∧ c.isLower = true := by
    intro w hw
    simp only [runtimeFunctions, List.mem_cons, List.not_mem_nil, or_false] at hw
    rcases hw with rfl | rfl | rfl | rfl | rfl | rfl | rfl | rfl | rfl | rfl
    all_goals exact ⟨_, _, rfl, rfl⟩
  rw [heq, List.disjoint_cons_left, List.singleton_disjoint, validate_mem_runtimeFunctions_iff]
  refine and_iff_right fun hmem => ?_
  obtain ⟨c, cs, hw, hc⟩ := hlower _ hmem
  rw [hs] at hw
  exact pascal_append_ne hw hc rfl

/-- **The documents whose validation module loads.** -/
theorem loads_iff (doc : Document) : Loads doc ↔ Loadable doc := by
  have hliterals : (∀ mv ∈ validateSource doc, ∀ s ∈ mv.literals,
      (JsLiteral.literal (schemaLiteral s).toList).isSome = true) ↔
      ∀ mv ∈ validateSource doc, ∀ s ∈ mv.literals, OneLine s :=
    forall₂_congr fun mv _ => forall₂_congr fun s _ => literal_schemaLiteral_isSome_iff s
  have happart : ((validateSource doc).flatMap (·.declarations)).Disjoint runtimeFunctions ↔
      ∀ mv ∈ validateSource doc, mv.name ∉ runtimeNames := by
    constructor
    · intro h mv hmv
      refine (apart_declarations_iff hmv).mp fun x hx => ?_
      exact h (List.mem_flatMap.mpr ⟨mv, hmv, hx⟩)
    · intro h x hx
      obtain ⟨mv, hmv, hx⟩ := List.mem_flatMap.mp hx
      exact (apart_declarations_iff hmv).mpr (h mv hmv) hx
  have hdeclared : ((validateSource doc).flatMap (·.declarations) ++ runtimeFunctions).Nodup ↔
      ((validateSource doc).map (·.name)).Nodup ∧
        ∀ mv ∈ validateSource doc, mv.name ∉ runtimeNames := by
    rw [List.nodup_append', List.nodup_flatMap, happart,
      and_iff_right fun mv hmv => nodup_declarations hmv,
      and_iff_right (show runtimeFunctions.Nodup by decide), List.Nodup, List.pairwise_map]
    exact and_congr_left' (List.Pairwise.iff_of_mem fun h h' => disjoint_declarations_iff h h')
  constructor
  · intro h
    obtain ⟨hdistinct, hfree⟩ := hdeclared.mp h.declared
    exact ⟨hdistinct, hfree, hliterals.mp h.literals, h.prototypes⟩
  · intro h
    exact ⟨hdeclared.mpr ⟨h.distinct, h.free⟩, hliterals.mpr h.lines, h.prototypes⟩

theorem validateModule_eq {doc : Document} (h : Loads doc) :
    validateModule doc = some (validateSource doc) := if_pos h

/-! ## §3  Descriptors of the properties -/

/-- The descriptor of the first type passes every right value of the second. -/
def Spares : IrType → IrType → Prop
  | .reference _ _ _, _ => True
  | .array item _, .array item' _ => Spares item item'
  | .composition .allOf (m :: _) _, t => Spares m t
  | .composition .oneOf members _, _ => (firstReference members).isSome = true
  | .composition .anyOf members _, _ => (firstReference members).isSome = true
  | _, _ => False

/-- The model that is found under a PascalCase name. -/
def modelNamed (doc : Document) (name : String) : Option Model :=
  (doc.schemas.models.entries.map Prod.snd).find? fun m => pascal (modelName m) == name

theorem name_modelValidator (m : Model) : (modelValidator m).name = pascal (modelName m) := by
  rcases m with o | e
  · rfl
  · rfl

theorem validatorNamed_eq {doc : Document} (h : Loads doc) (name : String) :
    validatorNamed doc name = (modelNamed doc name).map modelValidator := by
  have hsource : validateSource doc =
      (doc.schemas.models.entries.map Prod.snd).map modelValidator := by
    rw [List.map_map]
    rfl
  rw [validatorNamed, validateModule_eq h, Option.bind_some, modelNamed, hsource, List.find?_map]
  simp only [Function.comp_def, name_modelValidator]

theorem schemaConstant_eq {doc : Document} (h : Loads doc) (name : String) :
    schemaConstant doc (name ++ "Schema") =
      match validatorNamed doc name with
      | some (.object _ schema) => some schema
      | _ => none := by
  have hname : (fun mv : ModelValidator => mv.name ++ "Schema" == name ++ "Schema") =
      fun mv => mv.name == name := by
    funext mv
    rw [Bool.eq_iff_iff, beq_iff_eq, beq_iff_eq]
    exact ⟨Text.append_inj_right, fun h => by rw [h]⟩
  rw [schemaConstant, validatorNamed, validateModule_eq h, Option.bind_some, Option.bind_some, hname]

/-- The constant of a model is there exactly for object models, if the module loads. -/
theorem schemaConstant_eq_some_iff {doc : Document} {name : String} {schema : SchemaObject} :
    schemaConstant doc (name ++ "Schema") = some schema ↔
      Loads doc ∧ ∃ o, modelNamed doc name = some (.object o) ∧ schema = objectSchema o := by
  by_cases hloads : Loads doc
  · rw [schemaConstant_eq hloads, validatorNamed_eq hloads, and_iff_right hloads]
    rcases modelNamed doc name with _ | ⟨o | e⟩
    · simp
    · simp [modelValidator, eq_comm]
    · simp [modelValidator]
  · refine iff_of_false (fun h => ?_) fun h => hloads h.1
    rw [schemaConstant, validateModule, if_neg hloads] at h
    cases h

theorem checkedSchema_eq (t : IrType) :
    checkedSchema (some t) = (modelUnder t).map fun r => pascal r ++ "Schema" := by
  rw [checkedSchema, Option.bind_some, Option.bind_some, validatorName_eq, schemaName_eq]
  rcases modelUnder t with _ | r
  · rfl
  · rfl

theorem validateModelValue_eq {w : JsValue} (h : w.isNull = false) {schema : SchemaObject}
    {path : String} : validateModelValue w schema path = validateObject w schema path := by
  rw [validateModelValue, h]
  rfl

/-- An object that has all properties of the descriptor, each of them null, passes. -/
theorem validate_nulls (schema : SchemaObject) (path : String) :
    validateModelValue (.json (.object (schema.entries.map fun e => (e.1, .null)))) schema path
      = [] := by
  rw [validateModelValue_eq rfl, validateObject_eq_nil_iff]
  refine ⟨rfl, ?_⟩
  rintro ⟨key, f⟩ he
  have hlookup : ∀ l : List (String × SchemaField), (key, f) ∈ l →
      (l.map fun e => (e.1, Value.null)).lookup key = some .null := by
    intro l hl
    induction l with
    | nil => exact absurd hl List.not_mem_nil
    | cons e l ih =>
        rw [List.map_cons]
        by_cases hkey : key = e.1
        · exact lookup_cons_self hkey
        · rw [lookup_cons_ne (e := (e.1, Value.null)) hkey]
          refine ih ((List.mem_cons.mp hl).resolve_left ?_)
          intro heq
          exact hkey (congrArg Prod.fst heq)
  have hget : (JsValue.json (.object (schema.entries.map fun e => (e.1, .null)))).get key =
      some (.json .null) := by
    rw [JsValue.get, hlookup _ he]
    rfl
  refine validateField_eq_nil_iff.mpr ⟨?_, ?_⟩
  · intro hnone
    rw [hget] at hnone
    cases hnone
  · intro x hx
    rw [hget] at hx
    rw [← Option.some.inj hx]
    exact Or.inl rfl

/-- A type made of the model by arrays and maps has a right value, an array or an object. -/
theorem exists_correctBody {doc : Document} (hloads : Loads doc) {t : IrType} {r : String}
    {o : ObjectModel} (hr : modelUnder t = some r) (ho : modelNamed doc (pascal r) = some (.object o)) :
    ∃ v, CorrectBody doc t v ∧ v ≠ .null ∧ (JsValue.json v).typeOf = "object" ∧
      ((∀ item nullable, t ≠ .array item nullable) → (JsValue.json v).asArray = none) := by
  rcases t with _ | _ | ⟨item, nullable⟩ | value | ⟨name, nullable, _⟩ | _ | _ | _
  · cases hr
  · cases hr
  · refine ⟨.array [], Or.inr ⟨[], rfl, fun x hx => absurd hx List.not_mem_nil⟩, ?_, rfl, ?_⟩
    · exact fun h => Value.noConfusion h
    · exact fun h => absurd rfl (h item nullable)
  · refine ⟨.object [], ⟨[], rfl, fun x hx => absurd hx List.not_mem_nil⟩, ?_, rfl, fun _ => rfl⟩
    exact fun h => Value.noConfusion h
  · obtain rfl := Option.some.inj hr
    have hvalidator : validatorNamed doc (pascal name) =
        some (.object (pascal o.name) (objectSchema o)) := by
      rw [validatorNamed_eq hloads, ho]
      rfl
    refine ⟨_, Or.inr ⟨_, hvalidator, validate_nulls (objectSchema o) ""⟩, ?_, rfl, fun _ => rfl⟩
    exact fun h => Value.noConfusion h
  · cases hr
  · cases hr
  · cases hr

/-- The descriptor passes every right value of the type. -/
def Spared (doc : Document) (schema : SchemaType) (t : IrType) : Prop :=
  ∀ v, CorrectBody doc t v → v = .null ∨ Passes schema (.json v)

/-- There is something to pass. -/
theorem Spared.exists_passes {doc : Document} (hloads : Loads doc) {schema : SchemaType}
    {t : IrType} {r : String} {o : ObjectModel} (h : Spared doc schema t) (hr : modelUnder t = some r)
    (ho : modelNamed doc (pascal r) = some (.object o)) :
    ∃ w, Passes schema w ∧ w.typeOf = "object" ∧
      ((∀ item nullable, t ≠ .array item nullable) → w.asArray = none) := by
  obtain ⟨v, hv, hnull, htype, harray⟩ := exists_correctBody hloads hr ho
  exact ⟨.json v, (h v hv).resolve_left hnull, htype, harray⟩

theorem spared_array_iff {doc : Document} {items : SchemaType} {item : IrType} {nullable : Bool} :
    Spared doc (.array items) (.array item nullable) ↔ Spared doc items item := by
  constructor
  · intro h x hx
    have hsingle : CorrectBody doc (.array item nullable) (.array [x]) :=
      Or.inr ⟨[x], rfl, List.forall_mem_singleton.mpr hx⟩
    obtain ⟨xs, hxs, hall⟩ := (h _ hsingle).resolve_left fun hnull => Value.noConfusion hnull
    rw [← Option.some.inj hxs] at hall
    exact (hall (.json x) List.mem_cons_self).imp_left isNull_json.mp
  · rintro h v (⟨-, rfl⟩ | ⟨xs, rfl, hall⟩)
    · exact Or.inl rfl
    · refine Or.inr ⟨_, rfl, ?_⟩
      rw [List.forall_mem_map]
      exact fun x hx => (h x (hall x hx)).imp_left isNull_json.mpr

theorem not_spared_string {doc : Document} (hloads : Loads doc) {t : IrType} {r : String}
    {o : ObjectModel} (hr : modelUnder t = some r) (ho : modelNamed doc (pascal r) = some (.object o)) :
    ¬ Spared doc .string t := by
  intro h
  obtain ⟨w, hpass, htype, -⟩ := h.exists_passes hloads hr ho
  rw [Passes, htype] at hpass
  exact absurd hpass (by decide)

theorem spared_union_iff {doc : Document} (hloads : Loads doc) {t : IrType} {r : String}
    {o : ObjectModel} (hr : modelUnder t = some r) (ho : modelNamed doc (pascal r) = some (.object o))
    (members : List IrType) :
    Spared doc (unionDescriptor members) t ↔ (firstReference members).isSome = true := by
  constructor
  · intro h
    obtain ⟨w, hpass, htype, -⟩ := h.exists_passes hloads hr ho
    rw [passes_unionDescriptor, htype] at hpass
    exact hpass.resolve_right (by decide)
  · intro hsome x _
    rw [passes_unionDescriptor]
    exact Or.inr (Or.inl hsome)

/-- **Which descriptors pass every right value of a type.** -/
theorem spared_descriptor_iff {doc : Document} (hloads : Loads doc) {r : String} {o : ObjectModel}
    (ho : modelNamed doc (pascal r) = some (.object o)) (p : IrType) {t : IrType}
    (hr : modelUnder t = some r) : Spared doc (descriptor p) t ↔ Spares p t := by
  induction p using IrType.induction generalizing t with
  | scalar s =>
      refine iff_of_false (fun h => ?_) not_false
      obtain ⟨w, hpass, htype, -⟩ := h.exists_passes hloads hr ho
      rcases s with _ | _ | _ | _ | _ | _ | _ | _ | _
      all_goals
        rw [descriptor, scalarDescriptor, Passes, htype] at hpass
        exact absurd hpass (by decide)
  | stringEnum variants nullable =>
      refine iff_of_false (fun h => ?_) not_false
      obtain ⟨w, ⟨s, -, rfl⟩, htype, -⟩ := h.exists_passes hloads hr ho
      exact absurd (show "string" = "object" from htype) (by decide)
  | array item nullable ih =>
      by_cases hitem : ∃ item' nullable', t = .array item' nullable'
      · obtain ⟨item', nullable', rfl⟩ := hitem
        exact spared_array_iff.trans (ih hr)
      · have hnot : ∀ item' nullable', t ≠ .array item' nullable' :=
          fun item' nullable' heq => hitem ⟨item', nullable', heq⟩
        have hspares : ¬ Spares (.array item nullable) t := by
          rcases t with _ | _ | ⟨item', nullable'⟩ | _ | _ | _ | _ | _
          all_goals first | exact not_false | exact absurd rfl (hnot item' nullable')
        refine iff_of_false (fun h => ?_) hspares
        obtain ⟨w, ⟨xs, hxs, -⟩, -, harray⟩ := h.exists_passes hloads hr ho
        rw [harray hnot] at hxs
        cases hxs
  | map value ih => exact iff_of_false (not_spared_string hloads hr ho) not_false
  | reference name nullable description =>
      exact iff_of_true (fun _ _ => Or.inr trivial) trivial
  | composition kind members discriminator ih =>
      rcases kind with _ | _ | _
      · rcases members with _ | ⟨m, ms⟩
        · exact iff_of_false (not_spared_string hloads hr ho) not_false
        · exact ih m List.mem_cons_self hr
      · exact spared_union_iff hloads hr ho members
      · exact spared_union_iff hloads hr ho members
  | any => exact iff_of_false (not_spared_string hloads hr ho) not_false
  | unknown => exact iff_of_false (not_spared_string hloads hr ho) not_false

/-! ## §4  A map checked as a model -/

/-- No property of the model is in the way of a map with right values. -/
def MapPasses (o : ObjectModel) (value : IrType) : Prop :=
  ∀ name p, describedProperty o name = some p → name ≠ "__proto__" →
    (name ∉ Js.prototypeMethods → p.required = false) ∧
    (name ∈ Js.prototypeMethods → LeftAlone p.ty) ∧ Spares p.ty value

theorem mem_entries_objectSchema {o : ObjectModel} {name : String} {f : SchemaField} :
    (name, f) ∈ (objectSchema o).entries ↔ name ≠ "__proto__" ∧
      ∃ p, describedProperty o name = some p ∧ f = ⟨descriptor p.ty, p.required⟩ := by
  rw [mem_entries, lookup_fields]
  refine and_congr_right fun _ => ?_
  rw [Option.map_eq_some_iff]
  exact exists_congr fun p => and_congr_right fun _ => eq_comm

theorem mapPasses_iff {doc : Document} (hloads : Loads doc) {r : String} {o : ObjectModel}
    (ho : modelNamed doc (pascal r) = some (.object o)) {value : IrType}
    (hr : modelUnder value = some r) (path : String) :
    (∀ v, CorrectBody doc (.map value) v →
      validateModelValue (.json v) (objectSchema o) path = []) ↔ MapPasses o value := by
  constructor
  · intro h name p hp hproto
    have hentry := mem_entries_objectSchema.mpr ⟨hproto, p, hp, rfl⟩
    -- a map without entries, and one with the name as its only key
    have hempty := h (.object []) ⟨[], rfl, fun x hx => absurd hx List.not_mem_nil⟩
    rw [validateModelValue_eq rfl, validateObject_eq_nil_iff] at hempty
    obtain ⟨hmissing, hinherited⟩ := validateField_eq_nil_iff.mp (hempty.2 _ hentry)
    refine ⟨fun hmethod => hmissing ?_, fun hmethod => ?_, ?_⟩
    · rw [JsValue.get, JsValue.inherited, if_neg hproto, if_neg hmethod]
      rfl
    · have hget := (get_object [] hproto).mpr (Or.inr ⟨rfl, hmethod, rfl⟩)
      exact (passes_method_iff p.ty).mp ((hinherited _ hget).resolve_left Bool.false_ne_true)
    · refine (spared_descriptor_iff hloads ho p.ty hr).mp fun w hw => ?_
      have hbody : CorrectBody doc (.map value) (.object [(name, w)]) :=
        ⟨_, rfl, List.forall_mem_singleton.mpr hw⟩
      have hsingle := h _ hbody
      rw [validateModelValue_eq rfl, validateObject_eq_nil_iff] at hsingle
      obtain ⟨-, hread⟩ := validateField_eq_nil_iff.mp (hsingle.2 _ hentry)
      have hlookup : ([(name, w)] : List (String × Value)).lookup name = some w :=
        lookup_cons_self (e := (name, w)) rfl
      have hget := (get_object [(name, w)] hproto).mpr (Or.inl ⟨w, hlookup, rfl⟩)
      exact (hread _ hget).imp_left isNull_json.mp
  · rintro h v ⟨obj, rfl, hobj⟩
    rw [validateModelValue_eq rfl, validateObject_eq_nil_iff]
    refine ⟨rfl, ?_⟩
    rintro ⟨name, f⟩ hentry
    obtain ⟨hproto, p, hp, rfl⟩ := mem_entries_objectSchema.mp hentry
    obtain ⟨hrequired, hmethods, hspares⟩ := h name p hp hproto
    refine validateField_eq_nil_iff.mpr ⟨fun hnone => hrequired fun hmethod => ?_, fun x hx => ?_⟩
    · rcases hlookup : obj.lookup name with _ | w
      · have hget := (get_object obj hproto).mpr (Or.inr ⟨hlookup, hmethod, rfl⟩)
        rw [hnone] at hget
        cases hget
      · have hget := (get_object obj hproto).mpr (Or.inl ⟨w, hlookup, rfl⟩)
        rw [hnone] at hget
        cases hget
    · rcases (get_object obj hproto).mp hx with ⟨w, hw, rfl⟩ | ⟨-, hmethod, rfl⟩
      · have hright := hobj _ (mem_of_lookup_eq_some hw)
        have hspared := (spared_descriptor_iff hloads ho p.ty hr).mpr hspares w hright
        exact hspared.imp_left isNull_json.mpr
      · exact Or.inr ((passes_method_iff p.ty).mpr (hmethods hmethod))

/-! ## §5  The condition -/

/-- A body of the type may be checked for being the model. -/
def BodyPasses (o : ObjectModel) : IrType → Prop
  | .array _ _ => False
  | .map value => MapPasses o value
  | _ => True

theorem bodyPasses_iff {doc : Document} (hloads : Loads doc) {t : IrType} {r : String}
    {o : ObjectModel} (hr : modelUnder t = some r) (ho : modelNamed doc (pascal r) = some (.object o)) :
    (∀ v, CorrectBody doc t v → validateBody (.json v) (some (objectSchema o)) = []) ↔
      BodyPasses o t := by
  have hbody : ∀ v, validateBody (.json v) (some (objectSchema o)) =
      validateModelValue (.json v) (objectSchema o) "body" := by
    intro v
    rw [validateBody, validateModelValue]
    split
    · rfl
    · rfl
  simp only [hbody]
  rcases t with _ | _ | ⟨item, nullable⟩ | value | ⟨name, nullable, _⟩ | _ | _ | _
  · cases hr
  · cases hr
  · refine iff_of_false (fun h => ?_) not_false
    have hempty := h (.array []) (Or.inr ⟨[], rfl, fun x hx => absurd hx List.not_mem_nil⟩)
    rw [validateModelValue_eq rfl, validateObject_eq_nil_iff] at hempty
    exact Bool.false_ne_true hempty.1
  · exact mapPasses_iff hloads ho (show modelUnder value = some r from hr) "body"
  · refine iff_of_true ?_ trivial
    obtain rfl := Option.some.inj hr
    rintro v (⟨-, rfl⟩ | ⟨mv, hmv, hpass⟩)
    · rfl
    · rw [validatorNamed_eq hloads, ho] at hmv
      obtain rfl := Option.some.inj hmv
      have hmodel : validateModelValue (.json v) (objectSchema o) "" = [] := hpass
      by_cases hnull : (JsValue.json v).isNull = true
      · rw [validateModelValue, if_pos hnull]
      · rw [Bool.not_eq_true] at hnull
        rw [validateModelValue_eq hnull, validateObject_eq_nil_iff] at hmodel ⊢
        refine ⟨hmodel.1, fun e he => ?_⟩
        exact validateField_eq_nil_iff.mpr (validateField_eq_nil_iff.mp (hmodel.2 e he))
  · cases hr
  · cases hr
  · cases hr

theorem requestType_mem_bodyTypes {op : Operation} {t : IrType} (h : requestType op = some t) :
    t ∈ bodyTypes op := by
  rw [bodyTypes, h]
  exact List.mem_cons_self

theorem successBody_mem_bodyTypes {op : Operation} {t : IrType} (h : successBody op = some t) :
    t ∈ bodyTypes op := by
  rw [bodyTypes, h]
  exact List.mem_append_right _ List.mem_cons_self

/-- What is used of the validation module is used for a model under one of the bodies. -/
theorem exists_modelUnder_of_used {op : Operation} {s : String} (h : s ∈ usedValidators op) :
    ∃ t ∈ bodyTypes op, ∃ r, modelUnder t = some r := by
  by_contra hnone
  push Not at hnone
  have hunnamed : ∀ body : Option IrType, (∀ t, body = some t → t ∈ bodyTypes op) →
      body.bind validatorName = none ∧ body.bind schemaName = none := by
    rintro (_ | t) hbody
    · exact ⟨rfl, rfl⟩
    · have hunder : modelUnder t = none :=
        Option.eq_none_iff_forall_ne_some.mpr (hnone t (hbody t rfl))
      rw [Option.bind_some, Option.bind_some, validatorName_eq, schemaName_eq, hunder]
      exact ⟨rfl, rfl⟩
  obtain ⟨hrequest, hrequest'⟩ := hunnamed (requestType op) fun _ => requestType_mem_bodyTypes
  obtain ⟨hsuccess, hsuccess'⟩ := hunnamed (successBody op) fun _ => successBody_mem_bodyTypes
  rw [usedValidators, hrequest, hrequest', hsuccess, hsuccess'] at h
  exact absurd h List.not_mem_nil

/-- The descriptor and the validator of an object model are exported. -/
theorem exports_of_modelNamed {doc : Document} (hloads : Loads doc) {name : String}
    {o : ObjectModel} (ho : modelNamed doc name = some (.object o)) :
    name ++ "Schema" ∈ validateExports doc ∧ "validate" ++ name ∈ validateExports doc := by
  have hname : pascal o.name = name := by simpa [modelName] using List.find?_some ho
  have hmem : ModelValidator.object name (objectSchema o) ∈ validateSource doc := by
    obtain ⟨x, hx, hxo⟩ := List.mem_map.mp (List.mem_of_find?_eq_some ho)
    rw [← hname]
    exact List.mem_map.mpr ⟨x, hx, by rw [hxo]; rfl⟩
  have hexports : ∀ s ∈ (ModelValidator.object name (objectSchema o)).exports,
      s ∈ validateExports doc := by
    intro s hs
    rw [validateExports, validateModule_eq hloads]
    refine List.mem_append_left _ (List.mem_append_right _ ?_)
    exact List.mem_flatMap.mpr ⟨_, hmem, hs⟩
  exact ⟨hexports _ List.mem_cons_self, hexports _ (List.mem_cons_of_mem _ List.mem_cons_self)⟩

theorem runtime_exports {doc : Document} (hloads : Loads doc) :
    ∀ s ∈ ["validateValue", "validateRequest", "validateResponse"], s ∈ validateExports doc := by
  intro s hs
  rw [validateExports, validateModule_eq hloads]
  exact List.mem_append_right _ hs

/-- What is used for a body is exported if its model is an object model. -/
theorem exported_of_body {doc : Document} (hloads : Loads doc) {body : Option IrType}
    (h : ∀ t, body = some t → ∀ r, modelUnder t = some r →
      ∃ o, modelNamed doc (pascal r) = some (.object o)) {s : String}
    (hs : s ∈ (body.bind validatorName).toList ∨ s ∈ (body.bind schemaName).toList) :
    s ∈ validateExports doc := by
  rw [Option.mem_toList, Option.mem_toList, Option.bind_eq_some_iff,
    Option.bind_eq_some_iff] at hs
  rcases hs with ⟨t, ht, hs⟩ | ⟨t, ht, hs⟩
  · rw [validatorName_eq, Option.map_eq_some_iff] at hs
    obtain ⟨r, hr, rfl⟩ := hs
    obtain ⟨o, ho⟩ := h t ht r hr
    exact (exports_of_modelNamed hloads ho).2
  · rw [schemaName_eq, Option.map_eq_some_iff] at hs
    obtain ⟨r, hr, rfl⟩ := hs
    obtain ⟨o, ho⟩ := h t ht r hr
    exact (exports_of_modelNamed hloads ho).1

/-- What a method uses of the validation module is exported if the models of its bodies are
object models. -/
theorem exported_of_object {doc : Document} (hloads : Loads doc) {op : Operation}
    (h : ∀ t ∈ bodyTypes op, ∀ r, modelUnder t = some r →
      ∃ o, modelNamed doc (pascal r) = some (.object o)) :
    ∀ s ∈ usedValidators op, s ∈ validateExports doc := by
  have hrequest : ∀ t, requestType op = some t → ∀ r, modelUnder t = some r →
      ∃ o, modelNamed doc (pascal r) = some (.object o) :=
    fun t ht => h t (requestType_mem_bodyTypes ht)
  have hsuccess : ∀ t, successBody op = some t → ∀ r, modelUnder t = some r →
      ∃ o, modelNamed doc (pascal r) = some (.object o) :=
    fun t ht => h t (successBody_mem_bodyTypes ht)
  intro s hs
  simp only [usedValidators, List.mem_append] at hs
  rcases hs with ((((hs | hs) | hs) | hs) | hs) | hs
  · exact exported_of_body hloads hrequest (Or.inl hs)
  · exact exported_of_body hloads hsuccess (Or.inl hs)
  · exact exported_of_body hloads hrequest (Or.inr hs)
  · exact exported_of_body hloads hsuccess (Or.inr hs)
  · split at hs
    · rw [List.mem_singleton.mp hs]
      exact runtime_exports hloads _ (by simp)
    · exact absurd hs List.not_mem_nil
  · split at hs
    · rw [List.mem_singleton.mp hs]
      exact runtime_exports hloads _ (by simp)
    · exact absurd hs List.not_mem_nil

/-- **When bodies are validated for what they are declared to be.** Where a body has a model under
its arrays and maps, exactly when the module loads, the model is an object model, and the body is
that model or a map that passes for it. -/
theorem bodiesValidated_iff (doc : Document) :
    BodiesValidated doc ↔ ∀ op ∈ doc.operations, ∀ t ∈ bodyTypes op, ∀ r, modelUnder t = some r →
      Loadable doc ∧ ∃ o, modelNamed doc (pascal r) = some (.object o) ∧ BodyPasses o t := by
  constructor
  · rintro ⟨hdescribed, -⟩ op hop t ht r hr
    have hchecked : checkedSchema (some t) = some (pascal r ++ "Schema") := by
      rw [checkedSchema_eq, hr]
      rfl
    obtain ⟨schema, hschema, hall⟩ := hdescribed op hop t ht _ hchecked
    obtain ⟨hloads, o, ho, rfl⟩ := schemaConstant_eq_some_iff.mp hschema
    exact ⟨(loads_iff doc).mp hloads, o, ho, (bodyPasses_iff hloads hr ho).mp hall⟩
  · intro h
    refine ⟨?_, ?_⟩
    · intro op hop t ht constant hchecked
      rw [checkedSchema_eq, Option.map_eq_some_iff] at hchecked
      obtain ⟨r, hr, rfl⟩ := hchecked
      obtain ⟨hloadable, o, ho, hpasses⟩ := h op hop t ht r hr
      have hloads := (loads_iff doc).mpr hloadable
      exact ⟨_, schemaConstant_eq_some_iff.mpr ⟨hloads, o, ho, rfl⟩,
        (bodyPasses_iff hloads hr ho).mpr hpasses⟩
    · intro f hf s hs
      obtain ⟨tag, -, rfl⟩ := mem_collectOperations.mp hf
      rw [emitTagFile, BTreeMap.mem_sortedSet, List.mem_flatMap] at hs
      obtain ⟨m, hm, hsm⟩ := hs
      obtain ⟨op, hop, rfl⟩ := List.mem_map.mp hm
      have hop' := (List.mem_filter.mp hop).1
      -- what is imported is imported for a model under one of the bodies
      obtain ⟨t, ht, r, hr⟩ := exists_modelUnder_of_used hsm
      have hloads := (loads_iff doc).mpr (h op hop' t ht r hr).1
      refine exported_of_object hloads (fun t ht r hr => ?_) s hsm
      obtain ⟨-, o, ho, -⟩ := h op hop' t ht r hr
      exact ⟨o, ho⟩

/-- A pet store that takes many pets at once. -/
def bulkStore : Document :=
  Document.minimal ⟨IndexMap.ofList
    [("Pet", .object ⟨"Pet", none, [⟨"name", .scalar .string, true, none⟩], none, none, none⟩)]⟩
    [⟨"createPets", .post, "/pets", some "pets", none, none, [],
      some ⟨.array (.reference "Pet" false none) false, true, none⟩, [], none⟩]

/-- The list of pets is checked for being a pet. -/
theorem bulkStore_rejected : ¬ ∀ doc : Document, BodiesValidated doc := by
  intro h
  obtain ⟨schema, -, hall⟩ := (h bulkStore).described _ List.mem_cons_self
    (.array (.reference "Pet" false none) false) List.mem_cons_self "PetSchema" (by decide)
  have hempty := hall (.array []) (Or.inr ⟨[], rfl, fun x hx => absurd hx List.not_mem_nil⟩)
  exact absurd hempty (List.cons_ne_nil _ _)

end SpecForge.Ts
