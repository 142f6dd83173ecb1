import SpecForge.Core.Termination

/-!
# What becomes of `nullable`

Only string enums and arrays carry the flag of their schema into the IR. The
`NullFate` of a type says whether `null` passes it in every registry, in none,
or whether a `$ref` has a say (§1, §2); the fate of the type of a schema is read off the
schema itself (§3).
-/

namespace SpecForge

open Lib
open OpenApi (ReferenceOr Schema SchemaData SchemaKind OApiType StringType)

/-! ## §1  Fates -/

inductive NullFate where
  | accepted
  | rejected
  | undecided
deriving DecidableEq

namespace NullFate

def ofNullable (nullable : Bool) : NullFate := if nullable then accepted else rejected

/-- All members have to accept. -/
def ofAll (fates : List NullFate) : NullFate :=
  if undecided ∈ fates then undecided
  else if rejected ∈ fates then rejected
  else accepted

/-- Some member has to accept, if there is one; each of them is run. -/
def ofAny (fates : List NullFate) : NullFate :=
  if undecided ∈ fates then undecided
  else if fates = [] ∨ accepted ∈ fates then accepted
  else rejected

def ofComposition : CompositionKind → List NullFate → NullFate
  | .allOf, fates => ofAll fates
  | _, fates => ofAny fates

theorem ofComposition_undecided_iff {kind : CompositionKind} {fates : List NullFate} :
    ofComposition kind fates = undecided ↔ undecided ∈ fates := by
  cases kind with
  | allOf =>
      show ofAll fates = undecided ↔ _
      unfold ofAll
      split
      · next h => simp [h]
      · next h => split <;> simp [h]
  | _ =>
      show ofAny fates = undecided ↔ _
      unfold ofAny
      split
      · next h => simp [h]
      · next h => split <;> simp [h]

theorem ofAll_accepted_iff {fates : List NullFate} (h : undecided ∉ fates) :
    ofAll fates = accepted ↔ ∀ f ∈ fates, f = accepted := by
  rw [ofAll, if_neg h]
  constructor
  · intro hacc f hf
    cases f with
    | accepted => rfl
    | rejected =>
        rw [if_pos hf] at hacc
        cases hacc
    | undecided => exact absurd hf h
  · intro hall
    rw [if_neg]
    intro hr
    cases hall _ hr

theorem ofAny_accepted_iff {fates : List NullFate} (h : undecided ∉ fates) :
    ofAny fates = accepted ↔ fates = [] ∨ accepted ∈ fates := by
  rw [ofAny, if_neg h]
  split
  · next hacc => exact iff_of_true rfl hacc
  · next hacc => exact iff_of_false nofun hacc

end NullFate

open NullFate

mutual

def IrType.nullFate : IrType → NullFate
  | .scalar _ => rejected
  | .stringEnum _ nullable => ofNullable nullable
  | .array _ nullable => ofNullable nullable
  | .map _ => accepted
  | .reference _ nullable _ => if nullable then accepted else undecided
  | .composition kind members _ => ofComposition kind (nullFatesOfMembers members)
  | .any => accepted
  | .unknown => accepted

def nullFatesOfMembers : List IrType → List NullFate
  | [] => []
  | m :: ms => m.nullFate :: nullFatesOfMembers ms

end

theorem nullFatesOfMembers_eq : ∀ ms : List IrType, nullFatesOfMembers ms = ms.map IrType.nullFate
  | [] => by rw [nullFatesOfMembers, List.map_nil]
  | m :: ms => by rw [nullFatesOfMembers, List.map_cons, nullFatesOfMembers_eq ms]

/-! ## §2  `null` against a type -/

theorem ofNullable_eq_accepted_iff {nullable : Bool} :
    ofNullable nullable = accepted ↔ nullable = true := by
  cases nullable <;> simp [ofNullable]

theorem validates_nullable_reference {reg : SchemaRegistry} {name : String}
    {description : Option String} : Validates reg .null (.reference name true description) := by
  cases hget : reg.get name with
  | none => exact validates_reference_unknown hget
  | some model =>
      cases model with
      | enum e => exact (validates_reference_enum hget).mpr (Or.inl ⟨rfl, rfl⟩)
      | object o =>
          cases hshape : o.shapeType with
          | none => exact (validates_reference_object hget hshape).mpr (Or.inl ⟨rfl, rfl⟩)
          | some shape => exact (validates_reference_shape hget hshape).mpr (Or.inl ⟨rfl, rfl⟩)

/-- The members of a composition decide on `null`, if each of them does. -/
theorem validates_null_composition {reg : SchemaRegistry} {kind : CompositionKind}
    {members : List IrType} {discriminator : Option Discriminator}
    (hsettles : ∀ m ∈ members, Settles reg .null m)
    (hvalid : ∀ m ∈ members, Validates reg .null m ↔ m.nullFate = accepted)
    (h : undecided ∉ members.map IrType.nullFate) :
    Validates reg .null (.composition kind members discriminator) ↔
      ofComposition kind (members.map IrType.nullFate) = accepted := by
  have hsome : (∃ m ∈ members, Validates reg .null m) ↔
      accepted ∈ members.map IrType.nullFate := by
    rw [List.mem_map]
    exact exists_congr fun m => and_congr_right fun hm => hvalid m hm
  by_cases hkind : kind = .allOf
  · subst hkind
    show _ ↔ ofAll _ = accepted
    rw [validates_allOf, ofAll_accepted_iff h, List.forall_mem_map]
    exact forall₂_congr hvalid
  · have hany : ofComposition kind (members.map IrType.nullFate)
        = ofAny (members.map IrType.nullFate) := by
      cases kind with
      | allOf => exact absurd rfl hkind
      | _ => rfl
    rw [validates_anyOf hkind hsettles, hany, ofAny_accepted_iff h, hsome, List.map_eq_nil_iff]

/-- Where no `$ref` has a say, `null` is treated alike in every registry. -/
theorem validates_null_of_decided (reg : SchemaRegistry) {t : IrType}
    (h : t.nullFate ≠ undecided) :
    Settles reg .null t ∧ (Validates reg .null t ↔ t.nullFate = accepted) := by
  induction t using IrType.induction with
  | composition kind members discriminator ih =>
      rw [IrType.nullFate, nullFatesOfMembers_eq] at h ⊢
      rw [ne_eq, ofComposition_undecided_iff] at h
      have hmember : ∀ m ∈ members, m.nullFate ≠ undecided :=
        fun m hm hu => h (List.mem_map.mpr ⟨m, hm, hu⟩)
      have hsettles : ∀ m ∈ members, Settles reg .null m :=
        fun m hm => (ih m hm (hmember m hm)).1
      constructor
      · refine settles_of_calls fun w s hcall => ?_
        cases hcall with
        | member hm => exact hsettles s hm
      · exact validates_null_composition hsettles (fun m hm => (ih m hm (hmember m hm)).2) h
  | reference name nullable description =>
      rw [IrType.nullFate] at h ⊢
      cases nullable with
      | false => exact absurd rfl h
      | true =>
          exact ⟨⟨_, validates_nullable_reference⟩, fun _ => rfl,
            fun _ => validates_nullable_reference⟩
  | scalar s =>
      refine ⟨settles_of_calls fun _ _ hcall => (by cases hcall), ?_⟩
      rw [validates_scalar, IrType.nullFate]
      cases s <;> simp [acceptsScalar, Value.isString, Value.isI64, Value.isU64,
        Value.isNumber, Value.isBoolean]
  | stringEnum variants nullable =>
      refine ⟨settles_of_calls fun _ _ hcall => (by cases hcall), ?_⟩
      rw [validates_stringEnum, IrType.nullFate, ofNullable_eq_accepted_iff]
      simp
  | array item nullable _ =>
      refine ⟨settles_of_calls fun _ _ hcall => (by cases hcall), ?_⟩
      rw [validates_array, IrType.nullFate, ofNullable_eq_accepted_iff]
      simp
  | map value _ =>
      refine ⟨settles_of_calls fun _ _ hcall => (by cases hcall), ?_⟩
      rw [validates_map, IrType.nullFate]
      simp
  | any => exact ⟨⟨_, validates_any⟩, fun _ => rfl, fun _ => validates_any⟩
  | unknown => exact ⟨⟨_, validates_unknown⟩, fun _ => rfl, fun _ => validates_unknown⟩

/-- A registry in which each of the names leads to itself. -/
def loopRegistry (names : List String) : SchemaRegistry :=
  ⟨IndexMap.ofList (names.map fun n => (n, .object
    { name := n
      description := none
      properties := []
      additionalProperties := none
      shapeType := some (.reference n false none)
      baseType := none }))⟩

theorem loopRegistry_loops {names : List String} {n : String} (hn : n ∈ names)
    (v : Value) (description : Option String) :
    Calls (loopRegistry names) (v, .reference n false description)
      (v, .reference n false none) := by
  have hkey : n ∈ (loopRegistry names).models.keys := by
    refine IndexMap.mem_keys_ofList.mpr ?_
    rw [List.map_map]
    exact List.mem_map.mpr ⟨n, hn, rfl⟩
  obtain ⟨model, hmodel⟩ := IndexMap.mem_keys_iff.mp hkey
  obtain ⟨n', -, heq⟩ := List.mem_map.mp (IndexMap.mem_of_get_ofList hmodel)
  cases heq
  exact .shape (by simp) hmodel rfl

/-- A `$ref` that has a say is reached with `null`. -/
theorem calls_of_undecided {reg : SchemaRegistry} {t : IrType} (h : t.nullFate = undecided) :
    ∃ n ∈ t.heads, ∃ description,
      Relation.ReflTransGen (Calls reg) (.null, t) (.null, .reference n false description) := by
  induction t using IrType.induction with
  | reference name nullable description =>
      cases nullable with
      | false => exact ⟨name, List.mem_singleton.mpr rfl, description, .refl⟩
      | true => simp [IrType.nullFate] at h
  | composition kind members discriminator ih =>
      rw [IrType.nullFate, ofComposition_undecided_iff, nullFatesOfMembers_eq] at h
      obtain ⟨m, hm, h⟩ := List.mem_map.mp h
      obtain ⟨n, hn, description, hrun⟩ := ih m hm h
      exact ⟨n, mem_headsOfMembers.mpr ⟨m, hm, hn⟩, description, hrun.head (.member hm)⟩
  | stringEnum variants nullable => cases nullable <;> simp [IrType.nullFate, ofNullable] at h
  | array item nullable _ => cases nullable <;> simp [IrType.nullFate, ofNullable] at h
  | _ => simp [IrType.nullFate] at h

theorem exists_not_settles_of_undecided {t : IrType} (h : t.nullFate = undecided) :
    ∃ reg, ¬Settles reg .null t := by
  refine ⟨loopRegistry t.heads, fun hsettles => ?_⟩
  obtain ⟨n, hn, description, hrun⟩ := @calls_of_undecided (loopRegistry t.heads) t h
  have hloop := loopRegistry_loops hn .null
  have hacc := acc_of_reflTransGen (settles_iff_acc.mp hsettles) (hrun.tail (hloop description))
  exact not_transGen_of_acc hacc (.single (hloop none))

theorem validates_null_iff {t : IrType} :
    (∀ reg, Validates reg .null t) ↔ t.nullFate = accepted := by
  constructor
  · intro hall
    by_cases h : t.nullFate = undecided
    · obtain ⟨reg, hreg⟩ := exists_not_settles_of_undecided h
      exact absurd ⟨_, hall reg⟩ hreg
    · exact (validates_null_of_decided SchemaRegistry.default h).2.mp (hall _)
  · intro h reg
    have hdecided : t.nullFate ≠ undecided := by
      rw [h]
      exact nofun
    exact (validates_null_of_decided reg hdecided).2.mpr h

/-! ## §3  The fate of a schema -/

mutual

/-- What becomes of `null` at a schema. -/
def nullFate : ReferenceOr Schema → NullFate
  | .reference _ => undecided
  | .item ⟨schemaData, schemaKind⟩ => nullFateOfKind schemaKind schemaData.nullable

def nullFateOfKind (kind : SchemaKind) (nullable : Bool) : NullFate :=
  match kind with
  | .type (.string ⟨_, enumeration⟩) =>
      if (enumeration.filterMap id).isEmpty then rejected else ofNullable nullable
  | .type (.integer _) => rejected
  | .type .number => rejected
  | .type .boolean => rejected
  | .type (.array _) => ofNullable nullable
  | .type (.object _) => accepted
  | .oneOf members => ofAny (nullFates members)
  | .anyOf members => ofAny (nullFates members)
  | .allOf members => ofAll (nullFates members)
  | .not => accepted
  | .any => accepted

def nullFates : List (ReferenceOr Schema) → List NullFate
  | [] => []
  | m :: ms => nullFate m :: nullFates ms

end

theorem nullFate_collapse {members : List (ReferenceOr Schema)} {t : IrType}
    (h : allofRefSiblingDescription members = some t) :
    t.nullFate = ofAll (nullFates members) := by
  obtain ⟨reference, ⟨data, kind⟩, hmembers, ⟨hkind, -⟩, rfl⟩ :=
    allofRefSiblingDescription_eq_some_iff.mp h
  dsimp only at hkind
  subst hkind
  rcases hmembers with rfl | rfl
  · rfl
  · rfl

theorem nullFate_typeToIr (t : OApiType) (nullable : Bool) :
    (typeToIr t nullable).nullFate = nullFateOfKind (.type t) nullable := by
  cases t with
  | string s =>
      obtain ⟨format, enumeration⟩ := s
      rw [typeToIr, nullFateOfKind]
      cases (enumeration.filterMap id).isEmpty with
      | true => rfl
      | false => rfl
  | object o =>
      rw [typeToIr_object, nullFateOfKind]
      unfold objectShape
      split <;> rfl
  | array items => cases items <;> rfl
  | _ => rfl

mutual

theorem nullFate_refOrSchemaToType :
    ∀ m : ReferenceOr Schema, (refOrSchemaToType m).nullFate = nullFate m
  | .reference reference => by
      rw [refOrSchemaToType, nullFate, referenceTo, IrType.nullFate]
      rfl
  | .item ⟨data, kind⟩ => by
      rw [refOrSchemaToType, nullFate]
      exact nullFate_schemaKindToType kind data.nullable data.discriminator

theorem nullFate_schemaKindToType : ∀ (kind : SchemaKind) (nullable : Bool)
    (discriminator : Option OpenApi.Discriminator),
    (schemaKindToType kind nullable discriminator).nullFate = nullFateOfKind kind nullable
  | .oneOf members, _, _ => by
      rw [schemaKindToType, nullFateOfKind, composition, IrType.nullFate,
        nullFates_refOrSchemasToTypes members]
      rfl
  | .anyOf members, _, _ => by
      rw [schemaKindToType, nullFateOfKind, composition, IrType.nullFate,
        nullFates_refOrSchemasToTypes members]
      rfl
  | .allOf members, _, _ => by
      rw [schemaKindToType, nullFateOfKind]
      split
      · next t ht => exact nullFate_collapse ht
      · rw [composition, IrType.nullFate, nullFates_refOrSchemasToTypes members]
        rfl
  | .any, _, _ => by rw [schemaKindToType, nullFateOfKind, IrType.nullFate]
  | .not, _, _ => by rw [schemaKindToType, nullFateOfKind, IrType.nullFate]
  | .type t, nullable, _ => by
      rw [schemaKindToType]
      exact nullFate_typeToIr t nullable

theorem nullFates_refOrSchemasToTypes : ∀ members : List (ReferenceOr Schema),
    nullFatesOfMembers (refOrSchemasToTypes members) = nullFates members
  | [] => by rw [refOrSchemasToTypes, nullFates, nullFatesOfMembers]
  | m :: ms => by
      rw [refOrSchemasToTypes, nullFates, nullFatesOfMembers, nullFate_refOrSchemaToType m,
        nullFates_refOrSchemasToTypes ms]

end

/-- `m` stands in `root`, at any depth. -/
inductive Inside (root : ReferenceOr Schema) : ReferenceOr Schema → Prop where
  | here : Inside root root
  | property {data o p} : Inside root (.item ⟨data, .type (.object o)⟩) → p ∈ o.properties →
      Inside root p.2
  | entry {data o m} : Inside root (.item ⟨data, .type (.object o)⟩) →
      o.additionalProperties = some (.schema m) → Inside root m
  | item {data m} : Inside root (.item ⟨data, .type (.array (some m))⟩) → Inside root m
  | oneOf {data members m} : Inside root (.item ⟨data, .oneOf members⟩) → m ∈ members →
      Inside root m
  | anyOf {data members m} : Inside root (.item ⟨data, .anyOf members⟩) → m ∈ members →
      Inside root m
  | allOf {data members m} : Inside root (.item ⟨data, .allOf members⟩) → m ∈ members →
      Inside root m

theorem type_accepts_null_iff {m : ReferenceOr Schema} :
    (∀ reg, Validates reg .null (refOrSchemaToType m)) ↔ nullFate m = accepted := by
  rw [validates_null_iff, nullFate_refOrSchemaToType]

/-- **The types of the nullable schemas of a tree accept `null` in every registry
exactly if each of these schemas decides for `null` itself**: none is a scalar, and
the members of a composition agree on `null` without a `$ref` among them. -/
theorem nullable_accepts_null_iff (root : ReferenceOr Schema) :
    (∀ s, Inside root (.item s) → s.schemaData.nullable = true →
      ∀ reg, Validates reg .null (refOrSchemaToType (.item s))) ↔
    ∀ s, Inside root (.item s) → s.schemaData.nullable = true →
      nullFate (.item s) = accepted := by
  refine forall_congr' fun s => imp_congr_right fun _ => imp_congr_right fun _ => ?_
  exact type_accepts_null_iff

def nullableString : Schema :=
  ⟨{ SchemaData.default with nullable := true }, .type (.string ⟨.empty, []⟩)⟩

theorem nullable_string_rejects_null :
    ¬∀ s, Inside (.item nullableString) (.item s) → s.schemaData.nullable = true →
      ∀ reg, Validates reg .null (refOrSchemaToType (.item s)) := by
  intro h
  have hfate := type_accepts_null_iff.mp (h nullableString .here rfl)
  cases hfate

end SpecForge
