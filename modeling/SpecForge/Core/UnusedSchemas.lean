import SpecForge.Core.References
import SpecForge.Lib.Sweep
import SpecForge.Lib.Text

/-!
# The lint for unused schemas

The lint collects the names the operations refer to and goes over the schemas until no property
refers to a new one. A property is followed only where its type is itself a reference, and what
the shape of a model refers to does not keep the loop going.

- §1 collecting names; §2 the lint; §3 the loop as sweeps.
- §4 which schemas are in use, and when the lint reports exactly the others.
-/

namespace SpecForge

open Lib Lib.Sweep

/-! ## §1  Collecting names -/

mutual

/-- `collect_type_refs`. -/
def collectTypeRefs : IrType → List String → List String
  | .reference name _ _, names => put names name
  | .array item _, names => collectTypeRefs item names
  | .map value, names => collectTypeRefs value names
  | .composition _ members _, names => collectMembersRefs members names
  | _, names => names

def collectMembersRefs : List IrType → List String → List String
  | [], names => names
  | member :: members, names => collectMembersRefs members (collectTypeRefs member names)

end

def collectOpRefs (names : List String) (op : Operation) : List String :=
  let names := match op.requestBody with
    | some body => collectTypeRefs body.ty names
    | none => names
  let names := op.parameters.foldl (fun names param => collectTypeRefs param.ty names) names
  op.responses.foldl (fun names resp => match resp.body with
    | some body => collectTypeRefs body names
    | none => names) names

theorem collectTypeRefs_eq (ty : IrType) (names : List String) :
    collectTypeRefs ty names = ty.refs.foldl put names := by
  induction ty using IrType.induction generalizing names with
  | array item nullable ih => exact ih names
  | map value ih => exact ih names
  | composition kind members discriminator ih =>
      have hmembers : ∀ members : List IrType, (∀ m ∈ members, ∀ names,
          collectTypeRefs m names = m.refs.foldl put names) → ∀ names,
          collectMembersRefs members names = (refsOfMembers members).foldl put names := by
        intro members
        induction members with
        | nil => exact fun _ _ => rfl
        | cons m ms ihms =>
            intro hall names
            obtain ⟨hm, hms⟩ := List.forall_mem_cons.mp hall
            rw [collectMembersRefs, hm, ihms hms, refsOfMembers, List.foldl_append]
      exact hmembers members ih names
  | _ => rfl

theorem mem_collectTypeRefs {ty : IrType} {names : List String} {name : String} :
    name ∈ collectTypeRefs ty names ↔ name ∈ names ∨ name ∈ ty.refs := by
  rw [collectTypeRefs_eq, mem_foldl_put]

/-- A set that takes in the names of one piece after the other. -/
theorem mem_foldl_collect {β : Type} {f : List String → β → List String} {g : β → List IrType}
    {name : String} (hf : ∀ names b, name ∈ f names b ↔
      name ∈ names ∨ ∃ ty ∈ g b, name ∈ ty.refs) :
    ∀ {l : List β} {names : List String}, name ∈ l.foldl f names ↔
      name ∈ names ∨ ∃ ty ∈ l.flatMap g, name ∈ ty.refs
  | [], names => by simp
  | b :: l, names => by
      rw [List.foldl_cons, mem_foldl_collect hf, hf, or_assoc, List.flatMap_cons]
      simp only [List.mem_append, or_and_right, exists_or]

theorem mem_collectOpRefs {op : Operation} {names : List String} {name : String} :
    name ∈ collectOpRefs names op ↔ name ∈ names ∨ ∃ ty ∈ op.types, name ∈ ty.refs := by
  have hbody : name ∈ (match op.requestBody with
      | some body => collectTypeRefs body.ty names
      | none => names) ↔
      name ∈ names ∨ ∃ ty ∈ (op.requestBody.map (·.ty)).toList, name ∈ ty.refs := by
    cases op.requestBody with
    | none => simp
    | some body => simp [mem_collectTypeRefs]
  have hparams : op.parameters.flatMap (fun param => [param.ty]) = op.parameters.map (·.ty) :=
    List.map_eq_flatMap.symm
  have hresponses : op.responses.flatMap (fun resp => resp.body.toList) =
      op.responses.filterMap (·.body) :=
    (List.filterMap_eq_flatMap_toList _ _).symm
  rw [collectOpRefs, mem_foldl_collect (g := fun resp => resp.body.toList),
    mem_foldl_collect (g := fun param => [param.ty]), hbody, Operation.types,
    hparams, hresponses]
  · simp only [List.mem_append, or_and_right, exists_or, or_assoc, or_left_comm]
  · intro names param
    simp [mem_collectTypeRefs]
  · intro names resp
    cases resp.body with
    | none => simp
    | some body => simp [mem_collectTypeRefs]

/-! ## §2  The lint -/

inductive Severity where
  | warning
  | error

/-- A finding of a lint. -/
structure Diagnostic where
  severity : Severity
  message : String
  path : String

inductive RuleSeverity where
  | error
  | warning
  | off

structure LintRule where
  name : String
  enabled : Bool
  severity : RuleSeverity

structure LintConfig where
  rules : List LintRule

/-- `LintConfig::severity`: a rule that is not listed, or is off, counts as a warning. -/
def LintConfig.severity (config : LintConfig) (ruleName : String) : Severity :=
  match ((config.rules.find? (·.name = ruleName)).map (·.severity)).getD .warning with
  | .error => .error
  | .warning => .warning
  | .off => .warning

/-- What the loop does for a schema, with the flag `changed`. -/
def markReferences (st : List String × Bool) (schema : String × Model) : List String × Bool :=
  if schema.1 ∈ st.1 then
    match schema.2 with
    | .object obj =>
        let st := obj.properties.foldl (fun st prop => match prop.ty with
          | .reference name _ _ => putCounted st name
          | _ => st) st
        match obj.shapeType with
        | some shape => (collectTypeRefs shape st.1, st.2)
        | none => st
    | .enum _ => st
  else st

/-- The loop `while changed`, at most so many times. -/
def collectLoop (schemas : SchemaRegistry) : ℕ → List String → Option (List String)
  | 0, _ => none
  | fuel + 1, names =>
      let st := schemas.models.entries.foldl markReferences (names, false)
      if st.2 then collectLoop schemas fuel st.1 else some st.1

def collectReferencedSchemaNames (fuel : ℕ) (doc : Document) : Option (List String) :=
  collectLoop doc.schemas fuel (doc.operations.foldl collectOpRefs [])

/-- What the lint says about a schema. -/
def unusedSchema (config : LintConfig) (name : String) : Diagnostic where
  severity := config.severity "unused-schema"
  message := "schema " ++ Text.debugStr name ++ " is not referenced by any operation"
  path := "schemas." ++ name

def checkUnusedSchemas (fuel : ℕ) (doc : Document) (config : LintConfig)
    (diags : List Diagnostic) : Option (List Diagnostic) := do
  let referenced ← collectReferencedSchemaNames fuel doc
  let unused := doc.schemas.names.filter fun name => decide (name ∉ referenced)
  return diags ++ unused.map (unusedSchema config)

theorem unusedSchema_injective (config : LintConfig) :
    Function.Injective (unusedSchema config) := by
  intro a b h
  have hpath : "schemas." ++ a = "schemas." ++ b := congrArg Diagnostic.path h
  exact Text.append_inj_left hpath

/-! ## §3  The loop as sweeps -/

/-- The name of a type that is a reference. -/
def IrType.ownName : IrType → Option String
  | .reference name _ _ => some name
  | _ => none

/-- What the loop follows from a schema. Only the references that are the type of a property
keep it going. -/
def SchemaRegistry.followed (schemas : SchemaRegistry) : Links String where
  counted a := match schemas.get a with
    | some (.object obj) => obj.properties.filterMap (·.ty.ownName)
    | _ => []
  silent a := match schemas.get a with
    | some (.object obj) => (obj.shapeType.map (·.refs)).getD []
    | _ => []

theorem markReferences_eq {schemas : SchemaRegistry} {schema : String × Model}
    (hschema : schema ∈ schemas.models.entries) (st : List String × Bool) :
    markReferences st schema = visit schemas.followed st schema.1 := by
  obtain ⟨a, model⟩ := schema
  have hget : schemas.get a = some model := IndexMap.mem_entries_iff.mp hschema
  rw [markReferences, visit]
  apply if_congr Iff.rfl _ rfl
  rcases model with obj | e
  · have hprops : ∀ (props : List Property) (st : List String × Bool),
        props.foldl (fun st prop => match prop.ty with
          | .reference name _ _ => putCounted st name
          | _ => st) st = (props.filterMap (·.ty.ownName)).foldl putCounted st := by
      intro props
      induction props with
      | nil => exact fun _ => rfl
      | cons prop props ih =>
          intro st
          rw [List.foldl_cons, ih, List.filterMap_cons]
          cases prop.ty <;> rfl
    simp only [SchemaRegistry.followed, hget, hprops]
    cases obj.shapeType with
    | none => rfl
    | some shape => simp [collectTypeRefs_eq]
  · simp [SchemaRegistry.followed, hget]

theorem collectLoop_eq (schemas : SchemaRegistry) : ∀ (fuel : ℕ) (names : List String),
    collectLoop schemas fuel names = run schemas.followed (fun _ => schemas.names) fuel names
  | 0, _ => rfl
  | fuel + 1, names => by
      have hsweep : schemas.models.entries.foldl markReferences (names, false) =
          sweep schemas.followed schemas.names names := by
        rw [sweep, SchemaRegistry.names, IndexMap.keys, List.foldl_map]
        apply List.foldl_ext
        intro st schema hschema
        exact markReferences_eq hschema st
      rw [collectLoop, run, hsweep]
      simp only [collectLoop_eq schemas fuel]

/-! ## §4  Schemas in use -/

/-- The model `a` refers to `b` in a property, in its further properties or in its shape. -/
def SchemaRegistry.Mentions (schemas : SchemaRegistry) (a b : String) : Prop :=
  ∃ obj, schemas.get a = some (.object obj) ∧ ∃ ty ∈ obj.properties.map (·.ty) ++
    obj.additionalProperties.toList ++ obj.shapeType.toList, b ∈ ty.refs

/-- An operation leads to the schema through its parameters, its body or its responses. -/
def Document.InUse (d : Document) (name : String) : Prop :=
  ∃ op ∈ d.operations, ∃ ty ∈ op.types, ∃ r ∈ ty.refs,
    Relation.ReflTransGen d.schemas.Mentions r name

/-- The names the operations refer to themselves. -/
def Document.operationRefs (d : Document) : List String := d.operations.foldl collectOpRefs []

theorem mem_operationRefs {d : Document} {name : String} :
    name ∈ d.operationRefs ↔ ∃ op ∈ d.operations, ∃ ty ∈ op.types, name ∈ ty.refs := by
  rw [Document.operationRefs, mem_foldl_collect (g := Operation.types) fun _ _ => mem_collectOpRefs]
  simp only [List.not_mem_nil, false_or, List.mem_flatMap]
  constructor
  · rintro ⟨ty, ⟨op, hop, hty⟩, hname⟩
    exact ⟨op, hop, ty, hty, hname⟩
  · rintro ⟨op, hop, ty, hty, hname⟩
    exact ⟨ty, ⟨op, hop, hty⟩, hname⟩

theorem ownName_mem_refs {ty : IrType} {name : String} (h : ty.ownName = some name) :
    name ∈ ty.refs := by
  cases ty with
  | reference n nullable description =>
      obtain rfl := Option.some.inj h
      exact List.mem_singleton.mpr rfl
  | _ => cases h

theorem mentions_of_step {schemas : SchemaRegistry} {a b : String}
    (h : schemas.followed.Step a b) : schemas.Mentions a b := by
  cases hget : schemas.get a with
  | none => simp [Links.Step, SchemaRegistry.followed, hget] at h
  | some model =>
      rcases model with obj | e
      · simp only [Links.Step, SchemaRegistry.followed, hget, List.mem_filterMap] at h
        refine ⟨obj, hget, ?_⟩
        simp only [List.mem_append]
        rcases h with ⟨prop, hprop, hown⟩ | hshape
        · exact ⟨prop.ty, Or.inl (Or.inl (List.mem_map_of_mem hprop)), ownName_mem_refs hown⟩
        · cases hs : obj.shapeType with
          | none => simp [hs] at hshape
          | some shape =>
              rw [hs] at hshape
              exact ⟨shape, Or.inr (List.mem_singleton.mpr rfl), hshape⟩
      · simp [Links.Step, SchemaRegistry.followed, hget] at h

theorem inUse_of_reachable {d : Document} {name : String}
    (h : d.schemas.followed.Reachable d.operationRefs name) : d.InUse name := by
  obtain ⟨r, hr, hpath⟩ := h
  obtain ⟨op, hop, ty, hty, hname⟩ := mem_operationRefs.mp hr
  refine ⟨op, hop, ty, hty, r, hname, ?_⟩
  exact Relation.ReflTransGen.mono (fun _ _ => mentions_of_step) _ _ hpath

/-- The sweeps of the lint end. -/
theorem exists_collectReferencedSchemaNames (d : Document) :
    ∃ fuel referenced, collectReferencedSchemaNames fuel d = some referenced := by
  -- no more names are counted than the models refer to
  have huniv : ∀ a, d.schemas.followed.counted a ⊆
      d.schemas.models.values.flatMap fun model => model.types.flatMap (·.refs) := by
    intro a b hb
    obtain ⟨obj, hget, ty, hty, hname⟩ := mentions_of_step (Or.inl hb)
    have hvalue : Model.object obj ∈ d.schemas.models.values :=
      List.mem_map.mpr ⟨(a, .object obj), IndexMap.mem_entries_iff.mpr hget, rfl⟩
    have htypes : ty ∈ (Model.object obj).types := List.mem_append_left _ hty
    exact List.mem_flatMap.mpr ⟨_, hvalue, List.mem_flatMap.mpr ⟨ty, htypes, hname⟩⟩
  obtain ⟨fuel, referenced, h⟩ := exists_run (fun _ => d.schemas.names) _ huniv d.operationRefs
  exact ⟨fuel, referenced, (collectLoop_eq _ _ _).trans h⟩

/-- The lint reports the schemas that are not in use and no others. -/
def UnusedLintExact (d : Document) (config : LintConfig) : Prop :=
  ∃ fuel diags, checkUnusedSchemas fuel d config [] = some diags ∧
    ∀ name, unusedSchema config name ∈ diags ↔ name ∈ d.schemas.names ∧ ¬ d.InUse name

/-- The lint has come upon the name when sweep `k` comes to the schema at `i`. -/
def Document.FoundBy (d : Document) : ℕ → ℕ → String → Prop :=
  Found d.schemas.followed d.schemas.names d.operationRefs

/-- No property of a schema found so far is a reference to one that is not. -/
def Document.QuietSweep (d : Document) (k : ℕ) : Prop :=
  Quiet d.schemas.followed d.schemas.names d.operationRefs k

/-- **The lint is exact if and only if each schema in use has been found after the first sweep in
which no property leads to a new one.** -/
theorem unusedLintExact_iff (d : Document) (config : LintConfig) : UnusedLintExact d config ↔
    ∀ name ∈ d.schemas.names, d.InUse name → ∀ k, d.QuietSweep k → d.FoundBy (k + 1) 0 name := by
  have hmem : ∀ {fuel : ℕ} {referenced : List String} {name : String},
      collectReferencedSchemaNames fuel d = some referenced →
      (name ∈ referenced ↔ ∀ k, d.QuietSweep k → d.FoundBy (k + 1) 0 name) := by
    intro fuel referenced name h
    rw [collectReferencedSchemaNames, collectLoop_eq] at h
    exact mem_run_iff_found h
  have hinUse : ∀ {fuel : ℕ} {referenced : List String} {name : String},
      collectReferencedSchemaNames fuel d = some referenced → name ∈ referenced →
      d.InUse name := by
    intro fuel referenced name h hname
    rw [collectReferencedSchemaNames, collectLoop_eq] at h
    obtain ⟨k, -, -, rfl⟩ := run_eq_some h
    exact inUse_of_reachable (reachable_of_mem_after hname)
  have hdiags : ∀ {fuel : ℕ} {referenced : List String},
      collectReferencedSchemaNames fuel d = some referenced → ∀ name,
      unusedSchema config name ∈ [] ++ (d.schemas.names.filter fun name =>
        decide (name ∉ referenced)).map (unusedSchema config) ↔
      name ∈ d.schemas.names ∧ name ∉ referenced := by
    intro fuel referenced _ name
    rw [List.nil_append, List.mem_map_of_injective (unusedSchema_injective config),
      List.mem_filter, decide_eq_true_eq]
  constructor
  · rintro ⟨fuel, diags, hrun, hexact⟩ name hname huse
    rw [checkUnusedSchemas, Option.bind_eq_bind, Option.bind_eq_some_iff] at hrun
    obtain ⟨referenced, hcollect, hreturn⟩ := hrun
    obtain rfl := Option.some.inj hreturn
    rw [← hmem hcollect]
    by_contra hnot
    exact ((hexact name).mp ((hdiags hcollect name).mpr ⟨hname, hnot⟩)).2 huse
  · intro hall
    obtain ⟨fuel, referenced, hcollect⟩ := exists_collectReferencedSchemaNames d
    refine ⟨fuel, _, ?_, fun name => (hdiags hcollect name).trans ?_⟩
    · rw [checkUnusedSchemas, hcollect]
      rfl
    · refine and_congr_right fun hname => not_congr ⟨hinUse hcollect, fun huse => ?_⟩
      exact (hmem hcollect).mpr (hall name hname huse)

/-- An object with one property. -/
def holding (name : String) (prop : String) (ty : IrType) : Model :=
  .object ⟨name, none, [⟨prop, ty, true, none⟩], none, none, none⟩

/-- An owner has a list of pets, and the only operation reads an owner. -/
def ownerDoc : Document :=
  Document.minimal
    ⟨IndexMap.ofList [("Owner", holding "Owner" "pets" (.array (.reference "Pet" false none) false)),
      ("Pet", holding "Pet" "name" (.scalar .string))]⟩
    [⟨"getOwner", .get, "/owner", none, none, none, [], none,
      [⟨"200", none, some (.reference "Owner" false none)⟩], none⟩]

/-- The pet of an owner is reported, whatever the configuration. -/
theorem item_of_list_reported : ¬ ∃ config, UnusedLintExact ownerDoc config := by
  rintro ⟨config, fuel, diags, hrun, hexact⟩
  obtain _ | fuel := fuel
  · cases hrun
  have hresult : checkUnusedSchemas (fuel + 1) ownerDoc config [] =
      some [unusedSchema config "Pet"] := by rfl
  rw [hresult] at hrun
  obtain rfl := Option.some.inj hrun
  have hreported := (hexact "Pet").mp (List.mem_singleton.mpr rfl)
  apply hreported.2
  refine ⟨_, List.mem_singleton.mpr rfl, .reference "Owner" false none, ?_, "Owner",
    List.mem_singleton.mpr rfl, Relation.ReflTransGen.single ?_⟩
  · exact List.mem_singleton.mpr rfl
  · refine ⟨_, rfl, .array (.reference "Pet" false none) false, ?_, List.mem_singleton.mpr rfl⟩
    exact List.mem_singleton.mpr rfl

end SpecForge
