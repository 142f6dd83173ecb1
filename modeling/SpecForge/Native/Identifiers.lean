import SpecForge.Native.GoIdentifiers
import SpecForge.Native.RustIdentifiers

/-!
# Identifiers inside declarations

The fields of a struct and the arguments of a method or function should be identifiers, no two
of them the same. Both emitters see to that for the own properties of a model, where a name that
is taken gets a number. The base of the model has no such care, and arguments have none at all.

- §1 the arguments of an operation; §2 when all is well.
-/

namespace SpecForge

open Lib Native

/-! ## §1  Arguments -/

section Arguments

variable {op : Operation}

theorem nodup_argParams (h : (op.parameters.map (·.name)).Nodup) :
    ((argParams op).map (·.name)).Nodup := by
  have hpath : ((pathParams op).map (·.name)).Nodup :=
    (List.filter_sublist.map _).nodup h
  have hquery : ((queryParams op).map (·.name)).Nodup :=
    (List.filter_sublist.map _).nodup h
  rw [argParams, List.map_append, List.nodup_append]
  refine ⟨hpath, hquery, fun a ha b hb hab => ?_⟩
  obtain ⟨p, hp, rfl⟩ := List.mem_map.mp ha
  obtain ⟨q, hq, hname⟩ := List.mem_map.mp hb
  rw [mem_pathParams] at hp
  rw [mem_queryParams] at hq
  have hsame : p = q := List.inj_on_of_nodup_map h hp.1 hq.1 (hab.trans hname.symm)
  rw [hsame, hq.2] at hp
  cases hp.2

/-- Between a first argument and a body, only the parameters can get in each other's way. -/
theorem nodup_arguments_iff (h : (op.parameters.map (·.name)).Nodup) {ident : String → String}
    {first : String} (hfirst : ∀ name, ident name ≠ first) (hbody : ∀ name, ident name ≠ "body")
    (hne : first ≠ "body") :
    (first :: ((argParams op).map fun p => ident p.name) ++
        if op.requestBody.isSome then ["body"] else []).Nodup ↔
      ∀ p ∈ argParams op, ∀ q ∈ argParams op, p.name ≠ q.name → ident p.name ≠ ident q.name := by
  have hparams := (nodup_argParams h).of_map
  have hmap : ((argParams op).map fun p => ident p.name).Nodup ↔
      ∀ p ∈ argParams op, ∀ q ∈ argParams op, p.name ≠ q.name → ident p.name ≠ ident q.name := by
    rw [List.nodup_map_iff_inj_on hparams]
    constructor
    · intro hinj p hp q hq hname heq
      exact hname (congrArg Parameter.name (hinj p hp q hq heq))
    · intro hapart p hp q hq heq
      by_contra hpq
      refine hapart p hp q hq (fun hname => hpq ?_) heq
      exact List.inj_on_of_nodup_map (nodup_argParams h) hp hq hname
  rw [← hmap, List.cons_append, List.nodup_cons, List.nodup_append]
  refine ⟨fun hall => hall.2.1, fun hall => ⟨?_, hall, ?_, ?_⟩⟩
  · rw [List.mem_append]
    rintro (hmem | hmem)
    · obtain ⟨p, -, hp⟩ := List.mem_map.mp hmem
      exact hfirst p.name hp
    · split at hmem
      · exact hne (List.mem_singleton.mp hmem)
      · cases hmem
  · split
    · exact List.nodup_singleton "body"
    · exact List.nodup_nil
  · intro a ha b hb hab
    obtain ⟨p, -, rfl⟩ := List.mem_map.mp ha
    split at hb
    · exact hbody p.name (hab.trans (List.mem_singleton.mp hb))
    · cases hb

/-- The first argument and the body are identifiers. -/
theorem forall_arguments_iff {ident : String → String} {first : String} {P : String → Prop}
    (hfirst : P first) (hbody : P "body") :
    (∀ name ∈ first :: ((argParams op).map fun p => ident p.name) ++
        (if op.requestBody.isSome then ["body"] else []), P name) ↔
      ∀ p ∈ argParams op, P (ident p.name) := by
  rw [List.cons_append, List.forall_mem_cons, List.forall_mem_append, List.forall_mem_map]
  refine ⟨fun h => h.2.1, fun h => ⟨hfirst, h, fun name hname => ?_⟩⟩
  split at hname
  · rw [List.mem_singleton.mp hname]
    exact hbody
  · cases hname

end Arguments

/-! ## §2  When all is well -/

/-- The names of a struct or of a signature are identifiers, no two of them the same. -/
def DistinctIdentifiers (isIdentifier : String → Bool) (names : List String) : Prop :=
  names.Nodup ∧ ∀ name ∈ names, isIdentifier name = true

/-- The fields of a model and the arguments of an operation, in both languages. -/
structure WellNamed (l : Rust.Letters) (schemas : SchemaRegistry) (o : ObjectModel)
    (op : Operation) : Prop where
  goFields : DistinctIdentifiers Go.isIdentifier (Go.structIdents schemas o)
  goArguments : DistinctIdentifiers Go.isIdentifier (Go.argumentNames op)
  rustFields : DistinctIdentifiers (Rust.isIdentifier l) (Rust.structIdents l.toCharCase schemas o)
  rustArguments : DistinctIdentifiers (Rust.isIdentifier l) (Rust.argumentNames l.toCharCase op)

/-- What the names of a document must be like for that. -/
structure Nameable (l : Rust.Letters) (schemas : SchemaRegistry) (o : ObjectModel)
    (op : Operation) : Prop where
  /-- The embedded base and `AdditionalProperties` are unlike the own fields, and each other. -/
  goFields : Go.FieldsApart schemas o
  /-- The flattened base is unlike the own fields. -/
  rustBase : ∀ base, baseName o = some base →
    Rust.snake l.toCharCase base ∉
      Rust.propertyIdents l.toCharCase [] (ownProperties schemas o)
  /-- Capital letters have small forms that identifiers can have. -/
  baseSpelled : o.properties ≠ [] → ∀ base, baseName o = some base → Rust.Spelled l base
  propertySpelled : ∀ p ∈ ownProperties schemas o, Rust.Spelled l p.name
  argumentSpelled : ∀ p ∈ argParams op, Rust.Spelled l p.name
  noDigit : ∀ p ∈ argParams op, Go.leadingDigit p.name = false
  /-- No two parameters are one argument, in one of the languages. -/
  noClash : ∀ p ∈ argParams op, ∀ q ∈ argParams op, p.name ≠ q.name →
    ¬Go.Clash p.name q.name ∧ ¬Rust.Clash l.toCharCase p.name q.name

theorem goArguments_iff {op : Operation} (h : (op.parameters.map (·.name)).Nodup) :
    DistinctIdentifiers Go.isIdentifier (Go.argumentNames op) ↔
      (∀ p ∈ argParams op, ∀ q ∈ argParams op, p.name ≠ q.name → ¬Go.Clash p.name q.name) ∧
        ∀ p ∈ argParams op, Go.leadingDigit p.name = false := by
  have hreserved := Go.goParamIdent_notMem_reserved
  have hctx : ∀ name, Go.goParamIdent name ≠ "ctx" := fun name heq =>
    hreserved name (heq ▸ by decide)
  have hbody : ∀ name, Go.goParamIdent name ≠ "body" := fun name heq =>
    hreserved name (heq ▸ by decide)
  simp only [DistinctIdentifiers, ← Go.goParamIdent_eq_iff, ← Go.isIdentifier_goParamIdent]
  exact and_congr (nodup_arguments_iff h hctx hbody (by decide))
    (forall_arguments_iff (by decide) (by decide))

theorem rustArguments_iff (l : Rust.Letters) {op : Operation}
    (h : (op.parameters.map (·.name)).Nodup) :
    DistinctIdentifiers (Rust.isIdentifier l) (Rust.argumentNames l.toCharCase op) ↔
      (∀ p ∈ argParams op, ∀ q ∈ argParams op, p.name ≠ q.name →
        ¬Rust.Clash l.toCharCase p.name q.name) ∧
      ∀ p ∈ argParams op, Rust.Spelled l p.name := by
  have hreserved := Rust.snake_notMem_reserved l.toCharCase
  have hclient : ∀ name, Rust.snake l.toCharCase name ≠ "client" := fun name heq =>
    hreserved name (heq ▸ by decide)
  have hbody : ∀ name, Rust.snake l.toCharCase name ≠ "body" := fun name heq =>
    hreserved name (heq ▸ by decide)
  simp only [DistinctIdentifiers, ← Rust.snake_eq_iff, ← Rust.isIdentifier_snake_iff]
  exact and_congr (nodup_arguments_iff h hclient hbody (by decide))
    (forall_arguments_iff (Rust.isIdentifier_word l (by decide) (by simp) (by decide))
      (Rust.isIdentifier_word l (by decide) (by simp) (by decide)))

/-- **The fields of a model and the arguments of an operation are distinct identifiers exactly
if** the base of the model is not called like a field of its own, no two parameters have the
same words, none starts with a digit in Go, and all capital letters have small forms that may
stand in identifiers. -/
theorem wellNamed_iff_nameable (l : Rust.Letters) (schemas : SchemaRegistry) (o : ObjectModel)
    {op : Operation} (h : (op.parameters.map (·.name)).Nodup) :
    WellNamed l schemas o op ↔ Nameable l schemas o op := by
  have hgo : DistinctIdentifiers Go.isIdentifier (Go.structIdents schemas o) ↔
      Go.FieldsApart schemas o := by
    rw [← Go.nodup_structIdents_iff]
    exact and_iff_left fun ident => Go.isIdentifier_structIdents
  have hgoArgs := goArguments_iff h
  have hrust := and_congr (Rust.nodup_structIdents_iff l.toCharCase schemas o)
    (Rust.isIdentifier_structIdents_iff l schemas o)
  have hrustArgs := rustArguments_iff l h
  constructor
  · rintro ⟨h1, h2, h3, h4⟩
    rw [hgo] at h1
    rw [hgoArgs] at h2
    rw [hrustArgs] at h4
    obtain ⟨hbase, hspelled, hprops⟩ := hrust.mp h3
    exact ⟨h1, hbase, hspelled, hprops, h4.2, h2.2,
      fun p hp q hq hne => ⟨h2.1 p hp q hq hne, h4.1 p hp q hq hne⟩⟩
  · intro hall
    refine ⟨hgo.mpr hall.goFields, hgoArgs.mpr ⟨?_, hall.noDigit⟩,
      hrust.mpr ⟨hall.rustBase, hall.baseSpelled, hall.propertySpelled⟩,
      hrustArgs.mpr ⟨?_, hall.argumentSpelled⟩⟩
    · exact fun p hp q hq hne => (hall.noClash p hp q hq hne).1
    · exact fun p hp q hq hne => (hall.noClash p hp q hq hne).2

/-- A pet with one property besides those of its base. -/
def petWith (property : String) : ObjectModel where
  name := "Dog"
  description := none
  properties := [⟨property, .scalar .string, true, none⟩]
  additionalProperties := none
  shapeType := none
  baseType := some (.reference "Pet" false none)

/-- An operation with a parameter in its path, and one more. -/
def petBy (path query : String) : Operation where
  operationId := "getPet"
  method := .get
  path := "/pets/\x7b" ++ path ++ "\x7d"
  tag := none
  summary := none
  description := none
  parameters :=
    [⟨path, .path, .scalar .string, true, none⟩, ⟨query, .query, .scalar .string, true, none⟩]
  requestBody := none
  responses := []
  retryPolicy := none

theorem nameable_bark_petId :
    ((petBy "petId" "limit").parameters.map (·.name)).Nodup ∧
      Nameable Rust.Letters.ascii ⟨IndexMap.ofList []⟩ (petWith "bark") (petBy "petId" "limit") := by
  have hnames : ((petBy "petId" "limit").parameters.map (·.name)).Nodup := by decide
  refine ⟨hnames, (wellNamed_iff_nameable _ _ _ hnames).mp ⟨?_, ?_, ?_, ?_⟩⟩
  · have hbark : Go.fieldName "bark" = "Bark" := by
      rw [Go.fieldName_eq]
      decide
    refine ⟨(Go.nodup_structIdents_iff _ _).mpr ⟨?_, ?_, ?_⟩, fun _ => Go.isIdentifier_structIdents⟩
    · intro base hbase
      cases hbase
      show _ ∉ [Go.uniqueFieldName (Go.fieldName "bark") []]
      rw [hbark]
      decide
    · intro h
      cases h
    · intro _ h
      cases h
  · exact ⟨by decide, by decide⟩
  · exact ⟨by decide, by decide⟩
  · exact ⟨by decide, by decide⟩

/-- The field of the base is the field of the property and, in Go, both parameters are one
argument. -/
theorem not_wellNamed_pet :
    ((petBy "pet-id" "petId").parameters.map (·.name)).Nodup ∧
      ¬WellNamed Rust.Letters.ascii ⟨IndexMap.ofList []⟩ (petWith "pet") (petBy "pet-id" "petId") := by
  refine ⟨by decide, fun h => ?_⟩
  have harguments : ¬(Go.argumentNames (petBy "pet-id" "petId")).Nodup := by decide
  exact harguments h.goArguments.1

end SpecForge
