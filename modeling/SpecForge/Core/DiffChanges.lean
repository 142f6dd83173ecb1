import SpecForge.Core.Diff

/-!
# What a comparison finds, without its texts

The findings of `diff` are texts. Here is the comparison before it becomes
text: a `Change` says what differs, `Change.finding` writes it down, and
`changes` lists them in the order of the run. `diff_eq_changes` is the
refinement: the findings are exactly the written changes.

`Changed` is the declarative side: which changes a pair of documents has, with
no mention of an iteration order. `mem_changes` connects the two, so whether a
finding is reported never depends on the hashers.
-/

namespace SpecForge

open Lib (IndexMap HashOrder)
open Lib.Text

/-! ## §1  Changes and how they are written -/

/-- What can change about an operation that both documents have. -/
inductive OpChange where
  | newRequiredParameter (name : String)
  | parameterRemoved (name : String)
  | newRequiredRequestBody
  | responseRemoved (status : String)
deriving DecidableEq

inductive Change where
  | irVersion (old new : String)
  | operationRemoved (id : String)
  | operationAdded (id : String)
  | operation (id : String) (c : OpChange)
  | schemaRemoved (name : String)
  | schemaAdded (name : String)
  | property (name : String) (c : PropertyChange)
deriving DecidableEq

def OpChange.finding (path : String) : OpChange → DiffFinding
  | newRequiredParameter name =>
      ⟨.breaking, "new required parameter: " ++ name, path ++ ".params." ++ name⟩
  | parameterRemoved name =>
      ⟨.breaking, "parameter removed: " ++ name, path ++ ".params." ++ name⟩
  | newRequiredRequestBody =>
      ⟨.breaking, "new required request body", path ++ ".requestBody"⟩
  | responseRemoved status =>
      ⟨.breaking, "response removed: " ++ status, path ++ ".responses." ++ status⟩

def PropertyChange.finding (path : String) : PropertyChange → DiffFinding
  | ⟨p, .added _⟩ => ⟨.info, "new optional property: " ++ p, path ++ "." ++ p⟩
  | ⟨p, .addedRequired _⟩ => ⟨.breaking, "new required property: " ++ p, path ++ "." ++ p⟩
  | ⟨p, .removed _⟩ => ⟨.breaking, "property removed: " ++ p, path ++ "." ++ p⟩
  | ⟨p, .typeChanged _ _⟩ =>
      ⟨.breaking, "type changed for property: " ++ p, path ++ "." ++ p⟩
  | ⟨p, .requiredChanged old new⟩ =>
      ⟨if new then .breaking else .info,
        "required changed for property: " ++ p ++ " (" ++ requiredWord old ++ " → "
          ++ requiredWord new ++ ")",
        path ++ "." ++ p⟩

def irVersionFinding (old new : String) : DiffFinding :=
  if irMajorVersion old ≠ irMajorVersion new then
    ⟨.breaking, "IR version changed: " ++ old ++ " → " ++ new
      ++ " (major version bump indicates breaking IR schema changes)", "ir_version"⟩
  else
    ⟨.info, "IR version changed: " ++ old ++ " → " ++ new, "ir_version"⟩

def Change.finding : Change → DiffFinding
  | irVersion old new => irVersionFinding old new
  | operationRemoved id => ⟨.breaking, "operation removed: " ++ id, "operations." ++ id⟩
  | operationAdded id => ⟨.info, "operation added: " ++ id, "operations." ++ id⟩
  | operation id c => c.finding ("operations." ++ id)
  | schemaRemoved n => ⟨.breaking, "schema removed: " ++ n, "schemas." ++ n⟩
  | schemaAdded n => ⟨.info, "schema added: " ++ n, "schemas." ++ n⟩
  | property n c => c.finding ("schemas." ++ n)

/-- The operation a change is about. -/
def Change.operationId? : Change → Option String
  | operationRemoved id => some id
  | operationAdded id => some id
  | operation id _ => some id
  | _ => none

/-! ## §2  The changes of a run -/

def opChanges (old new : Operation) : List OpChange :=
  (new.parameters.filter fun p =>
      p.required && !old.parameters.any fun x => x.name == p.name).map
    (fun p => .newRequiredParameter p.name)
  ++ (old.parameters.filter fun p =>
      !new.parameters.any fun x => x.name == p.name).map (fun p => .parameterRemoved p.name)
  ++ (if new.requestBody.isSome && old.requestBody.isNone
        && (new.requestBody.map (·.required)).getD false then
      [.newRequiredRequestBody]
    else [])
  ++ (old.responses.filter fun r =>
      !new.responses.any fun x => x.status == r.status).map (fun r => .responseRemoved r.status)

def propertyChanges (op np : List Property) : List PropertyChange :=
  (propertyPushes "" op np).map Prod.snd

def operationChanges (h : DiffHashing) (old new : Document) : List Change :=
  let oldOps := operationsById old
  let newOps := operationsById new
  ((h.oldOps.visit oldOps.keys).filter fun id => !newOps.containsKey id).map
      .operationRemoved
  ++ ((h.newOps.visit newOps.keys).filter fun id => !oldOps.containsKey id).map
      .operationAdded
  ++ (h.oldOps.visit oldOps.keys).flatMap fun id =>
    match oldOps.get id, newOps.get id with
    | some o, some n => (opChanges o n).map (.operation id)
    | _, _ => []

/-- The property changes of a schema that both documents have. -/
def schemaPropertyChanges (old new : Document) (n : String) : List PropertyChange :=
  match old.schemas.get n, new.schemas.get n with
  | some (.object o), some (.object m) => propertyChanges o.properties m.properties
  | _, _ => []

def schemaChanges (h : DiffHashing) (old new : Document) : List Change :=
  let oldS := old.schemas.names
  let newS := new.schemas.names
  ((h.oldSchemas.visit oldS).filter fun n => !decide (n ∈ newS)).map .schemaRemoved
  ++ ((h.newSchemas.visit newS).filter fun n => !decide (n ∈ oldS)).map .schemaAdded
  ++ (sharedSchemas h oldS newS).flatMap fun n =>
    (schemaPropertyChanges old new n).map (.property n)

def changes (h : DiffHashing) (old new : Document) : List Change :=
  (if old.irVersion ≠ new.irVersion then [.irVersion old.irVersion new.irVersion] else [])
  ++ operationChanges h old new ++ schemaChanges h old new

/-! ## §3  The findings are the written changes -/

theorem mem_operationsById {d : Document} {id : String} {op : Operation}
    (h : (operationsById d).get id = some op) :
    op ∈ d.operations ∧ op.operationId = id := by
  obtain ⟨op', hmem, heq⟩ := List.mem_map.mp (IndexMap.mem_of_get_ofList h)
  obtain ⟨rfl, rfl⟩ := Prod.mk.inj heq
  exact ⟨hmem, rfl⟩

theorem mem_keys_operationsById {d : Document} {id : String} :
    id ∈ (operationsById d).keys ↔ ∃ op ∈ d.operations, op.operationId = id := by
  rw [operationsById, IndexMap.mem_keys_ofList, List.map_map, List.mem_map]
  rfl

/-- With unique ids every operation is found under its own id. -/
theorem get_operationsById {d : Document} (hd : d.UniqueIds) {op : Operation}
    (hop : op ∈ d.operations) : (operationsById d).get op.operationId = some op := by
  have hnd : ((d.operations.map fun op => (op.operationId, op)).map Prod.fst).Nodup := by
    rw [List.map_map]
    exact hd
  rw [operationsById, IndexMap.get_ofList_of_nodup hnd]
  exact Lib.lookup_eq_some_of_mem hnd (List.mem_map.mpr ⟨op, hop, rfl⟩)

theorem diffIrVersion_eq (old new : Document) :
    diffIrVersion old new =
      (if old.irVersion ≠ new.irVersion then
        [Change.irVersion old.irVersion new.irVersion] else []).map Change.finding := by
  unfold diffIrVersion
  by_cases h : old.irVersion = new.irVersion
  · simp [h]
  · by_cases h' : irMajorVersion old.irVersion = irMajorVersion new.irVersion
    · simp [h, h', Change.finding, irVersionFinding]
    · simp [h, h', Change.finding, irVersionFinding]

theorem diffOperation_eq (o n : Operation) :
    diffOperation o n = (opChanges o n).map fun c =>
      (Change.operation o.operationId c).finding := by
  unfold diffOperation opChanges
  simp only [List.map_append, List.map_map, Function.comp_def, apply_ite (List.map _),
    List.map_cons, List.map_nil, Change.finding, OpChange.finding]

theorem diffOperations_eq (h : DiffHashing) (old new : Document) :
    diffOperations h old new = (operationChanges h old new).map Change.finding := by
  unfold diffOperations operationChanges
  simp only [List.map_append, List.map_map, List.map_flatMap]
  -- the removed and the added ids agree by definition; left are the shared ones
  congr 1
  congr 1
  funext id
  cases ho : (operationsById old).get id with
  | none => rfl
  | some o =>
      cases hn : (operationsById new).get id with
      | none => rfl
      | some n =>
          rw [← (mem_operationsById ho).2]
          simp only [diffOperation_eq, List.map_map]
          rfl

theorem sharedPropertyPush_eq (name : String) (np : List Property) (p : Property) :
    sharedPropertyPush ("schemas." ++ name) np p =
      ((sharedPropertyPush "" np p).map Prod.snd).map fun c =>
        ((Change.property name c).finding, c) := by
  unfold sharedPropertyPush
  cases np.find? fun x => x.name == p.name with
  | none => rfl
  | some q =>
      by_cases htc : typeChanged p.ty q.ty = true
      · simp only [if_pos htc, Option.map_some, Change.finding, PropertyChange.finding]
      · by_cases hreq : p.required ≠ q.required
        · simp only [if_neg htc, if_pos hreq, Option.map_some, Change.finding,
            PropertyChange.finding]
        · simp only [if_neg htc, if_neg hreq, Option.map_none]

/-- Each pushed pair is a property change and its finding; the path is only
written into the finding. -/
theorem propertyPushes_eq (name : String) (op np : List Property) :
    propertyPushes ("schemas." ++ name) op np =
      (propertyChanges op np).map fun c => ((Change.property name c).finding, c) := by
  unfold propertyChanges propertyPushes
  simp only [List.map_append, List.map_map, Function.comp_def, List.map_filterMap,
    Change.finding, PropertyChange.finding]
  congr 1
  exact List.filterMap_congr fun p _ => sharedPropertyPush_eq name np p

theorem diffSchemaNamed_findings (old new : Document) (n : String) :
    (diffSchemaNamed old new n).1 =
      (schemaPropertyChanges old new n).map fun c => (Change.property n c).finding := by
  unfold diffSchemaNamed schemaPropertyChanges
  cases old.schemas.get n with
  | none => rfl
  | some o =>
      cases new.schemas.get n with
      | none => cases o <;> rfl
      | some m =>
          cases o with
          | enum e => rfl
          | object o =>
              cases m with
              | enum e => rfl
              | object m =>
                  simp only [diffSchema, propertyPushes_eq, List.map_map]
                  rfl

theorem diffSchemaNamed_detail (old new : Document) (n : String) :
    (diffSchemaNamed old new n).2 =
      if schemaPropertyChanges old new n = [] then none
      else some ⟨n, schemaPropertyChanges old new n⟩ := by
  unfold diffSchemaNamed schemaPropertyChanges
  cases old.schemas.get n with
  | none => rfl
  | some o =>
      cases new.schemas.get n with
      | none => cases o <;> rfl
      | some m =>
          cases o with
          | enum e => rfl
          | object o =>
              cases m with
              | enum e => rfl
              | object m =>
                  have hsnd : (propertyPushes ("schemas." ++ n) o.properties
                      m.properties).map Prod.snd
                        = propertyChanges o.properties m.properties := by
                    rw [propertyPushes_eq, List.map_map]
                    exact List.map_id _
                  simp only [diffSchema, hsnd, List.isEmpty_iff]

theorem diffSchemas_findings (h : DiffHashing) (old new : Document) :
    (diffSchemas h old new).1 = (schemaChanges h old new).map Change.finding := by
  unfold diffSchemas schemaChanges
  simp only [List.map_append, List.map_map, List.map_flatMap, diffSchemaNamed_findings]
  rfl

/-- **The findings of a run are its changes, written down.** -/
theorem diff_eq_changes (h : DiffHashing) (old new : Document) :
    diff h old new = (changes h old new).map Change.finding := by
  unfold diff diffDetailed changes
  simp only [List.map_append, diffIrVersion_eq, diffOperations_eq, diffSchemas_findings]

theorem mem_diff {h : DiffHashing} {old new : Document} {f : DiffFinding} :
    f ∈ diff h old new ↔ ∃ c ∈ changes h old new, c.finding = f := by
  rw [diff_eq_changes, List.mem_map]

/-! ## §4  Which changes there are, whatever the hashers -/

/-- The changes of an operation. -/
inductive OpChanged (o n : Operation) : OpChange → Prop
  | newRequiredParameter {p : Parameter} (hp : p ∈ n.parameters) (hreq : p.required = true)
      (hnew : ∀ x ∈ o.parameters, x.name ≠ p.name) :
      OpChanged o n (.newRequiredParameter p.name)
  | parameterRemoved {p : Parameter} (hp : p ∈ o.parameters)
      (hgone : ∀ x ∈ n.parameters, x.name ≠ p.name) :
      OpChanged o n (.parameterRemoved p.name)
  | newRequiredRequestBody {b : RequestBody} (hn : n.requestBody = some b)
      (hreq : b.required = true) (ho : o.requestBody = none) :
      OpChanged o n .newRequiredRequestBody
  | responseRemoved {r : Response} (hr : r ∈ o.responses)
      (hgone : ∀ x ∈ n.responses, x.status ≠ r.status) :
      OpChanged o n (.responseRemoved r.status)

/-- The changes between the property lists of an object model. -/
inductive PropertyChanged (op np : List Property) : PropertyChange → Prop
  | addedRequired {p : Property} (hp : p ∈ np) (hreq : p.required = true)
      (hnew : ∀ x ∈ op, x.name ≠ p.name) :
      PropertyChanged op np ⟨p.name, .addedRequired (typeToString p.ty)⟩
  | added {p : Property} (hp : p ∈ np) (hreq : p.required = false)
      (hnew : ∀ x ∈ op, x.name ≠ p.name) :
      PropertyChanged op np ⟨p.name, .added (typeToString p.ty)⟩
  | removed {p : Property} (hp : p ∈ op) (hgone : ∀ x ∈ np, x.name ≠ p.name) :
      PropertyChanged op np ⟨p.name, .removed (typeToString p.ty)⟩
  | typeChanged {p q : Property} (hp : p ∈ op)
      (hq : (np.find? fun x => x.name == p.name) = some q)
      (hty : SpecForge.typeChanged p.ty q.ty = true) :
      PropertyChanged op np
        ⟨p.name, .typeChanged (typeToString p.ty) (typeToString q.ty)⟩
  | requiredChanged {p q : Property} (hp : p ∈ op)
      (hq : (np.find? fun x => x.name == p.name) = some q)
      (hty : SpecForge.typeChanged p.ty q.ty = false) (hreq : p.required ≠ q.required) :
      PropertyChanged op np ⟨p.name, .requiredChanged p.required q.required⟩

/-- The changes between two documents. -/
inductive Changed (old new : Document) : Change → Prop
  | irVersion (h : old.irVersion ≠ new.irVersion) :
      Changed old new (.irVersion old.irVersion new.irVersion)
  | operationRemoved {o : Operation} (ho : o ∈ old.operations)
      (hgone : ∀ n ∈ new.operations, n.operationId ≠ o.operationId) :
      Changed old new (.operationRemoved o.operationId)
  | operationAdded {n : Operation} (hn : n ∈ new.operations)
      (hnew : ∀ o ∈ old.operations, o.operationId ≠ n.operationId) :
      Changed old new (.operationAdded n.operationId)
  | operation {id : String} {o n : Operation} {c : OpChange}
      (ho : (operationsById old).get id = some o)
      (hn : (operationsById new).get id = some n) (hc : OpChanged o n c) :
      Changed old new (.operation id c)
  | schemaRemoved {name : String} (ho : name ∈ old.schemas.names)
      (hn : name ∉ new.schemas.names) : Changed old new (.schemaRemoved name)
  | schemaAdded {name : String} (hn : name ∈ new.schemas.names)
      (ho : name ∉ old.schemas.names) : Changed old new (.schemaAdded name)
  | property {name : String} {o n : ObjectModel} {c : PropertyChange}
      (ho : old.schemas.get name = some (.object o))
      (hn : new.schemas.get name = some (.object n))
      (hc : PropertyChanged o.properties n.properties c) :
      Changed old new (.property name c)

theorem any_eq_name_false_iff {α : Type} {l : List α} {f : α → String} {s : String} :
    (l.any fun x => f x == s) = false ↔ ∀ x ∈ l, f x ≠ s := by
  simp [List.any_eq_false]

theorem mem_opChanges {o n : Operation} {c : OpChange} :
    c ∈ opChanges o n ↔ OpChanged o n c := by
  unfold opChanges
  simp only [List.mem_append, List.mem_map, List.mem_filter, Bool.and_eq_true,
    Bool.not_eq_true', any_eq_name_false_iff]
  constructor
  · rintro (((⟨p, ⟨hp, hreq, hnew⟩, rfl⟩ | ⟨p, ⟨hp, hgone⟩, rfl⟩) | hb) |
      ⟨r, ⟨hr, hgone⟩, rfl⟩)
    · exact .newRequiredParameter hp hreq hnew
    · exact .parameterRemoved hp hgone
    · split at hb
      · next hcond =>
          obtain ⟨⟨hsome, hnone⟩, hreq⟩ := hcond
          obtain ⟨b, hn⟩ := Option.isSome_iff_exists.mp hsome
          rw [List.mem_singleton.mp hb]
          rw [hn] at hreq
          exact .newRequiredRequestBody hn hreq (Option.isNone_iff_eq_none.mp hnone)
      · exact absurd hb List.not_mem_nil
    · exact .responseRemoved hr hgone
  · intro h
    cases h with
    | newRequiredParameter hp hreq hnew =>
        exact Or.inl (Or.inl (Or.inl ⟨_, ⟨hp, hreq, hnew⟩, rfl⟩))
    | parameterRemoved hp hgone =>
        exact Or.inl (Or.inl (Or.inr ⟨_, ⟨hp, hgone⟩, rfl⟩))
    | newRequiredRequestBody hn hreq ho =>
        refine Or.inl (Or.inr ?_)
        rw [hn, ho]
        simp [hreq]
    | responseRemoved hr hgone => exact Or.inr ⟨_, ⟨hr, hgone⟩, rfl⟩

theorem sharedPropertyPush_cases {path : String} {np : List Property} {p : Property}
    {x : DiffFinding × PropertyChange} (h : sharedPropertyPush path np p = some x) :
    ∃ q, (np.find? fun y => y.name == p.name) = some q ∧
      ((typeChanged p.ty q.ty = true ∧
          x.2 = ⟨p.name, .typeChanged (typeToString p.ty) (typeToString q.ty)⟩) ∨
        (typeChanged p.ty q.ty = false ∧ p.required ≠ q.required ∧
          x.2 = ⟨p.name, .requiredChanged p.required q.required⟩)) := by
  unfold sharedPropertyPush at h
  cases hq : np.find? fun y => y.name == p.name with
  | none => rw [hq] at h; exact absurd h (by simp)
  | some q =>
      rw [hq] at h
      refine ⟨q, rfl, ?_⟩
      by_cases htc : typeChanged p.ty q.ty = true
      · simp only [if_pos htc, Option.some.injEq] at h
        exact Or.inl ⟨htc, by rw [← h]⟩
      · by_cases hreq : p.required ≠ q.required
        · simp only [if_neg htc, if_pos hreq, Option.some.injEq] at h
          exact Or.inr ⟨eq_false_of_ne_true htc, hreq, by rw [← h]⟩
        · simp only [if_neg htc, if_neg hreq] at h
          exact absurd h (by simp)

theorem sharedPropertyPush_typeChanged (path : String) {np : List Property} {p q : Property}
    (hq : (np.find? fun y => y.name == p.name) = some q)
    (hty : typeChanged p.ty q.ty = true) :
    ∃ x, sharedPropertyPush path np p = some x ∧
      x.2 = ⟨p.name, .typeChanged (typeToString p.ty) (typeToString q.ty)⟩ := by
  unfold sharedPropertyPush
  simp only [hq, if_pos hty]
  exact ⟨_, rfl, rfl⟩

theorem sharedPropertyPush_requiredChanged (path : String) {np : List Property}
    {p q : Property} (hq : (np.find? fun y => y.name == p.name) = some q)
    (hty : typeChanged p.ty q.ty = false) (hreq : p.required ≠ q.required) :
    ∃ x, sharedPropertyPush path np p = some x ∧
      x.2 = ⟨p.name, .requiredChanged p.required q.required⟩ := by
  unfold sharedPropertyPush
  simp only [hq, hty, if_pos hreq]
  exact ⟨_, rfl, rfl⟩

theorem mem_propertyChanges {op np : List Property} {c : PropertyChange} :
    c ∈ propertyChanges op np ↔ PropertyChanged op np c := by
  unfold propertyChanges propertyPushes
  simp only [List.map_append, List.map_map, List.mem_append, List.mem_map, List.mem_filter,
    List.mem_filterMap, Bool.and_eq_true, Bool.not_eq_true', any_eq_name_false_iff,
    Function.comp_apply]
  constructor
  · rintro (((⟨p, ⟨hp, hreq, hnew⟩, rfl⟩ | ⟨p, ⟨hp, hreq, hnew⟩, rfl⟩) |
      ⟨p, ⟨hp, hgone⟩, rfl⟩) | ⟨x, ⟨p, hp, hx⟩, rfl⟩)
    · exact .addedRequired hp hreq hnew
    · exact .added hp hreq hnew
    · exact .removed hp hgone
    · obtain ⟨q, hq, ⟨hty, heq⟩ | ⟨hty, hreq, heq⟩⟩ := sharedPropertyPush_cases hx
      · rw [heq]
        exact .typeChanged hp hq hty
      · rw [heq]
        exact .requiredChanged hp hq hty hreq
  · intro h
    cases h with
    | addedRequired hp hreq hnew =>
        exact Or.inl (Or.inl (Or.inl ⟨_, ⟨hp, hreq, hnew⟩, rfl⟩))
    | added hp hreq hnew => exact Or.inl (Or.inl (Or.inr ⟨_, ⟨hp, hreq, hnew⟩, rfl⟩))
    | removed hp hgone => exact Or.inl (Or.inr ⟨_, ⟨hp, hgone⟩, rfl⟩)
    | typeChanged hp hq hty =>
        obtain ⟨x, hx, heq⟩ := sharedPropertyPush_typeChanged "" hq hty
        exact Or.inr ⟨x, ⟨_, hp, hx⟩, heq⟩
    | requiredChanged hp hq hty hreq =>
        obtain ⟨x, hx, heq⟩ := sharedPropertyPush_requiredChanged "" hq hty hreq
        exact Or.inr ⟨x, ⟨_, hp, hx⟩, heq⟩

theorem mem_sharedSchemas {h : DiffHashing} {oldS newS : List String} {n : String} :
    n ∈ sharedSchemas h oldS newS ↔ n ∈ oldS ∧ n ∈ newS := by
  unfold sharedSchemas
  split
  · simp
  · simp [and_comm]

theorem mem_schemaPropertyChanges {old new : Document} {name : String}
    {c : PropertyChange} : c ∈ schemaPropertyChanges old new name ↔
      ∃ o n, old.schemas.get name = some (.object o) ∧
        new.schemas.get name = some (.object n) ∧
        PropertyChanged o.properties n.properties c := by
  unfold schemaPropertyChanges
  constructor
  · intro hc
    split at hc
    · next o n ho hn => exact ⟨o, n, ho, hn, mem_propertyChanges.mp hc⟩
    · exact absurd hc List.not_mem_nil
  · rintro ⟨o, n, ho, hn, hc⟩
    rw [ho, hn]
    exact mem_propertyChanges.mpr hc

theorem mem_operationChanges {h : DiffHashing} {old new : Document} {c : Change} :
    c ∈ operationChanges h old new ↔ Changed old new c ∧ c.operationId?.isSome := by
  unfold operationChanges
  simp only [List.mem_append, List.mem_map, List.mem_filter, List.mem_flatMap,
    HashOrder.mem_visit, Bool.not_eq_true', ← Bool.not_eq_true, IndexMap.containsKey_iff,
    mem_keys_operationsById, not_exists, not_and]
  constructor
  · rintro ((⟨id, ⟨⟨o, ho, rfl⟩, hgone⟩, rfl⟩ | ⟨id, ⟨⟨n, hn, rfl⟩, hnew⟩, rfl⟩) |
      ⟨id, _, hc⟩)
    · exact ⟨.operationRemoved ho hgone, rfl⟩
    · exact ⟨.operationAdded hn hnew, rfl⟩
    · split at hc
      · next o n ho hn =>
          obtain ⟨oc, hoc, rfl⟩ := List.mem_map.mp hc
          exact ⟨.operation ho hn (mem_opChanges.mp hoc), rfl⟩
      · exact absurd hc List.not_mem_nil
  · rintro ⟨hc, hid⟩
    cases hc with
    | irVersion _ => exact absurd hid (by simp [Change.operationId?])
    | operationRemoved ho hgone => exact Or.inl (Or.inl ⟨_, ⟨⟨_, ho, rfl⟩, hgone⟩, rfl⟩)
    | operationAdded hn hnew => exact Or.inl (Or.inr ⟨_, ⟨⟨_, hn, rfl⟩, hnew⟩, rfl⟩)
    | @operation id o n c ho hn hc =>
        refine Or.inr ⟨id, ⟨o, mem_operationsById ho⟩, ?_⟩
        rw [ho, hn]
        exact List.mem_map.mpr ⟨c, mem_opChanges.mpr hc, rfl⟩
    | schemaRemoved _ _ => exact absurd hid (by simp [Change.operationId?])
    | schemaAdded _ _ => exact absurd hid (by simp [Change.operationId?])
    | property _ _ _ => exact absurd hid (by simp [Change.operationId?])

/-- **Which changes a run finds does not depend on its hashers.** -/
theorem mem_changes {h : DiffHashing} {old new : Document} {c : Change} :
    c ∈ changes h old new ↔ Changed old new c := by
  unfold changes schemaChanges
  simp only [List.mem_append, List.mem_map, List.mem_filter, List.mem_flatMap,
    HashOrder.mem_visit, Bool.not_eq_true', decide_eq_false_iff_not, mem_operationChanges,
    mem_sharedSchemas, mem_schemaPropertyChanges]
  constructor
  · rintro ((hc | ⟨hc, -⟩) | ((⟨n, ⟨ho, hn⟩, rfl⟩ | ⟨n, ⟨hn, ho⟩, rfl⟩) |
      ⟨n, -, c, ⟨o, m, ho, hm, hc⟩, rfl⟩))
    · split at hc
      · next hne =>
          rw [List.mem_singleton.mp hc]
          exact .irVersion hne
      · exact absurd hc List.not_mem_nil
    · exact hc
    · exact .schemaRemoved ho hn
    · exact .schemaAdded hn ho
    · exact .property ho hm hc
  · intro hc
    cases hc with
    | irVersion hne => exact Or.inl (Or.inl (by simp [hne]))
    | operationRemoved ho hgone =>
        exact Or.inl (Or.inr ⟨.operationRemoved ho hgone, rfl⟩)
    | operationAdded hn hnew => exact Or.inl (Or.inr ⟨.operationAdded hn hnew, rfl⟩)
    | operation ho hn hc => exact Or.inl (Or.inr ⟨.operation ho hn hc, rfl⟩)
    | schemaRemoved ho hn => exact Or.inr (Or.inl (Or.inl ⟨_, ⟨ho, hn⟩, rfl⟩))
    | schemaAdded hn ho => exact Or.inr (Or.inl (Or.inr ⟨_, ⟨hn, ho⟩, rfl⟩))
    | @property name o n c ho hn hc =>
        exact Or.inr (Or.inr ⟨name, ⟨IndexMap.mem_keys_of_get ho,
          IndexMap.mem_keys_of_get hn⟩, c, ⟨o, n, ho, hn, hc⟩, rfl⟩)

/-- **Soundness and completeness of the findings.** -/
theorem mem_diff_iff {h : DiffHashing} {old new : Document} {f : DiffFinding} :
    f ∈ diff h old new ↔ ∃ c, Changed old new c ∧ c.finding = f := by
  simp only [mem_diff, mem_changes]

/-- The schemas reported as changed, with all their property changes. -/
theorem mem_schemaDiffs {h : DiffHashing} {old new : Document} {d : SchemaDiffDetail} :
    d ∈ (diffDetailed h old new).schemaDiffs ↔
      d.changes = schemaPropertyChanges old new d.name ∧ d.changes ≠ [] := by
  unfold diffDetailed diffSchemas
  simp only [List.mem_filterMap, mem_sharedSchemas, diffSchemaNamed_detail]
  constructor
  · rintro ⟨n, -, hd⟩
    split at hd
    · exact absurd hd (by simp)
    · next hne =>
        rw [← Option.some.inj hd]
        exact ⟨rfl, hne⟩
  · rintro ⟨heq, hne⟩
    rw [heq] at hne
    obtain ⟨c, hc⟩ := List.exists_mem_of_ne_nil _ hne
    obtain ⟨o, n, ho, hn, -⟩ := mem_schemaPropertyChanges.mp hc
    refine ⟨d.name, ⟨IndexMap.mem_keys_of_get ho, IndexMap.mem_keys_of_get hn⟩, ?_⟩
    rw [if_neg hne, ← heq]

end SpecForge
