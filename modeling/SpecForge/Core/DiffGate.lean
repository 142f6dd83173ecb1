import SpecForge.Core.DiffTexts
import SpecForge.Core.ResolvedObjects

/-!
# What the breaking-change gate lets through

A release passes the gate if `diff` reports no breaking finding. Here the gate is
compared with what breaks a client, for endpoints that disappear (§1), for
operations that ask for more than before (§2) and for schemas whose values change
(§3). Each part states the change to be noticed on its own terms, and its result
says exactly when `diff` notices it.
-/

namespace SpecForge

open Lib
open Lib.Text
open OpenApi (OpenAPI PathItem ReferenceOr)

/-! ## §1  Endpoints that disappear -/

theorem exists_breaking_iff {h : DiffHashing} {old new : Document} :
    (∃ f ∈ diff h old new, f.severity = .breaking) ↔
      ∃ c, Changed old new c ∧ c.finding.severity = .breaking := by
  constructor
  · rintro ⟨f, hf, hsev⟩
    obtain ⟨c, hc, rfl⟩ := mem_diff_iff.mp hf
    exact ⟨c, hc, hsev⟩
  · rintro ⟨c, hc, hsev⟩
    exact ⟨c.finding, mem_diff_iff.mpr ⟨c, hc, rfl⟩, hsev⟩

/-- No operation of `d` has the method and path of `o`. -/
def EndpointGone (o : Operation) (d : Document) : Prop :=
  ∀ n ∈ d.operations, ¬(n.method = o.method ∧ n.path = o.path)

/-- What the gate recognises as a break, between documents of one IR version:
operations are compared by their ids, of several with one id the last. -/
inductive BreakRecognised (old new : Document) : Prop
  | operationId {o : Operation} (ho : o ∈ old.operations)
      (hgone : ∀ n ∈ new.operations, n.operationId ≠ o.operationId)
  | operation {id : String} {o n : Operation} {c : OpChange}
      (ho : (operationsById old).get id = some o)
      (hn : (operationsById new).get id = some n) (hc : OpChanged o n c)
  | schema {name : String} (ho : name ∈ old.schemas.names) (hn : name ∉ new.schemas.names)
  | property {name : String} {o n : ObjectModel} {c : PropertyChange}
      (ho : old.schemas.get name = some (.object o))
      (hn : new.schemas.get name = some (.object n))
      (hc : PropertyChanged o.properties n.properties c) (hbreaking : c.change.breaking = true)

theorem breakRecognised_iff {h : DiffHashing} {old new : Document}
    (hversion : old.irVersion = new.irVersion) :
    (∃ f ∈ diff h old new, f.severity = .breaking) ↔ BreakRecognised old new := by
  rw [exists_breaking_iff]
  constructor
  · rintro ⟨c, hc, hsev⟩
    cases hc with
    | irVersion hne => exact absurd hversion hne
    | operationRemoved ho hgone => exact .operationId ho hgone
    | operationAdded hn hnew => cases hsev
    | operation ho hn hc => exact .operation ho hn hc
    | schemaRemoved ho hn => exact .schema ho hn
    | schemaAdded hn ho => cases hsev
    | property ho hn hc =>
        exact .property ho hn hc ((PropertyChange.severity_finding _ _).mp hsev)
  · intro hbreak
    cases hbreak with
    | operationId ho hgone => exact ⟨_, .operationRemoved ho hgone, rfl⟩
    | operation ho hn hc => exact ⟨_, .operation ho hn hc, OpChange.severity_finding _ _⟩
    | schema ho hn => exact ⟨_, .schemaRemoved ho hn, rfl⟩
    | property ho hn hc hbreaking =>
        exact ⟨_, .property ho hn hc, (PropertyChange.severity_finding _ _).mpr hbreaking⟩

/-- **When a vanished endpoint stops the gate**: of the endpoints themselves only
the ids are compared. -/
theorem endpoint_gone_breaks_iff {oldSpec newSpec : OpenAPI} {old new : Document}
    (hold : resolve oldSpec = .ok old) (hnew : resolve newSpec = .ok new) (h : DiffHashing) :
    ((∃ o ∈ old.operations, EndpointGone o new) →
        ∃ f ∈ diff h old new, f.severity = .breaking) ↔
      (¬∃ o ∈ old.operations, EndpointGone o new) ∨ BreakRecognised old new := by
  have hversion : old.irVersion = new.irVersion :=
    (resolve_ok hold).2.trans (resolve_ok hnew).2.symm
  rw [breakRecognised_iff hversion]
  exact imp_iff_not_or

/-- One operation, `GET` on a path, with the id `listPets`. -/
def listPetsSpec (path : String) : OpenAPI where
  info := ⟨"Pets", "1.0.0"⟩
  servers := []
  paths := IndexMap.ofList [(path, .item {
    get := some {
      tags := []
      summary := none
      description := none
      operationId := some "listPets"
      parameters := []
      requestBody := none
      responses := ⟨none, IndexMap.empty⟩ }
    put := none
    post := none
    delete := none
    options := none
    head := none
    patch := none
    parameters := [] })]
  components := none
  security := none

theorem endpoint_gone_breaks_iff_moved :
    ∃ old new, resolve (listPetsSpec "/pets") = .ok old ∧
      resolve (listPetsSpec "/animals") = .ok new ∧
      (((∃ o ∈ old.operations, EndpointGone o new) →
          ∃ f ∈ diff DiffHashing.insertion old new, f.severity = .breaking) ↔
        (¬∃ o ∈ old.operations, EndpointGone o new) ∨ BreakRecognised old new) := by
  obtain ⟨old, hold⟩ : ∃ old, resolve (listPetsSpec "/pets") = .ok old := ⟨_, rfl⟩
  obtain ⟨new, hnew⟩ : ∃ new, resolve (listPetsSpec "/animals") = .ok new := ⟨_, rfl⟩
  exact ⟨old, new, hold, hnew, endpoint_gone_breaks_iff hold hnew DiffHashing.insertion⟩

/-- An operation that keeps its id on another path: the old endpoint is gone and
nothing is reported. -/
theorem moved_endpoint_unnoticed :
    ¬∀ (h : DiffHashing) (oldSpec newSpec : OpenAPI) (old new : Document),
      resolve oldSpec = .ok old → resolve newSpec = .ok new →
      (∃ o ∈ old.operations, EndpointGone o new) →
      ∃ f ∈ diff h old new, f.severity = .breaking := by
  intro hclaim
  have hgone : ∃ old new, resolve (listPetsSpec "/pets") = .ok old ∧
      resolve (listPetsSpec "/animals") = .ok new ∧
      (∃ o ∈ old.operations, EndpointGone o new) ∧ diff DiffHashing.insertion old new = [] := by
    refine ⟨_, _, rfl, rfl, ⟨_, List.mem_singleton.mpr rfl, ?_⟩, rfl⟩
    intro n hn hsame
    rw [List.mem_singleton.mp hn] at hsame
    exact absurd hsame.2 (by decide)
  obtain ⟨old, new, hold, hnew, hlost, hnone⟩ := hgone
  obtain ⟨f, hf, -⟩ := hclaim DiffHashing.insertion _ _ old new hold hnew hlost
  rw [hnone] at hf
  exact absurd hf List.not_mem_nil

/-! ## §2  Operations that ask for more -/

/-- What changes about an operation that both documents have, as a client sees
it. -/
inductive Tightened (o n : Operation) : Prop
  | parameterRequired {p q : Parameter} (hp : p ∈ o.parameters) (hq : q ∈ n.parameters)
      (hname : p.name = q.name) (hopt : p.required = false) (hreq : q.required = true)
  | parameterLocation {p q : Parameter} (hp : p ∈ o.parameters) (hq : q ∈ n.parameters)
      (hname : p.name = q.name) (hloc : p.location ≠ q.location)
  | parameterType {p q : Parameter} (hp : p ∈ o.parameters) (hq : q ∈ n.parameters)
      (hname : p.name = q.name) (hty : p.ty ≠ q.ty)
  | bodyRequired {b : RequestBody} (hn : n.requestBody = some b) (hreq : b.required = true)
      (ho : ∀ a, o.requestBody = some a → a.required = false)
  | bodyType {a b : RequestBody} (ho : o.requestBody = some a) (hn : n.requestBody = some b)
      (hty : a.ty ≠ b.ty)
  | responseType {r s : Response} (hr : r ∈ o.responses) (hs : s ∈ n.responses)
      (hstatus : r.status = s.status) (hbody : r.body ≠ s.body)

/-- The path is that of the operation or lies below it. -/
def UnderOperation (id path : String) : Prop :=
  path = "operations." ++ id ∨ startsWith ("operations." ++ id ++ ".") path = true

/-- A finding of another operation whose path lies under `operations.<id>`. It takes
ids with dots: one that starts with `id` and a dot, or that `id` starts with. -/
inductive Shadowed (old new : Document) (id : String) : Prop
  | removed {o : Operation} (ho : o ∈ old.operations)
      (hgone : ∀ n ∈ new.operations, n.operationId ≠ o.operationId)
      (hunder : UnderOperation id ("operations." ++ o.operationId))
  | changed {o n : Operation} {c : OpChange} (ho : o ∈ old.operations)
      (hn : n ∈ new.operations) (hid : o.operationId = n.operationId)
      (hother : o.operationId ≠ id) (hc : OpChanged o n c)
      (hunder : UnderOperation id (c.finding ("operations." ++ o.operationId)).path)

theorem not_underOperation_of_apart {id p : String} (hp : Apart "operations." p) (s : String) :
    ¬UnderOperation id (p ++ s) := by
  rintro (heq | hstarts)
  · exact hp.append_ne id s heq.symm
  · obtain ⟨r, hr⟩ := startsWith_iff.mp hstarts
    rw [String.append_assoc, String.append_assoc] at hr
    exact hp.append_ne _ s hr.symm

theorem underOperation_opChange (id : String) (c : OpChange) :
    UnderOperation id (c.finding ("operations." ++ id)).path := by
  obtain ⟨rest, hrest⟩ := c.path_finding ("operations." ++ id)
  rw [hrest]
  exact Or.inr (startsWith_append _ _)

theorem not_underOperation_irVersion (id old new : String) :
    ¬UnderOperation id (irVersionFinding old new).path := by
  rw [path_irVersionFinding]
  exact not_underOperation_of_apart (by decide) ""

/-- Which breaking findings lie under an operation that both documents have. -/
theorem exists_breaking_under_iff {h : DiffHashing} {old new : Document}
    (hold : old.UniqueIds) (hnew : new.UniqueIds) {o n : Operation}
    (ho : o ∈ old.operations) (hn : n ∈ new.operations)
    (hid : o.operationId = n.operationId) :
    (∃ f ∈ diff h old new, f.severity = .breaking ∧ UnderOperation o.operationId f.path) ↔
      (∃ c, OpChanged o n c) ∨ Shadowed old new o.operationId := by
  have hgeto := get_operationsById hold ho
  have hgetn := get_operationsById hnew hn
  constructor
  · rintro ⟨f, hf, hsev, hunder⟩
    obtain ⟨c, hc, rfl⟩ := mem_diff_iff.mp hf
    cases hc with
    | irVersion hne => exact absurd hunder (not_underOperation_irVersion _ _ _)
    | operationRemoved ho' hgone => exact Or.inr (.removed ho' hgone hunder)
    | operationAdded hn' hnew' => cases hsev
    | @operation id o' n' c ho' hn' hc =>
        obtain ⟨hmemo, rfl⟩ := mem_operationsById ho'
        obtain ⟨hmemn, hidn⟩ := mem_operationsById hn'
        by_cases hsame : o'.operationId = o.operationId
        · rw [hsame] at ho' hn'
          rw [hgeto] at ho'
          rw [hid, hgetn] at hn'
          cases ho'
          cases hn'
          exact Or.inl ⟨c, hc⟩
        · exact Or.inr (.changed hmemo hmemn hidn.symm hsame hc hunder)
    | schemaRemoved _ _ => exact absurd hunder (not_underOperation_of_apart (by decide) _)
    | schemaAdded _ _ => cases hsev
    | property _ _ _ =>
        rw [Change.finding, PropertyChange.path_finding, String.append_assoc,
          String.append_assoc] at hunder
        exact absurd hunder (not_underOperation_of_apart (by decide) _)
  · rintro (⟨c, hc⟩ | hshadow)
    · refine ⟨_, mem_diff_iff.mpr ⟨.operation o.operationId c, ?_, rfl⟩,
        OpChange.severity_finding _ c, underOperation_opChange _ c⟩
      exact .operation hgeto (hid ▸ hgetn) hc
    · cases hshadow with
      | removed ho' hgone hunder =>
          exact ⟨_, mem_diff_iff.mpr ⟨_, .operationRemoved ho' hgone, rfl⟩, rfl, hunder⟩
      | @changed o' n' c ho' hn' hid' _ hc hunder =>
          have hgeto' := get_operationsById hold ho'
          have hgetn' := get_operationsById hnew hn'
          refine ⟨_, mem_diff_iff.mpr ⟨.operation o'.operationId c, ?_, rfl⟩,
            OpChange.severity_finding _ c, hunder⟩
          exact .operation hgeto' (hid' ▸ hgetn') hc

/-- **When a tightened operation stops the gate**: of all that tightens it only a
required body where there was none is compared, so the operation must have one of
the changes in `OpChanged`, unless the id of another operation puts a finding
under its path. -/
theorem tightened_breaks_iff {old new : Document} (hold : old.UniqueIds)
    (hnew : new.UniqueIds) {o n : Operation} (ho : o ∈ old.operations)
    (hn : n ∈ new.operations) (hid : o.operationId = n.operationId) (h : DiffHashing) :
    (Tightened o n →
        ∃ f ∈ diff h old new, f.severity = .breaking ∧ UnderOperation o.operationId f.path) ↔
      ¬Tightened o n ∨ (∃ c, OpChanged o n c) ∨ Shadowed old new o.operationId := by
  rw [exists_breaking_under_iff hold hnew ho hn hid]
  exact imp_iff_not_or

/-- One operation with one query parameter. -/
def searchOperation (required : Bool) : Operation where
  operationId := "search"
  method := .get
  path := "/search"
  tag := none
  summary := none
  description := none
  parameters := [⟨"q", .query, .scalar .string, required, none⟩]
  requestBody := none
  responses := []
  retryPolicy := none

def searchDocument (required : Bool) : Document :=
  Document.minimal SchemaRegistry.default [searchOperation required]

theorem searchDocument_uniqueIds (required : Bool) : (searchDocument required).UniqueIds :=
  List.nodup_singleton _

theorem tightened_breaks_iff_search :
    (Tightened (searchOperation false) (searchOperation true) →
        ∃ f ∈ diff DiffHashing.insertion (searchDocument false) (searchDocument true),
          f.severity = .breaking ∧ UnderOperation "search" f.path) ↔
      ¬Tightened (searchOperation false) (searchOperation true) ∨
        (∃ c, OpChanged (searchOperation false) (searchOperation true) c) ∨
        Shadowed (searchDocument false) (searchDocument true) "search" :=
  tightened_breaks_iff (searchDocument_uniqueIds false) (searchDocument_uniqueIds true)
    (List.mem_singleton.mpr rfl) (List.mem_singleton.mpr rfl) rfl DiffHashing.insertion

/-- An optional parameter that becomes required is not reported. -/
theorem required_parameter_unnoticed :
    ¬∀ (h : DiffHashing) (old new : Document), old.UniqueIds → new.UniqueIds →
      ∀ o ∈ old.operations, ∀ n ∈ new.operations, o.operationId = n.operationId →
        Tightened o n →
        ∃ f ∈ diff h old new, f.severity = .breaking ∧ UnderOperation o.operationId f.path := by
  intro hclaim
  have htight : Tightened (searchOperation false) (searchOperation true) :=
    .parameterRequired (List.mem_singleton.mpr rfl) (List.mem_singleton.mpr rfl) rfl rfl rfl
  obtain ⟨f, hf, -⟩ := hclaim DiffHashing.insertion (searchDocument false)
    (searchDocument true) (searchDocument_uniqueIds false) (searchDocument_uniqueIds true)
    _ (List.mem_singleton.mpr rfl) _ (List.mem_singleton.mpr rfl) rfl htight
  have hnone : diff DiffHashing.insertion (searchDocument false) (searchDocument true) = [] :=
    rfl
  rw [hnone] at hf
  exact absurd hf List.not_mem_nil

/-! ## §3  Schemas whose values change -/

/-- The values an optional type lets through; no type lets all through. -/
def acceptedValues (reg : SchemaRegistry) (ty : Option IrType) : Set Value :=
  {v | ∀ t, ty = some t → Validates reg v t}

/-- What changes about a schema that both documents have, as a client sees it. -/
inductive Altered (old new : Document) (name : String) : Prop
  | variantRemoved {o n : EnumModel} (ho : old.schemas.get name = some (.enum o))
      (hn : new.schemas.get name = some (.enum n)) {x : EnumVariant} (hx : x ∈ o.variants)
      (hgone : ∀ y ∈ n.variants, y.value ≠ x.value)
  | enumToObject {o : EnumModel} {n : ObjectModel}
      (ho : old.schemas.get name = some (.enum o))
      (hn : new.schemas.get name = some (.object n))
  | objectToEnum {o : ObjectModel} {n : EnumModel}
      (ho : old.schemas.get name = some (.object o))
      (hn : new.schemas.get name = some (.enum n))
  | shape {o n : ObjectModel} (ho : old.schemas.get name = some (.object o))
      (hn : new.schemas.get name = some (.object n))
      (hvalues : acceptedValues old.schemas o.shapeType ≠
        acceptedValues new.schemas n.shapeType)
  | additionalProperties {o n : ObjectModel} (ho : old.schemas.get name = some (.object o))
      (hn : new.schemas.get name = some (.object n))
      (hvalues : acceptedValues old.schemas o.additionalProperties ≠
        acceptedValues new.schemas n.additionalProperties)

/-- A change whose finding's path starts with `schemas.<name>`: a property change of
the schema itself, or, where names share a beginning, a change of another. -/
inductive SchemaTouched (old new : Document) (name : String) : Prop
  | removed {m : String} (ho : m ∈ old.schemas.names) (hn : m ∉ new.schemas.names)
      (hstarts : startsWith name m = true)
  | added {m : String} (hn : m ∈ new.schemas.names) (ho : m ∉ old.schemas.names)
      (hstarts : startsWith name m = true)
  | property {m : String} {o n : ObjectModel} {c : PropertyChange}
      (ho : old.schemas.get m = some (.object o)) (hn : new.schemas.get m = some (.object n))
      (hc : PropertyChanged o.properties n.properties c)
      (hstarts : startsWith name (m ++ "." ++ c.property) = true)

theorem startsWith_schemas {name m : String} :
    startsWith ("schemas." ++ name) ("schemas." ++ m) = true ↔ startsWith name m = true := by
  rw [startsWith_append_append]

theorem not_startsWith_schemas {name p : String} (hp : Apart "schemas." p) (s : String) :
    ¬startsWith ("schemas." ++ name) (p ++ s) = true := by
  intro hstarts
  obtain ⟨r, hr⟩ := startsWith_iff.mp hstarts
  rw [String.append_assoc] at hr
  exact hp.append_ne _ s hr.symm

theorem exists_finding_schema_iff {h : DiffHashing} {old new : Document} {name : String} :
    (∃ f ∈ diff h old new, startsWith ("schemas." ++ name) f.path = true) ↔
      SchemaTouched old new name := by
  constructor
  · rintro ⟨f, hf, hstarts⟩
    obtain ⟨c, hc, rfl⟩ := mem_diff_iff.mp hf
    have hop : ¬c.operationId?.isSome := by
      intro hid
      obtain ⟨s, hs⟩ := path_operation_change c hid
      rw [hs] at hstarts
      exact not_startsWith_schemas (by decide) s hstarts
    cases hc with
    | irVersion hne =>
        rw [Change.finding, path_irVersionFinding] at hstarts
        exact absurd hstarts (not_startsWith_schemas (by decide) "")
    | operationRemoved _ _ => exact absurd rfl hop
    | operationAdded _ _ => exact absurd rfl hop
    | operation _ _ _ => exact absurd rfl hop
    | schemaRemoved ho hn => exact .removed ho hn (startsWith_schemas.mp hstarts)
    | schemaAdded hn ho => exact .added hn ho (startsWith_schemas.mp hstarts)
    | property ho hn hc =>
        rw [path_property] at hstarts
        exact .property ho hn hc (startsWith_schemas.mp hstarts)
  · intro htouched
    cases htouched with
    | removed ho hn hstarts =>
        exact ⟨_, mem_diff_iff.mpr ⟨_, .schemaRemoved ho hn, rfl⟩,
          startsWith_schemas.mpr hstarts⟩
    | added hn ho hstarts =>
        exact ⟨_, mem_diff_iff.mpr ⟨_, .schemaAdded hn ho, rfl⟩, startsWith_schemas.mpr hstarts⟩
    | property ho hn hc hstarts =>
        refine ⟨_, mem_diff_iff.mpr ⟨_, .property ho hn hc, rfl⟩, ?_⟩
        rw [path_property]
        exact startsWith_schemas.mpr hstarts

/-- **When an altered schema is reported at all**: only property lists are
compared, so the schema's own properties must change as well, unless the name of
another schema starts with its name. -/
theorem altered_reported_iff (h : DiffHashing) (old new : Document) (name : String) :
    (Altered old new name →
        ∃ f ∈ diff h old new, startsWith ("schemas." ++ name) f.path = true) ↔
      ¬Altered old new name ∨ SchemaTouched old new name := by
  rw [exists_finding_schema_iff]
  exact imp_iff_not_or

/-- One enum model. -/
def statusDocument (variants : List EnumVariant) : Document :=
  Document.minimal ⟨IndexMap.ofList [("Status", .enum ⟨"Status", none, variants⟩)]⟩ []

/-- An enum variant that is removed is not reported. -/
theorem removed_variant_unnoticed :
    ¬∀ (h : DiffHashing) (old new : Document) (name : String), name ∈ old.schemas.names →
      name ∈ new.schemas.names → Altered old new name →
      ∃ f ∈ diff h old new, startsWith ("schemas." ++ name) f.path = true := by
  intro hclaim
  have haltered : Altered (statusDocument [⟨"open", none⟩, ⟨"closed", none⟩])
      (statusDocument [⟨"open", none⟩]) "Status" := by
    refine .variantRemoved rfl rfl (x := ⟨"closed", none⟩)
      (List.mem_cons_of_mem _ (List.mem_singleton.mpr rfl)) fun y hy => ?_
    rw [List.mem_singleton.mp hy]
    decide
  obtain ⟨f, hf, -⟩ := hclaim DiffHashing.insertion _ _ "Status" (List.mem_singleton.mpr rfl)
    (List.mem_singleton.mpr rfl) haltered
  have hnone : diff DiffHashing.insertion (statusDocument [⟨"open", none⟩, ⟨"closed", none⟩])
      (statusDocument [⟨"open", none⟩]) = [] := rfl
  rw [hnone] at hf
  exact absurd hf List.not_mem_nil

end SpecForge
