import SpecForge.Core.RefDepth

/-!
# Schemas to remove

The schemas that `analyze_spec` reports as unused, and recommends to remove, are those that no body
and no response leads to. The parameters of the operations are not among its starting points.

- §1 the loop as sweeps; §2 the starting points; §3 when the report is exact.
-/

namespace SpecForge

open Lib Lib.Sweep

/-! ## §1  The loop -/

/-- What the loop follows from a schema. -/
def AnalysisOrders.leads (orders : AnalysisOrders) (d : Document) : Links String where
  counted a := (orders.refs a).visit (d.modelRefs a)
  silent _ := []

theorem step_leads (orders : AnalysisOrders) (d : Document) :
    (orders.leads d).Step = d.schemas.References := by
  ext a b
  simp only [Links.Step, AnalysisOrders.leads, HashOrder.mem_visit, mem_modelRefs,
    List.not_mem_nil, or_false]

/-- A sweep goes over names that are in the set already. -/
theorem foldl_eq_visit (orders : AnalysisOrders) (d : Document) :
    ∀ {nodes : List String} {st : List String × Bool}, (∀ a ∈ nodes, a ∈ st.1) →
      nodes.foldl (addReferences orders d.schemas) st = nodes.foldl (visit (orders.leads d)) st
  | [], _, _ => rfl
  | a :: nodes, st, h => by
      obtain ⟨ha, hnodes⟩ := List.forall_mem_cons.mp h
      have hvisit : addReferences orders d.schemas st a = visit (orders.leads d) st a := by
        rw [addReferences, visit, if_pos ha]
        simp only [AnalysisOrders.leads, Document.modelRefs, List.foldl_nil]
        cases d.schemas.get a with
        | none =>
            have hempty : (orders.refs a).visit [] = [] := ((orders.refs a).visit_perm []).eq_nil
            simp [hempty]
        | some model => rfl
      rw [List.foldl_cons, List.foldl_cons, hvisit]
      apply foldl_eq_visit
      exact fun b hb => mem_visit.mpr (Or.inl (hnodes b hb))

theorem referencedLoop_eq (orders : AnalysisOrders) (d : Document) :
    ∀ (fuel : ℕ) (referenced : List String), referencedLoop orders d.schemas fuel referenced =
      run (orders.leads d) orders.referenced.visit fuel referenced
  | 0, _ => rfl
  | fuel + 1, referenced => by
      have hsweep : (orders.referenced.visit referenced).foldl (addReferences orders d.schemas)
          (referenced, false) = sweep (orders.leads d) (orders.referenced.visit referenced)
          referenced :=
        foldl_eq_visit orders d fun a ha => orders.referenced.mem_visit.mp ha
      rw [referencedLoop, run, hsweep]
      simp only [referencedLoop_eq orders d fuel]

/-! ## §2  Starting points -/

/-- The types of bodies and responses. -/
def Document.exchanged (d : Document) : List IrType :=
  d.operations.flatMap (fun op =>
    (op.requestBody.map (·.ty)).toList ++ op.responses.filterMap (·.body)) ++
  d.webhooks.flatMap Webhook.types

def Document.parameterTypes (d : Document) : List IrType :=
  d.operations.flatMap fun op => op.parameters.map (·.ty)

/-- One of the types leads to the schema. -/
def Document.ReachedFrom (d : Document) (types : List IrType) (name : String) : Prop :=
  ∃ ty ∈ types, ∃ r ∈ ty.refs, Relation.ReflTransGen d.schemas.References r name

/-- An operation leads to the schema through its parameters, its body or its responses, or a
webhook does through its body or its responses. -/
def Document.Used (d : Document) (name : String) : Prop :=
  d.ReachedFrom (d.operations.flatMap Operation.types ++ d.webhooks.flatMap Webhook.types) name

theorem mem_collectExchange {referenced : List String} {requestBody : Option RequestBody}
    {responses : List Response} {name : String} :
    name ∈ collectExchange referenced requestBody responses ↔ name ∈ referenced ∨
      ∃ ty ∈ (requestBody.map (·.ty)).toList ++ responses.filterMap (·.body), name ∈ ty.refs := by
  have hresponses : responses.flatMap (fun resp => resp.body.toList) =
      responses.filterMap (·.body) :=
    (List.filterMap_eq_flatMap_toList _ _).symm
  unfold collectExchange
  rw [mem_foldl_collect (g := fun resp => resp.body.toList), hresponses]
  · cases requestBody with
    | none => simp
    | some body => simp [collectRefsFromType, mem_collectTypeRefs, or_assoc]
  · exact fun names resp => mem_collect_option

theorem mem_exchangeRefs {d : Document} {name : String} :
    name ∈ exchangeRefs d ↔ ∃ ty ∈ d.exchanged, name ∈ ty.refs := by
  rw [exchangeRefs, mem_foldl_collect (g := Webhook.types) fun _ _ => mem_collectExchange,
    mem_foldl_collect (g := fun op =>
      (op.requestBody.map (·.ty)).toList ++ op.responses.filterMap (·.body))
      fun _ _ => mem_collectExchange]
  simp only [Document.exchanged, List.not_mem_nil, false_or, List.mem_append,
    or_and_right, exists_or]

theorem used_iff {d : Document} {name : String} :
    d.Used name ↔ d.ReachedFrom d.parameterTypes name ∨ d.ReachedFrom d.exchanged name := by
  simp only [Document.Used, Document.ReachedFrom, Document.parameterTypes, Document.exchanged,
    Operation.types, List.mem_append, List.mem_flatMap]
  constructor
  · rintro ⟨ty, ⟨op, hop, (hty | hty) | hty⟩ | hty, hrest⟩
    · exact Or.inl ⟨ty, ⟨op, hop, hty⟩, hrest⟩
    · exact Or.inr ⟨ty, Or.inl ⟨op, hop, Or.inl hty⟩, hrest⟩
    · exact Or.inr ⟨ty, Or.inl ⟨op, hop, Or.inr hty⟩, hrest⟩
    · exact Or.inr ⟨ty, Or.inr hty, hrest⟩
  · rintro (⟨ty, ⟨op, hop, hty⟩, hrest⟩ | ⟨ty, ⟨op, hop, hty | hty⟩ | hty, hrest⟩)
    · exact ⟨ty, Or.inl ⟨op, hop, Or.inl (Or.inl hty)⟩, hrest⟩
    · exact ⟨ty, Or.inl ⟨op, hop, Or.inl (Or.inr hty)⟩, hrest⟩
    · exact ⟨ty, Or.inl ⟨op, hop, Or.inr hty⟩, hrest⟩
    · exact ⟨ty, Or.inr hty, hrest⟩

/-! ## §3  The report -/

/-- The analysis ends, and reports the schemas that are not used and no others. -/
structure AnalysisExact (d : Document) : Prop where
  ends : ∀ toVec orders, ∃ sweeps fuel report, analyzeSpec toVec orders sweeps fuel d = some report
  exact : ∀ {toVec orders sweeps fuel report},
    analyzeSpec toVec orders sweeps fuel d = some report → ∀ name,
      name ∈ report.unusedSchemas ↔ name ∈ d.schemas.names ∧ ¬ d.Used name

theorem exists_analyzeSpec (toVec : Document → Option (List UInt8)) (orders : AnalysisOrders)
    (d : Document) : ∃ sweeps fuel report, analyzeSpec toVec orders sweeps fuel d = some report := by
  have huniv : ∀ a, (orders.leads d).counted a ⊆ d.schemas.names.flatMap d.modelRefs := by
    intro a b hb
    have href : b ∈ d.modelRefs a := (orders.refs a).mem_visit.mp hb
    obtain ⟨model, hget, -⟩ := mem_modelRefs.mp href
    exact List.mem_flatMap.mpr ⟨a, IndexMap.mem_keys_of_get hget, href⟩
  obtain ⟨sweeps, referenced, hloop⟩ := exists_run orders.referenced.visit _ huniv (exchangeRefs d)
  obtain ⟨fuel, depths, hdepths⟩ := exists_depths orders d
  refine ⟨sweeps, fuel, Option.isSome_iff_exists.mp ?_⟩
  rw [analyzeSpec, referencedLoop_eq, hloop, hdepths]
  rfl

theorem mem_unusedSchemas {toVec : Document → Option (List UInt8)} {orders : AnalysisOrders}
    {sweeps fuel : ℕ} {d : Document} {report : AnalysisReport} {name : String}
    (h : analyzeSpec toVec orders sweeps fuel d = some report) :
    name ∈ report.unusedSchemas ↔
      name ∈ d.schemas.names ∧ ¬ d.ReachedFrom d.exchanged name := by
  rw [analyzeSpec, Option.bind_eq_bind, Option.bind_eq_some_iff] at h
  obtain ⟨referenced, hloop, h⟩ := h
  simp only [Option.bind_eq_bind, Option.bind_eq_some_iff] at h
  obtain ⟨depths, -, hreport⟩ := h
  obtain rfl := Option.some.inj hreport
  rw [referencedLoop_eq] at hloop
  have hmem : name ∈ referenced ↔ d.ReachedFrom d.exchanged name := by
    rw [mem_run_iff (fun _ => rfl) (fun s a => (orders.referenced.mem_visit).mpr) hloop,
      Links.Reachable, step_leads]
    simp only [mem_exchangeRefs, Document.ReachedFrom]
    constructor
    · rintro ⟨r, ⟨ty, hty, hr⟩, hpath⟩
      exact ⟨ty, hty, r, hr, hpath⟩
    · rintro ⟨ty, hty, r, hr, hpath⟩
      exact ⟨r, ⟨ty, hty, hr⟩, hpath⟩
  rw [sortNames, List.mem_mergeSort, List.mem_filter, decide_eq_true_eq, hmem]

/-- **The report is exact if and only if a body or a response leads to every schema that a
parameter leads to.** -/
theorem analysisExact_iff (d : Document) : AnalysisExact d ↔ ∀ name ∈ d.schemas.names,
    d.ReachedFrom d.parameterTypes name → d.ReachedFrom d.exchanged name := by
  constructor
  · intro hexact name hname hparam
    obtain ⟨sweeps, fuel, report, h⟩ := hexact.ends (fun _ => none) AnalysisOrders.insertion
    by_contra hnot
    have hunused := (mem_unusedSchemas h).mpr ⟨hname, hnot⟩
    exact ((hexact.exact h name).mp hunused).2 (used_iff.mpr (Or.inl hparam))
  · intro hall
    refine ⟨fun toVec orders => exists_analyzeSpec toVec orders d, fun h name => ?_⟩
    rw [mem_unusedSchemas h, used_iff]
    refine and_congr_right fun hname => not_congr ⟨Or.inr, ?_⟩
    rintro (hparam | hother)
    · exact hall name hname hparam
    · exact hother

/-- The only operation filters by status, and the status is a schema of its own. -/
def statusDoc : Document :=
  Document.minimal ⟨IndexMap.ofList [("Status", .enum ⟨"Status", none, [⟨"open", none⟩]⟩)]⟩
    [⟨"listPets", .get, "/pets", none, none, none,
      [⟨"status", .query, .reference "Status" false none, false, none⟩], none,
      [⟨"200", none, none⟩], none⟩]

/-- The type of the parameter is to be removed. -/
theorem parameter_type_unused : ¬ AnalysisExact statusDoc := by
  intro hexact
  obtain ⟨sweeps, fuel, report, h⟩ := hexact.ends (fun _ => none) AnalysisOrders.insertion
  have hunused : "Status" ∈ report.unusedSchemas := by
    apply (mem_unusedSchemas h).mpr
    refine ⟨List.mem_singleton.mpr rfl, ?_⟩
    rintro ⟨ty, hty, -⟩
    cases hty
  apply ((hexact.exact h "Status").mp hunused).2
  exact ⟨.reference "Status" false none, List.mem_singleton.mpr rfl, "Status",
    List.mem_singleton.mpr rfl, .refl⟩

end SpecForge
