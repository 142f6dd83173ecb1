import SpecForge.Core.Analyzer
import SpecForge.Lib.BTreeMap
import SpecForge.Lib.Depth

/-!
# Reference depths

`ref_depth` is a depth-first walk with a memo table: it ends on every reference graph, and what it
yields depends on the order of the targets exactly if one way to a schema passes a target of the
schema and another does not.

- §1 the walk of `ref_depth`; §2 that it ends; §3 when the depths do not depend on the order.
-/

namespace SpecForge

open Lib Lib.Sweep Lib.Depth

/-! ## §1  The walk -/

def RefGraph.targets (graph : RefGraph) (name : String) : List String := (graph.get name).getD []

section Walk

variable {graph : RefGraph} {fuel : ℕ} {name : String} {names : List String}
  {memo memo' : IndexMap String ℕ} {depth mc acc : ℕ}

/-- One step of the loop over the targets. -/
def maxStep (visit : String → IndexMap String ℕ → Option (ℕ × IndexMap String ℕ))
    (st : ℕ × IndexMap String ℕ) (t : String) : Option (ℕ × IndexMap String ℕ) := do
  let (d, memo) ← visit t st.2
  return (max st.1 d, memo)

/-- The visit of a schema that is not in the table. -/
theorem refDepth_fresh (hnew : memo.get name = none) : refDepth graph (fuel + 1) name memo =
    ((graph.targets name).foldlM (maxStep (refDepth graph fuel)) (0, memo.insert name 0)).map
      fun st => (level (graph.targets name) st.1,
        st.2.insert name (level (graph.targets name) st.1)) := by
  rw [refDepth, hnew, RefGraph.targets]
  rcases graph.get name with _ | _ | ⟨t, ts⟩
  · rfl
  · rfl
  · have hsteps : ∀ (targets : List String) (st : ℕ × IndexMap String ℕ),
        (targets.foldlM (fun (mc, memo) t => do
          let (d, memo) ← refDepth graph fuel t memo
          return (max mc d, memo)) st) = targets.foldlM (maxStep (refDepth graph fuel)) st :=
      fun _ _ => rfl
    simp only [hsteps, Option.getD_some]
    cases (t :: ts).foldlM (maxStep (refDepth graph fuel)) (0, memo.insert name 0) <;> rfl

theorem refDepth_cached {cached : ℕ} (hget : memo.get name = some cached) :
    refDepth graph (fuel + 1) name memo = some (cached, memo) := by
  rw [refDepth, hget]

/-- The loop over the targets, if each of its steps is a walk. -/
theorem foldlM_maxStep {visit : String → IndexMap String ℕ → Option (ℕ × IndexMap String ℕ)}
    {targets : String → List String}
    (hvisit : ∀ {t memo d memo'}, visit t memo = some (d, memo') →
      Visits targets [t] memo d memo') :
    ∀ {ts : List String} {acc : ℕ} {memo : IndexMap String ℕ},
      ts.foldlM (maxStep visit) (acc, memo) = some (mc, memo') →
      ∃ n, mc = max acc n ∧ Visits targets ts memo n memo'
  | [], acc, memo, h => by
      obtain ⟨rfl, rfl⟩ := Prod.mk.inj (Option.some.inj h)
      exact ⟨0, (Nat.max_zero _).symm, .nil⟩
  | t :: ts, acc, memo, h => by
      rw [List.foldlM_cons, Option.bind_eq_bind, Option.bind_eq_some_iff] at h
      obtain ⟨st, hstep, hrest⟩ := h
      rw [maxStep, Option.bind_eq_bind, Option.bind_eq_some_iff] at hstep
      obtain ⟨⟨d, memo₁⟩, hd, hst⟩ := hstep
      obtain rfl := Option.some.inj hst
      obtain ⟨n, rfl, hwalk⟩ := foldlM_maxStep hvisit hrest
      exact ⟨max d n, Nat.max_assoc _ _ _, (hvisit hd).trans hwalk⟩

/-- **`ref_depth` is the walk.** -/
theorem visits_of_refDepth (h : refDepth graph fuel name memo = some (depth, memo')) :
    Visits graph.targets [name] memo depth memo' := by
  induction fuel generalizing name memo depth memo' with
  | zero => cases h
  | succ fuel ih =>
      cases hget : memo.get name with
      | some cached =>
          rw [refDepth_cached hget] at h
          obtain ⟨rfl, rfl⟩ := Prod.mk.inj (Option.some.inj h)
          have hwalk : Visits graph.targets [name] memo (max cached 0) memo := .cached hget .nil
          rwa [Nat.max_zero] at hwalk
      | none =>
          rw [refDepth_fresh hget, Option.map_eq_some_iff] at h
          obtain ⟨⟨mc, memo₁⟩, hfold, hst⟩ := h
          obtain ⟨rfl, rfl⟩ := Prod.mk.inj hst
          obtain ⟨n, hmc, hin⟩ := foldlM_maxStep ih hfold
          rw [Nat.zero_max] at hmc
          subst hmc
          have hwalk := Visits.fresh hget hin rfl .nil
          rwa [Nat.max_zero] at hwalk

/-- The depths of the schemas are those in the table at the end. -/
theorem visits_of_refDepths {depths : List (String × ℕ)}
    (h : refDepths graph fuel names memo = some depths) :
    ∃ n memo', Visits graph.targets names memo n memo' ∧
      depths = names.map fun name => (name, (memo'.get name).getD 0) := by
  induction names generalizing memo depths with
  | nil =>
      obtain rfl := Option.some.inj h
      exact ⟨0, memo, .nil, rfl⟩
  | cons name names ih =>
      rw [refDepths, Option.bind_eq_bind, Option.bind_eq_some_iff] at h
      obtain ⟨⟨depth, memo₁⟩, hdepth, h⟩ := h
      rw [Option.bind_eq_bind, Option.bind_eq_some_iff] at h
      obtain ⟨rest, hrest, hst⟩ := h
      obtain rfl := Option.some.inj hst
      obtain ⟨n, memo', hwalk, rfl⟩ := ih hrest
      have hfirst := visits_of_refDepth hdepth
      refine ⟨_, memo', hfirst.trans hwalk, ?_⟩
      have hnoted : memo₁.get name = some depth := by
        have hpeak := hfirst.eq_peak (s := []) (List.forall_mem_nil _)
        obtain ⟨d, hd⟩ := hfirst.noted (List.mem_singleton.mpr rfl)
        rw [hpeak, hd]
        simp [peak, along, hd]
      rw [List.map_cons, hwalk.get_of_get hnoted, Option.getD_some]

/-! ## §2  Termination -/

/-- How many of the names are not in the table. -/
def missing (univ : List String) (memo : IndexMap String ℕ) : ℕ :=
  (univ.filter fun name => decide (memo.get name = none)).length

theorem missing_le_of_visits {univ : List String} {n : ℕ} {targets : String → List String}
    (h : Visits targets names memo n memo') : missing univ memo' ≤ missing univ memo := by
  apply List.Sublist.length_le
  apply List.monotone_filter_right
  intro name hname
  rw [decide_eq_true_eq] at hname ⊢
  cases hget : memo.get name with
  | none => rfl
  | some d =>
      rw [h.get_of_get hget] at hname
      cases hname

theorem missing_insert_lt {univ : List String} (hname : name ∈ univ)
    (hnew : memo.get name = none) : missing univ (memo.insert name 0) < missing univ memo := by
  refine length_filter_lt (fun other hother => ?_) hname (decide_eq_true hnew) ?_
  · rw [decide_eq_true_eq, IndexMap.get_insert] at hother
    rw [decide_eq_true_eq]
    split at hother
    · cases hother
    · exact hother
  · rw [decide_eq_true_eq, IndexMap.get_insert_self]
    exact fun h => by cases h

/-- **`ref_depth` ends**: a visit goes no deeper than there are names. -/
theorem exists_refDepth {univ : List String}
    (huniv : ∀ name, ∀ t ∈ graph.targets name, t ∈ univ) (hname : name ∈ univ)
    (hfuel : missing univ memo < fuel) : ∃ r, refDepth graph fuel name memo = some r := by
  induction fuel generalizing name memo with
  | zero => cases hfuel
  | succ fuel ih =>
      cases hget : memo.get name with
      | some cached => exact ⟨_, refDepth_cached hget⟩
      | none =>
          have hfold : ∀ (ts : List String) (acc : ℕ) (memo : IndexMap String ℕ),
              (∀ t ∈ ts, t ∈ univ) → missing univ memo < fuel →
              ∃ st, ts.foldlM (maxStep (refDepth graph fuel)) (acc, memo) = some st := by
            intro ts
            induction ts with
            | nil => exact fun acc memo _ _ => ⟨_, rfl⟩
            | cons t ts ihts =>
                intro acc memo hts hless
                obtain ⟨ht, hts⟩ := List.forall_mem_cons.mp hts
                obtain ⟨⟨d, memo₁⟩, hd⟩ := ih ht hless
                have hless' := Nat.lt_of_le_of_lt
                  (missing_le_of_visits (visits_of_refDepth hd)) hless
                obtain ⟨st, hst⟩ := ihts (max acc d) memo₁ hts hless'
                refine ⟨st, ?_⟩
                rw [List.foldlM_cons, maxStep, hd]
                exact hst
          have hless : missing univ (memo.insert name 0) < fuel :=
            Nat.lt_of_lt_of_le (missing_insert_lt hname hget) (Nat.le_of_lt_succ hfuel)
          obtain ⟨st, hst⟩ := hfold _ 0 _ (huniv name) hless
          exact ⟨_, (refDepth_fresh hget).trans (by rw [hst]; rfl)⟩

theorem exists_refDepths {univ : List String}
    (huniv : ∀ name, ∀ t ∈ graph.targets name, t ∈ univ) (hnames : ∀ name ∈ names, name ∈ univ)
    (hfuel : missing univ memo < fuel) : ∃ depths, refDepths graph fuel names memo = some depths := by
  induction names generalizing memo with
  | nil => exact ⟨[], rfl⟩
  | cons name names ih =>
      obtain ⟨hname, hnames⟩ := List.forall_mem_cons.mp hnames
      obtain ⟨⟨depth, memo₁⟩, hdepth⟩ := exists_refDepth huniv hname hfuel
      have hless := Nat.lt_of_le_of_lt (missing_le_of_visits (visits_of_refDepth hdepth)) hfuel
      obtain ⟨rest, hrest⟩ := ih hnames hless
      refine ⟨(name, depth) :: rest, ?_⟩
      rw [refDepths, hdepth]
      simp [hrest]

end Walk

/-! ## §3  The order of the targets -/

/-- The model `a` refers to `b` anywhere. -/
def SchemaRegistry.References (schemas : SchemaRegistry) (a b : String) : Prop :=
  ∃ model, schemas.get a = some model ∧ ∃ ty ∈ model.types, b ∈ ty.refs

def Document.modelRefs (d : Document) (name : String) : List String :=
  ((d.schemas.get name).map collectRefsFromModel).getD []

theorem mem_modelRefs {d : Document} {a b : String} :
    b ∈ d.modelRefs a ↔ d.schemas.References a b := by
  rw [Document.modelRefs, SchemaRegistry.References]
  cases d.schemas.get a with
  | none => simp
  | some model => simp [mem_collectRefsFromModel]

theorem targets_buildRefGraph (orders : AnalysisOrders) (d : Document) :
    (buildRefGraph orders d).targets = fun a => (orders.targets a).visit (d.modelRefs a) := by
  ext1 a
  let entries := BTreeMap.mapEntries
    (fun a model => (orders.targets a).visit (collectRefsFromModel model)) d.schemas.models.entries
  have hkeys : (entries.map Prod.fst).Nodup := by
    have hfst : entries.map Prod.fst = d.schemas.models.entries.map Prod.fst := List.map_map
    rw [hfst]
    exact d.schemas.models.nodup
  have hget : (buildRefGraph orders d).get a = (d.schemas.get a).map fun model =>
      (orders.targets a).visit (collectRefsFromModel model) :=
    (IndexMap.get_ofList_of_nodup hkeys a).trans (BTreeMap.lookup_mapEntries a _)
  rw [RefGraph.targets, hget, Document.modelRefs]
  cases d.schemas.get a with
  | none => exact (((orders.targets a).visit_perm []).eq_nil).symm
  | some model => rfl

theorem edge_buildRefGraph (orders : AnalysisOrders) (d : Document) :
    Edge (buildRefGraph orders d).targets = d.schemas.References := by
  ext a b
  rw [Edge, targets_buildRefGraph, HashOrder.mem_visit, mem_modelRefs]

/-- `ref_depth` ends on the graph of every document. -/
theorem exists_depths (orders : AnalysisOrders) (d : Document) :
    ∃ fuel depths, refDepths (buildRefGraph orders d) fuel d.schemas.names IndexMap.empty =
      some depths := by
  let univ := d.schemas.names ++ d.schemas.names.flatMap d.modelRefs
  have huniv : ∀ name, ∀ t ∈ (buildRefGraph orders d).targets name, t ∈ univ := by
    intro name t ht
    rw [targets_buildRefGraph, HashOrder.mem_visit] at ht
    have hname : name ∈ d.schemas.names := by
      obtain ⟨model, hget, -⟩ := mem_modelRefs.mp ht
      exact IndexMap.mem_keys_of_get hget
    exact List.mem_append_right _ (List.mem_flatMap.mpr ⟨name, hname, ht⟩)
  obtain ⟨depths, h⟩ := exists_refDepths huniv (fun name hname => List.mem_append_left _ hname)
    (Nat.lt_succ_self (missing univ IndexMap.empty))
  exact ⟨_, depths, h⟩

/-- Whatever the orders, `ref_depth` ends, and the depths of the schemas and the deep references
that are reported are the same. -/
structure DepthsStable (d : Document) : Prop where
  ends : ∀ orders, ∃ fuel depths,
    refDepths (buildRefGraph orders d) fuel d.schemas.names IndexMap.empty = some depths
  depths : ∀ {orders orders' fuel fuel' depths depths'},
    refDepths (buildRefGraph orders d) fuel d.schemas.names IndexMap.empty = some depths →
    refDepths (buildRefGraph orders' d) fuel' d.schemas.names IndexMap.empty = some depths' →
    depths = depths'
  reports : ∀ {toVec orders orders' sweeps sweeps' fuel fuel' report report'},
    analyzeSpec toVec orders sweeps fuel d = some report →
    analyzeSpec toVec orders' sweeps' fuel' d = some report' → report.deepRefs = report'.deepRefs

theorem deepRefs_of_analyzeSpec {toVec : Document → Option (List UInt8)}
    {orders : AnalysisOrders} {sweeps fuel : ℕ} {d : Document} {report : AnalysisReport}
    (h : analyzeSpec toVec orders sweeps fuel d = some report) : ∃ depths,
      refDepths (buildRefGraph orders d) fuel d.schemas.names IndexMap.empty = some depths ∧
      report.deepRefs = sortDescending (depths.filter fun e => decide (2 < e.2)) := by
  rw [analyzeSpec, Option.bind_eq_bind, Option.bind_eq_some_iff] at h
  obtain ⟨referenced, -, h⟩ := h
  simp only [Option.bind_eq_bind, Option.bind_eq_some_iff] at h
  obtain ⟨depths, hdepths, hreport⟩ := h
  obtain rfl := Option.some.inj hreport
  exact ⟨depths, hdepths, rfl⟩

/-- **The depths do not depend on the order of the targets if and only if, for every reference from
`b` to `t`, all ways to `b` from the first schema that leads to it pass `t` or none does.** -/
theorem depthsStable_iff (d : Document) :
    DepthsStable d ↔ Rigid d.schemas.References d.schemas.names := by
  constructor
  · intro hstable
    by_contra hrigid
    have hedge : Edge d.modelRefs = d.schemas.References := by
      ext a b
      exact mem_modelRefs
    rw [← hedge] at hrigid
    obtain ⟨o, o', hdiffer⟩ := exists_disagreement hrigid
    let orders : (String → HashOrder String) → AnalysisOrders :=
      fun targets => { AnalysisOrders.insertion with targets := targets }
    obtain ⟨fuel, depths, hrun⟩ := exists_depths (orders o) d
    obtain ⟨fuel', depths', hrun'⟩ := exists_depths (orders o') d
    have hsame := hstable.depths hrun hrun'
    obtain ⟨n, m, hwalk, rfl⟩ := visits_of_refDepths hrun
    obtain ⟨n', m', hwalk', rfl⟩ := visits_of_refDepths hrun'
    rw [targets_buildRefGraph] at hwalk hwalk'
    obtain ⟨b, hb, hne⟩ := hdiffer hwalk hwalk'
    have hmem : b ∈ d.schemas.names := by
      obtain ⟨t, ht⟩ := List.exists_mem_of_ne_nil _ hb
      obtain ⟨model, hget, -⟩ := mem_modelRefs.mp ht
      exact IndexMap.mem_keys_of_get hget
    obtain ⟨e, he⟩ := hwalk.noted hmem
    obtain ⟨e', he'⟩ := hwalk'.noted hmem
    have hvalue := List.map_inj_left.mp hsame b hmem
    rw [he, he'] at hvalue hne
    exact hne (congrArg some (Prod.mk.inj hvalue).2)
  · intro hrigid
    have hdepths : ∀ {orders orders' fuel fuel' depths depths'},
        refDepths (buildRefGraph orders d) fuel d.schemas.names IndexMap.empty = some depths →
        refDepths (buildRefGraph orders' d) fuel' d.schemas.names IndexMap.empty = some depths' →
        depths = depths' := by
      intro orders orders' fuel fuel' depths depths' hrun hrun'
      obtain ⟨n, m, hwalk, rfl⟩ := visits_of_refDepths hrun
      obtain ⟨n', m', hwalk', rfl⟩ := visits_of_refDepths hrun'
      apply List.map_congr_left
      intro name _
      rw [hwalk.get_eq_of_rigid (fun a t => ?_) (edge_buildRefGraph orders d ▸ hrigid) hwalk' name]
      rw [targets_buildRefGraph, targets_buildRefGraph, HashOrder.mem_visit, HashOrder.mem_visit]
    refine ⟨fun orders => exists_depths orders d, hdepths, ?_⟩
    intro toVec orders orders' sweeps sweeps' fuel fuel' report report' h h'
    obtain ⟨depths, hrun, hdeep⟩ := deepRefs_of_analyzeSpec h
    obtain ⟨depths', hrun', hdeep'⟩ := deepRefs_of_analyzeSpec h'
    rw [hdeep, hdeep', hdepths hrun hrun']

/-- A company has a person and a team; a person has a team, a team a project, a project a person. -/
def companyDoc : Document :=
  let refers (name : String) (targets : List String) : String × Model :=
    (name, .object ⟨name, none,
      targets.map fun t => ⟨t, .reference t false none, true, none⟩, none, none, none⟩)
  Document.minimal ⟨IndexMap.ofList [refers "Company" ["Person", "Team"],
    refers "Person" ["Team"], refers "Team" ["Project"], refers "Project" ["Person"]]⟩ []

/-- A person is 3 deep if it is the first target of a company, and 1 deep if the team is. -/
theorem person_depth_by_order : ¬ DepthsStable companyDoc := by
  intro hstable
  let orders : AnalysisOrders := { AnalysisOrders.insertion with
    targets := fun a => if a = "Company" then HashOrder.preferring "Team" else HashOrder.insertion }
  have hperson : refDepths (buildRefGraph AnalysisOrders.insertion companyDoc) 5
      companyDoc.schemas.names IndexMap.empty =
      some [("Company", 4), ("Person", 3), ("Team", 2), ("Project", 1)] := by
    decide +kernel
  have hteam : refDepths (buildRefGraph orders companyDoc) 5
      companyDoc.schemas.names IndexMap.empty =
      some [("Company", 4), ("Person", 1), ("Team", 3), ("Project", 2)] := by
    decide +kernel
  have hsame := hstable.depths hperson hteam
  revert hsame
  decide

end SpecForge
