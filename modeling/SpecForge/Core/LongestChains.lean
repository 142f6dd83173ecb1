import SpecForge.Core.RefDepth
import SpecForge.Lib.LongestChains

/-!
# Depths without cycles

The memo table of `ref_depth` holds a provisional 0 for each schema in progress. Without cycles no
schema in progress is met again, so whatever has been asked before, the depth of a schema is the
length of the longest chain of references from it.
-/

namespace SpecForge

open Lib Lib.Depth

section Graph

variable {graph : RefGraph} {fuel : ℕ} {name : String} {memo memo' : IndexMap String ℕ} {depth : ℕ}

/-- Whatever the table holds was computed before, with a table of which the same is true. -/
inductive Computed (graph : RefGraph) : IndexMap String ℕ → Prop where
  | intro {memo : IndexMap String ℕ} (earlier : String → IndexMap String ℕ)
      (computed : ∀ name depth, memo.get name = some depth → Computed graph (earlier name))
      (result : ∀ name depth, memo.get name = some depth →
        ∃ fuel after, refDepth graph fuel name (earlier name) = some (depth, after)) :
      Computed graph memo

theorem computed_empty : Computed graph IndexMap.empty := by
  refine .intro (fun _ => IndexMap.empty) (fun name depth h => ?_) fun name depth h => ?_
  · rw [IndexMap.get_empty] at h
    cases h
  · rw [IndexMap.get_empty] at h
    cases h

section Levels

variable {f : String → ℕ} (hf : Levelled graph.targets f) (hac : Acyclic (Edge graph.targets))
include hf hac

/-- A visit notes levels only, if the table held nothing else. -/
theorem levels_of_refDepth (hmemo : ∀ name depth, memo.get name = some depth → depth = f name)
    (h : refDepth graph fuel name memo = some (depth, memo')) :
    depth = f name ∧ ∀ name depth, memo'.get name = some depth → depth = f name := by
  have hknows : KnowsBelow graph.targets f memo [name] := fun _ _ b _ d hd => hmemo b d hd
  obtain ⟨rfl, hnoted⟩ := (visits_of_refDepth h).levels hf hac hknows
  refine ⟨Nat.max_zero _, fun other d hd => ?_⟩
  rcases hnoted other d hd with hold | hlevel
  · exact hmemo other d hold
  · exact hlevel

/-- What was computed before is right. -/
theorem Computed.levels (h : Computed graph memo) :
    ∀ name depth, memo.get name = some depth → depth = f name := by
  induction h with
  | intro earlier _ result ih =>
      intro name depth hget
      obtain ⟨fuel, after, hrun⟩ := result name depth hget
      exact (levels_of_refDepth hf hac (ih name depth hget) hrun).1

/-- A table of levels only could have been computed. -/
theorem computed_of_levels
    (hends : ∀ name, ∃ fuel r, refDepth graph fuel name IndexMap.empty = some r)
    (hmemo : ∀ name depth, memo.get name = some depth → depth = f name) : Computed graph memo := by
  refine .intro (fun _ => IndexMap.empty) (fun _ _ _ => computed_empty) fun name depth hget => ?_
  obtain ⟨fuel, ⟨depth', after⟩, hrun⟩ := hends name
  have hright := (levels_of_refDepth hf hac (computed_empty.levels hf hac) hrun).1
  rw [hmemo name depth hget, ← hright]
  exact ⟨fuel, after, hrun⟩

end Levels

end Graph

/-- A visit ends, whatever the table. -/
theorem returns_refDepth (orders : AnalysisOrders) (d : Document) (name : String)
    (memo : IndexMap String ℕ) :
    ∃ fuel r, refDepth (buildRefGraph orders d) fuel name memo = some r := by
  let univ := name :: d.schemas.names.flatMap d.modelRefs
  have huniv : ∀ a, ∀ t ∈ (buildRefGraph orders d).targets a, t ∈ univ := by
    intro a t ht
    rw [targets_buildRefGraph, HashOrder.mem_visit] at ht
    obtain ⟨model, hget, -⟩ := mem_modelRefs.mp ht
    have ha : a ∈ d.schemas.names := IndexMap.mem_keys_of_get hget
    exact List.mem_cons_of_mem name (List.mem_flatMap.mpr ⟨a, ha, ht⟩)
  obtain ⟨r, hr⟩ := exists_refDepth huniv List.mem_cons_self
    (Nat.lt_succ_self (missing univ memo))
  exact ⟨_, r, hr⟩

/-- **Without cycles, `ref_depth` ends with the length of the longest chain of references**, and
leaves a table with which the next schema may be asked for. A schema that is not defined refers to
nothing. -/
theorem refDepth_longestChain (orders : AnalysisOrders) (d : Document)
    (hac : Acyclic d.schemas.References) {memo : IndexMap String ℕ}
    (hmemo : Computed (buildRefGraph orders d) memo) (name : String) :
    (∃ fuel r, refDepth (buildRefGraph orders d) fuel name memo = some r) ∧
      ∀ fuel depth memo', refDepth (buildRefGraph orders d) fuel name memo = some (depth, memo') →
        IsGreatest (chainLengths d.schemas.References name) depth ∧
          Computed (buildRefGraph orders d) memo' := by
  have hedge := edge_buildRefGraph orders d
  rw [← hedge] at hac ⊢
  have hsources : ∀ a t, t ∈ (buildRefGraph orders d).targets a → a ∈ d.schemas.names := by
    intro a t ht
    rw [targets_buildRefGraph, HashOrder.mem_visit] at ht
    obtain ⟨model, hget, -⟩ := mem_modelRefs.mp ht
    exact IndexMap.mem_keys_of_get hget
  obtain ⟨f, hf⟩ := exists_levelled hac d.schemas.names hsources
  refine ⟨returns_refDepth orders d name memo, fun fuel depth memo' hrun => ?_⟩
  obtain ⟨rfl, hlevels⟩ := levels_of_refDepth hf hac (hmemo.levels hf hac) hrun
  exact ⟨hf.isGreatest name,
    computed_of_levels hf hac (fun name => returns_refDepth orders d name IndexMap.empty) hlevels⟩

/-- A company has a person and a team, and a person has a team; nobody has defined what that is. -/
def teamDoc : Document :=
  let refers (name : String) (targets : List String) : String × Model :=
    (name, .object ⟨name, none,
      targets.map fun t => ⟨t, .reference t false none, true, none⟩, none, none, none⟩)
  Document.minimal ⟨IndexMap.ofList [refers "Company" ["Person", "Team"],
    refers "Person" ["Team"]]⟩ []

/-- The undefined team counts as a step, also behind the person whose depth was asked for first. -/
theorem refDepth_longestChain_company :
    IsGreatest (chainLengths teamDoc.schemas.References "Company") 2 := by
  have hac : Acyclic teamDoc.schemas.References := by
    apply acyclic_of_lt fun name => if name = "Company" then 2 else if name = "Person" then 1 else 0
    intro a b hab
    rw [← mem_modelRefs] at hab
    by_cases hcompany : a = "Company"
    · subst hcompany
      have hb : b ∈ ["Person", "Team"] := hab
      revert b
      decide
    · by_cases hperson : a = "Person"
      · subst hperson
        have hb : b ∈ ["Team"] := hab
        revert b
        decide
      · have hkeys : teamDoc.schemas.models.keys = ["Company", "Person"] := by decide
        have hnone : teamDoc.schemas.models.get a = none := by
          apply IndexMap.get_eq_none_iff.mpr
          rw [hkeys]
          simp [hcompany, hperson]
        rw [Document.modelRefs, SchemaRegistry.get, hnone] at hab
        cases hab
  obtain ⟨-, hasked⟩ := refDepth_longestChain AnalysisOrders.insertion teamDoc hac computed_empty
    "Person"
  obtain ⟨-, hcomputed⟩ := hasked 3 1 (IndexMap.ofList [("Person", 1), ("Team", 0)]) (by rfl)
  exact ((refDepth_longestChain AnalysisOrders.insertion teamDoc hac hcomputed "Company").2 3 2 _
    (by rfl)).1

end SpecForge
