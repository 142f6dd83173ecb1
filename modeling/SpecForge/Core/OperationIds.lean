import SpecForge.Core.ResolvedObjects

/-!
# Operation ids

An operation without an `operationId` gets one made from its method and path.
- §1 what the made id depends on: the method and the `words` of the path.
- §2 which operations of a document then share an id.
-/

namespace SpecForge

open Lib (IndexMap)
open Lib.Text
open OpenApi (ReferenceOr PathItem OpenAPI)

/-! ## §1  Made ids -/

/-- The segments of a path, without the slashes around it and without the
braces around each of them. -/
def segments (path : String) : List String :=
  (split '/' (trimMatches '/' path)).map fun seg =>
    trimEndMatches '\x7d' (trimStartMatches '\x7b' seg)

/-- The segments cut at their underscores. -/
def words (path : String) : List String := (segments path).flatMap (split '_')

theorem synthesizeOperationId_eq (method : HttpMethod) (path : String) :
    synthesizeOperationId method path = method.asStr ++ join "_" (segments path) := rfl

/-- The joined segments have the words of the path and no more. -/
theorem join_segments_eq_iff {path path' : String} :
    join "_" (segments path) = join "_" (segments path') ↔ words path = words path' := by
  have hsep : "_".toList = ['_'] := rfl
  have hne : ∀ p, segments p ≠ [] := by
    intro p
    rw [segments, ne_eq, List.map_eq_nil_iff]
    exact split_ne_nil '/' _
  have hsplit : ∀ p, split '_' (join "_" (segments p)) = words p :=
    fun p => split_join hsep (hne p)
  constructor
  · intro h
    rw [← hsplit, ← hsplit, h]
  · intro h
    have hback := congrArg (join "_") h
    rw [← hsplit, ← hsplit, join_split hsep, join_split hsep] at hback
    exact hback

theorem HttpMethod.asStr_apart {m m' : HttpMethod} (h : m ≠ m') :
    Apart m.asStr m'.asStr := by
  cases m <;> cases m' <;> first | exact absurd rfl h | decide

/-- Two methods and paths get the same id exactly if the methods agree and the
paths have the same words. -/
theorem synthesizeOperationId_eq_iff {m m' : HttpMethod} {path path' : String} :
    synthesizeOperationId m path = synthesizeOperationId m' path' ↔
      m = m' ∧ words path = words path' := by
  rw [synthesizeOperationId_eq, synthesizeOperationId_eq]
  constructor
  · intro h
    by_cases hm : m = m'
    · subst hm
      exact ⟨rfl, join_segments_eq_iff.mp (append_inj_left h)⟩
    · exact absurd h ((HttpMethod.asStr_apart hm).append_ne _ _)
  · rintro ⟨rfl, hwords⟩
    rw [join_segments_eq_iff.mpr hwords]

/-! ## §2  Documents -/

/-- The operations of a parsed document with their methods and paths, in the
order in which they are resolved. -/
def specOperations (spec : OpenAPI) : List (HttpMethod × String × OpenApi.Operation) :=
  spec.paths.entries.flatMap fun (path, itemOr) =>
    match itemOr with
    | .item item => (iterMethods item).map fun (method, op) => (method, path, op)
    | .reference _ => []

/-- The `operationId`s that are given. -/
def explicitIds (spec : OpenAPI) : List String :=
  (specOperations spec).filterMap (·.2.2.operationId)

/-- The methods and paths of the operations without an `operationId`. -/
def unnamedOperations (spec : OpenAPI) : List (HttpMethod × String) :=
  ((specOperations spec).filter (·.2.2.operationId.isNone)).map fun x => (x.1, x.2.1)

theorem resolveOperations_ids (spec : OpenAPI) :
    (resolveOperations spec.paths spec.components).map (·.operationId) =
      (specOperations spec).map fun x =>
        x.2.2.operationId.getD (synthesizeOperationId x.1 x.2.1) := by
  rw [resolveOperations, specOperations, List.map_flatMap, List.map_flatMap]
  refine List.flatMap_congr fun e _ => ?_
  obtain ⟨path, itemOr⟩ := e
  cases itemOr with
  | reference reference => rfl
  | item item =>
      rw [List.map_map, List.map_map]
      rfl

theorem resolve_operations {spec : OpenAPI} {d : Document} (h : resolve spec = .ok d) :
    d.operations = resolveOperations spec.paths spec.components :=
  (resolveWithWebhooks_ok h).2.2

/-- Given ids that are distinct and not made leave only the made ones to compare. -/
theorem uniqueIds_iff {spec : OpenAPI} {d : Document} (h : resolve spec = .ok d)
    (hexplicit : (explicitIds spec).Nodup)
    (hdisjoint : ∀ id ∈ explicitIds spec, ∀ op ∈ unnamedOperations spec,
      id ≠ synthesizeOperationId op.1 op.2) :
    d.UniqueIds ↔ ((unnamedOperations spec).map fun op => (op.1, words op.2)).Nodup := by
  have hgiven : ∀ x ∈ specOperations spec, ∀ id, x.2.2.operationId = some id →
      id ∈ explicitIds spec :=
    fun x hx id hid => List.mem_filterMap.mpr ⟨x, hx, hid⟩
  have hmade : ∀ x ∈ specOperations spec, x.2.2.operationId = none →
      (x.1, x.2.1) ∈ unnamedOperations spec := by
    intro x hx hid
    refine List.mem_map.mpr ⟨x, List.mem_filter.mpr ⟨hx, ?_⟩, rfl⟩
    exact Option.isNone_iff_eq_none.mpr hid
  unfold Document.UniqueIds
  rw [resolve_operations h, resolveOperations_ids, List.nodup_iff_pairwise_ne, List.pairwise_map]
  rw [explicitIds, List.nodup_iff_pairwise_ne, List.pairwise_filterMap] at hexplicit
  rw [unnamedOperations, List.map_map, List.nodup_iff_pairwise_ne, List.pairwise_map,
    List.pairwise_filter]
  -- the given ids are apart already, so only pairs without one are left
  refine Iff.trans ?_ (and_iff_right hexplicit)
  rw [← List.pairwise_and_iff]
  refine List.Pairwise.iff_of_mem fun {x y} hx hy => ?_
  obtain ⟨m, path, op⟩ := x
  obtain ⟨m', path', op'⟩ := y
  cases hid : op.operationId with
  | some id =>
      cases hid' : op'.operationId with
      | some id' => simp
      | none =>
          have hne := hdisjoint id (hgiven _ hx id hid) _ (hmade _ hy hid')
          simpa using hne
  | none =>
      cases hid' : op'.operationId with
      | some id' =>
          have hne := hdisjoint id' (hgiven _ hy id' hid') _ (hmade _ hx hid)
          simpa using hne.symm
      | none => simp [synthesizeOperationId_eq_iff]

/-- **Operation ids are unique exactly if no two operations without an
`operationId` have one method and paths of the same words**, provided the given ids
are distinct and none of them is a made one; and two methods and paths get one id
exactly if the methods agree and the paths have the same words. -/
theorem operation_ids_unique_iff {spec : OpenAPI} {d : Document} (h : resolve spec = .ok d)
    (hexplicit : (explicitIds spec).Nodup)
    (hdisjoint : ∀ id ∈ explicitIds spec, ∀ op ∈ unnamedOperations spec,
      id ≠ synthesizeOperationId op.1 op.2) :
    (d.UniqueIds ↔
      ((unnamedOperations spec).map fun op => (op.1, words op.2)).Nodup) ∧
    ∀ m path m' path', synthesizeOperationId m path = synthesizeOperationId m' path' ↔
      m = m' ∧ words path = words path' :=
  ⟨uniqueIds_iff h hexplicit hdisjoint, fun _ _ _ _ => synthesizeOperationId_eq_iff⟩

/-- A path with one operation, a `GET`. -/
def getItem (operationId : Option String) : PathItem where
  get := some ⟨[], none, none, operationId, [], none, ⟨none, IndexMap.empty⟩⟩
  put := none
  post := none
  delete := none
  options := none
  head := none
  patch := none
  parameters := []

/-- A document with one `GET` on each path, and its id where it has one. -/
def getsSpec (paths : List (String × Option String)) : OpenAPI where
  info := ⟨"Users", "1.0.0"⟩
  servers := []
  paths := IndexMap.ofList (paths.map fun path => (path.1, .item (getItem path.2)))
  components := none
  security := none

def getSpec (paths : List String) : OpenAPI := getsSpec (paths.map fun path => (path, none))

/-- Two of the operations have no id of their own, and neither is given that of the third. -/
theorem operation_ids_unique_users :
    ∃ d, resolve (getsSpec [("/users/{id}", none), ("/users/all", some "listUsers"),
      ("/users", none)]) = .ok d ∧ d.UniqueIds := by
  obtain ⟨d, hd⟩ : ∃ d, resolve (getsSpec [("/users/{id}", none),
    ("/users/all", some "listUsers"), ("/users", none)]) = .ok d := ⟨_, rfl⟩
  have htemplated : words "/users/{id}" = ["users", "id"] := by decide
  have hplain : words "/users" = ["users"] := by decide
  refine ⟨d, hd, (operation_ids_unique_iff hd ?_ ?_).1.mpr ?_⟩
  · exact List.nodup_singleton _
  · show ∀ id ∈ ["listUsers"], ∀ op ∈ [(HttpMethod.get, "/users/{id}"), (HttpMethod.get, "/users")],
      id ≠ synthesizeOperationId op.1 op.2
    decide
  · show [(HttpMethod.get, words "/users/{id}"), (HttpMethod.get, words "/users")].Nodup
    rw [htemplated, hplain]
    decide

/-- A path and the same path with the braces left out get one id. -/
theorem templated_path_shares_id :
    ∃ d, resolve (getSpec ["/users/{me}", "/users/me"]) = .ok d ∧
      explicitIds (getSpec ["/users/{me}", "/users/me"]) = [] ∧ ¬d.UniqueIds := by
  obtain ⟨d, hd⟩ : ∃ d, resolve (getSpec ["/users/{me}", "/users/me"]) = .ok d := ⟨_, rfl⟩
  refine ⟨d, hd, rfl, ?_⟩
  rw [uniqueIds_iff hd List.nodup_nil fun _ h => absurd h List.not_mem_nil]
  have htemplated : words "/users/{me}" = ["users", "me"] := by decide
  have hplain : words "/users/me" = ["users", "me"] := by decide
  show ¬[(HttpMethod.get, words "/users/{me}"), (HttpMethod.get, words "/users/me")].Nodup
  rw [htemplated, hplain]
  decide

end SpecForge
