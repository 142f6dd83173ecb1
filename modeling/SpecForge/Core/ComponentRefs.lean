import SpecForge.Core.ResolvedObjects

/-!
# Inline content moved into the components

The replacement of one inline parameter or request body by a `$ref` to a new entry of the
components (§1), and two runs of `resolve`, before it and after it.
- §2 what resolution reads of the components. §3 a document as its operations.
- §4 parameters. A `$ref` is followed by the last segment of its path, so a new entry is also
  found by every reference that ends in its name.
- §5 request bodies. A `$ref` is not followed, so what resolution read of the body is lost.
-/

namespace SpecForge

open Lib (IndexMap keepNew Redundant)
open Lib.Text
open OpenApi (ReferenceOr PathItem OpenAPI Components)

/-! ## §1  Replacements -/

namespace OpenApi

def PathItem.operation (item : PathItem) : HttpMethod → Option Operation
  | .get => item.get
  | .post => item.post
  | .put => item.put
  | .patch => item.patch
  | .delete => item.delete
  | .head => item.head
  | .options => item.options

def PathItem.setOperation (item : PathItem) (op : Operation) : HttpMethod → PathItem
  | .get => { item with get := some op }
  | .post => { item with post := some op }
  | .put => { item with put := some op }
  | .patch => { item with patch := some op }
  | .delete => { item with delete := some op }
  | .head => { item with head := some op }
  | .options => { item with options := some op }

/-- With the parameters of the path or with those of one operation. -/
inductive ParameterPlace where
  | ofPath (index : Nat)
  | ofOperation (method : HttpMethod) (index : Nat)
deriving DecidableEq

def PathItem.parameter (item : PathItem) : ParameterPlace → Option (ReferenceOr Parameter)
  | .ofPath i => item.parameters[i]?
  | .ofOperation m i => (item.operation m).bind (·.parameters[i]?)

def PathItem.setParameter (item : PathItem) (p : ReferenceOr Parameter) :
    ParameterPlace → PathItem
  | .ofPath i => { item with parameters := item.parameters.set i p }
  | .ofOperation m i =>
      match item.operation m with
      | some op => item.setOperation { op with parameters := op.parameters.set i p } m
      | none => item

def OpenAPI.pathItem (spec : OpenAPI) (path : String) : Option PathItem :=
  match spec.paths.get path with
  | some (.item item) => some item
  | _ => none

/-- A document without components has an empty one of each kind. -/
def OpenAPI.componentsOrEmpty (spec : OpenAPI) : Components :=
  spec.components.getD (Components.ofSchemas [])

end OpenApi

def inlineParameter (spec : OpenAPI) (path : String) (place : OpenApi.ParameterPlace) :
    Option OpenApi.Parameter :=
  match (spec.pathItem path).bind (·.parameter place) with
  | some (.item p) => some p
  | _ => none

def inlineRequestBody (spec : OpenAPI) (path : String) (method : HttpMethod) :
    Option OpenApi.RequestBody :=
  match ((spec.pathItem path).bind (·.operation method)).bind (·.requestBody) with
  | some (.item b) => some b
  | _ => none

/-- The names OpenAPI allows for an entry of the components. -/
structure ComponentKey where
  name : String
  legal : name.toList.all fun c => c.isAlphanum || c == '.' || c == '-' || c == '_'

/-- One inline parameter or request body to be replaced, and the name of the new entry. -/
inductive Extraction where
  | parameter (path : String) (place : OpenApi.ParameterPlace) (key : ComponentKey)
  | requestBody (path : String) (method : HttpMethod) (key : ComponentKey)

/-- The document after the replacement; `none` where nothing stands inline or the name is
taken. -/
def Extraction.apply (spec : OpenAPI) : Extraction → Option OpenAPI
  | .parameter path place key => do
      let item ← spec.pathItem path
      let p ← inlineParameter spec path place
      let components := spec.componentsOrEmpty
      if components.parameters.containsKey key.name then none
      else some { spec with
        paths := spec.paths.insert path (.item
          (item.setParameter (.reference ("#/components/parameters/" ++ key.name)) place))
        components := some { components with
          parameters := components.parameters.insert key.name (.item p) } }
  | .requestBody path method key => do
      let item ← spec.pathItem path
      let op ← item.operation method
      let body ← inlineRequestBody spec path method
      let components := spec.componentsOrEmpty
      if components.requestBodies.containsKey key.name then none
      else some { spec with
        paths := spec.paths.insert path (.item (item.setOperation { op with
          requestBody := some (.reference ("#/components/requestBodies/" ++ key.name)) } method))
        components := some { components with
          requestBodies := components.requestBodies.insert key.name (.item body) } }

theorem refName_parameter (key : ComponentKey) :
    refName ("#/components/parameters/" ++ key.name) = key.name := by
  have hslash : '/' ∉ key.name.toList := by
    intro h
    simpa using List.all_eq_true.mp key.legal '/' h
  have hsplit : "#/components/parameters/" = "#/components/parameters" ++ String.ofList ['/'] :=
    by decide
  rw [refName, hsplit, head?_rsplit_append hslash, Option.getD_some]

/-! ## §2  The components that are read -/

theorem resolveSchemas_getD (components : Option Components) : resolveSchemas components =
    (components.getD (Components.ofSchemas [])).schemas.entries.foldlM
      (resolveSchema (components.getD (Components.ofSchemas []))) SchemaRegistry.default := by
  cases components with
  | none => rfl
  | some c => rfl

theorem propertiesFromAllofMember_congr {c c' : Components} (h : c'.schemas = c.schemas)
    (member : ReferenceOr OpenApi.Schema) (registry : SchemaRegistry) :
    propertiesFromAllofMember member c' registry =
      propertiesFromAllofMember member c registry := by
  cases member with
  | reference reference => rw [propertiesFromAllofMember, h, propertiesFromAllofMember]
  | item schema => rfl

/-- Of the components, only the schemas are read for a schema. -/
theorem resolveSchema_congr {c c' : Components} (h : c'.schemas = c.schemas) :
    resolveSchema c' = resolveSchema c := by
  funext registry entry
  simp only [resolveSchema, buildModel, mergeAllofProperties, propertiesFromAllofMember_congr h]

theorem resolveSchemas_congr {spec : OpenAPI} {c' : Components}
    (h : c'.schemas = spec.componentsOrEmpty.schemas) :
    resolveSchemas (some c') = resolveSchemas spec.components := by
  rw [resolveSchemas_getD spec.components]
  show c'.schemas.entries.foldlM (resolveSchema c') SchemaRegistry.default = _
  rw [resolveSchema_congr h, h]
  rfl

theorem resolveSecurity_congr {spec spec' : OpenAPI} {c' : Components}
    (hsecurity : spec'.security = spec.security) (hcomponents : spec'.components = some c')
    (h : c'.securitySchemes = spec.componentsOrEmpty.securitySchemes) :
    resolveSecurity spec' = resolveSecurity spec := by
  unfold resolveSecurity
  rw [hsecurity, hcomponents]
  cases hreqs : spec.security with
  | none => rfl
  | some reqs =>
      cases hc : spec.components with
      | some c =>
          rw [OpenAPI.componentsOrEmpty, hc, Option.getD_some] at h
          simp only [h]
      | none =>
          rw [OpenAPI.componentsOrEmpty, hc, Option.getD_none] at h
          have hnone : ∀ name, c'.securitySchemes.get name = none := fun name => by
            rw [h]
            rfl
          simp [hnone]

theorem resolveParameter_getD (p : ReferenceOr OpenApi.Parameter)
    (components : Option Components) : resolveParameter p components =
      resolveParameter p (some (components.getD (Components.ofSchemas []))) := by
  cases components with
  | none => rfl
  | some c => rfl

/-- With other paths and other components of the kinds that only operations read, a
resolved document stays the same exactly if its operations do. -/
theorem resolve_rewired_iff {spec : OpenAPI} {d : Document} (h : resolve spec = .ok d)
    {paths' : IndexMap String (ReferenceOr PathItem)} {c' : Components}
    (hschemas : c'.schemas = spec.componentsOrEmpty.schemas)
    (hschemes : c'.securitySchemes = spec.componentsOrEmpty.securitySchemes) :
    resolve { spec with paths := paths', components := some c' } = .ok d ↔
      resolveOperations paths' (some c') = resolveOperations spec.paths spec.components := by
  have hsecurity : resolveSecurity { spec with paths := paths', components := some c' } =
      resolveSecurity spec := resolveSecurity_congr rfl rfl hschemes
  have hcongr : resolveSchemas (some c') = resolveSchemas spec.components :=
    resolveSchemas_congr hschemas
  unfold resolve resolveWithWebhooks at h ⊢
  rw [show OpenAPI.components { spec with paths := paths', components := some c' } = some c'
    from rfl, hcongr, hsecurity]
  cases hs : resolveSchemas spec.components with
  | error e =>
      rw [hs] at h
      cases h
  | ok reg =>
      rw [hs] at h
      cases h
      constructor
      · intro h
        exact congrArg Document.operations (Except.ok.inj h)
      · intro h
        show Except.ok _ = Except.ok _
        rw [h]

/-! ## §3  Operations of a document -/

/-- An operation with its method and its path, and the parameters of the path. -/
structure OperationSite where
  method : HttpMethod
  path : String
  op : OpenApi.Operation
  pathItemParams : List (ReferenceOr OpenApi.Parameter)

namespace OperationSite

/-- All parameters, in the order in which they are resolved. -/
def sources (s : OperationSite) : List (ReferenceOr OpenApi.Parameter) :=
  s.pathItemParams ++ s.op.parameters

def resolve (components : Option Components) (s : OperationSite) : Operation :=
  resolveOperation s.method s.path s.op s.pathItemParams components

end OperationSite

def itemSites : String × ReferenceOr PathItem → List OperationSite
  | (path, .item item) => (iterMethods item).map fun (method, op) =>
      ⟨method, path, op, item.parameters⟩
  | (_, .reference _) => []

def operationSites (paths : IndexMap String (ReferenceOr PathItem)) : List OperationSite :=
  paths.entries.flatMap itemSites

theorem resolveOperations_eq (paths : IndexMap String (ReferenceOr PathItem))
    (components : Option Components) : resolveOperations paths components =
      paths.entries.flatMap fun e => (itemSites e).map (OperationSite.resolve components) := by
  rw [resolveOperations]
  refine List.flatMap_congr fun e _ => ?_
  obtain ⟨path, itemOr⟩ := e
  cases itemOr with
  | reference reference => rfl
  | item item =>
      rw [itemSites, List.map_map]
      rfl

theorem resolveOperations_eq_map (paths : IndexMap String (ReferenceOr PathItem))
    (components : Option Components) : resolveOperations paths components =
      (operationSites paths).map (OperationSite.resolve components) := by
  rw [resolveOperations_eq, operationSites, List.map_flatMap]

/-- Another item on one path. -/
theorem resolveOperations_insert_iff {spec : OpenAPI} {path : String} {item item' : PathItem}
    (h : spec.pathItem path = some item) (components : Option Components) :
    resolveOperations (spec.paths.insert path (.item item')) components =
        resolveOperations spec.paths components ↔
      (itemSites (path, .item item')).map (OperationSite.resolve components) =
        (itemSites (path, .item item)).map (OperationSite.resolve components) := by
  have hlook : spec.paths.entries.lookup path = some (.item item) := by
    unfold OpenAPI.pathItem at h
    split at h
    · next hget =>
        cases h
        exact hget
    · cases h
  rw [resolveOperations_eq, resolveOperations_eq]
  exact Lib.flatMap_insertEntry_eq_iff hlook

namespace OpenApi

theorem PathItem.operation_setOperation (item : PathItem) (op : Operation)
    (m m' : HttpMethod) : (item.setOperation op m).operation m' =
      if m' = m then some op else item.operation m' := by
  cases m <;> cases m' <;> rfl

theorem PathItem.parameters_setOperation (item : PathItem) (op : Operation) (m : HttpMethod) :
    (item.setOperation op m).parameters = item.parameters := by
  cases m <;> rfl

end OpenApi

def methodOrder : List HttpMethod := [.get, .post, .put, .patch, .delete, .head, .options]

theorem mem_methodOrder (m : HttpMethod) : m ∈ methodOrder := by
  cases m <;> decide

theorem iterMethods_eq (item : PathItem) : iterMethods item =
    methodOrder.filterMap fun m => (item.operation m).map (Prod.mk m) := rfl

theorem mem_iterMethods {item : PathItem} {m : HttpMethod} {op : OpenApi.Operation} :
    (m, op) ∈ iterMethods item ↔ item.operation m = some op := by
  rw [iterMethods_eq, List.mem_filterMap]
  constructor
  · rintro ⟨m', -, h⟩
    obtain ⟨op', hop', heq⟩ := Option.map_eq_some_iff.mp h
    cases heq
    exact hop'
  · intro h
    exact ⟨m, mem_methodOrder m, Option.map_eq_some_iff.mpr ⟨op, h, rfl⟩⟩

/-- Replacing the operation of a method leaves it in its place. -/
theorem iterMethods_setOperation {item : PathItem} {m : HttpMethod} {op op' : OpenApi.Operation}
    (h : item.operation m = some op) : iterMethods (item.setOperation op' m) =
      (iterMethods item).map fun x => (x.1, if x.1 = m then op' else x.2) := by
  rw [iterMethods_eq, iterMethods_eq, List.map_filterMap]
  refine List.filterMap_congr fun m' _ => ?_
  rw [PathItem.operation_setOperation]
  by_cases hm : m' = m
  · subst hm
    rw [if_pos rfl, h]
    simp
  · rw [if_neg hm, Option.map_map]
    refine congrArg (Option.map · _) (funext fun x => ?_)
    simp [hm]

/-- Another operation for one method of a path is the same exactly if it resolves to the
same. -/
theorem itemSites_setOperation_iff {path : String} {item : PathItem} {m : HttpMethod}
    {op op' : OpenApi.Operation} (h : item.operation m = some op)
    (components : Option Components) :
    (itemSites (path, .item (item.setOperation op' m))).map (OperationSite.resolve components) =
        (itemSites (path, .item item)).map (OperationSite.resolve components) ↔
      resolveOperation m path op' item.parameters components =
        resolveOperation m path op item.parameters components := by
  rw [itemSites, itemSites, iterMethods_setOperation h, PathItem.parameters_setOperation,
    List.map_map, List.map_map, List.map_map, List.map_inj_left]
  constructor
  · intro hall
    have hm := hall (m, op) (mem_iterMethods.mpr h)
    simpa [OperationSite.resolve] using hm
  · rintro hsame ⟨m', op''⟩ hmem
    by_cases hm : m' = m
    · subst hm
      obtain rfl : op'' = op := Option.some.inj ((mem_iterMethods.mp hmem).symm.trans h)
      simpa [OperationSite.resolve] using hsame
    · simp [OperationSite.resolve, hm]

/-! ## §4  Parameters -/

theorem resolveParameters_eq (sources : List (ReferenceOr OpenApi.Parameter))
    (components : Option Components) : resolveParameters sources components =
      (sources.filterMap (resolveParameter · components)).foldl (keepNew (·.name)) [] := by
  rw [resolveParameters, List.foldl_filterMap]
  refine congrArg (List.foldl · [] sources) (funext fun kept => funext fun q => ?_)
  cases resolveParameter q components with
  | none => rfl
  | some ir => rfl

theorem resolveOperation_parameters_iff (s : OperationSite) (c c' : Option Components) :
    s.resolve c' = s.resolve c ↔ resolveParameters s.sources c' = resolveParameters s.sources c := by
  constructor
  · exact congrArg Operation.parameters
  · intro h
    rw [OperationSite.sources] at h
    simp only [OperationSite.resolve, resolveOperation, h]

/-- A reference whose last segment is this name. -/
def EndsIn (name : String) (p : ReferenceOr OpenApi.Parameter) : Prop :=
  ∃ reference, p = .reference reference ∧ refName reference = name

/-- The components with one more parameter. -/
def withParameter (c : Components) (name : String) (p : OpenApi.Parameter) : Components :=
  { c with parameters := c.parameters.insert name (.item p) }

section Parameter

variable {c : Components} {name : String} {p : OpenApi.Parameter}

theorem resolveParameter_of_endsIn {q : ReferenceOr OpenApi.Parameter} (hq : EndsIn name q) :
    resolveParameter q (some (withParameter c name p)) = some (resolveParameterItem p) := by
  obtain ⟨reference, rfl, hname⟩ := hq
  simp [resolveParameter, withParameter, hname]

theorem resolveParameter_of_not_endsIn {q : ReferenceOr OpenApi.Parameter}
    (hq : ¬EndsIn name q) : resolveParameter q (some (withParameter c name p)) =
      resolveParameter q (some c) := by
  cases q with
  | item q => rfl
  | reference reference =>
      have hne : ¬refName reference = name := fun h => hq ⟨reference, rfl, h⟩
      simp [resolveParameter, withParameter, IndexMap.get_insert, hne]

theorem resolveParameter_of_new {q : ReferenceOr OpenApi.Parameter}
    (hnew : c.parameters.get name = none) (hq : EndsIn name q) :
    resolveParameter q (some c) = none := by
  obtain ⟨reference, rfl, hname⟩ := hq
  simp [resolveParameter, hname, hnew]

/-- The reference stands for the content it took the place of. -/
theorem resolveParameters_set (front rest : List (ReferenceOr OpenApi.Parameter))
    {params : List (ReferenceOr OpenApi.Parameter)} {i : Nat} {reference : String}
    (hi : params[i]? = some (.item p)) (hname : refName reference = name) :
    resolveParameters (front ++ params.set i (.reference reference) ++ rest)
        (some (withParameter c name p)) =
      resolveParameters (front ++ params ++ rest) (some (withParameter c name p)) := by
  have hsame : resolveParameter (.reference reference) (some (withParameter c name p)) =
      resolveParameter (.item p) (some (withParameter c name p)) :=
    resolveParameter_of_endsIn ⟨reference, rfl, hname⟩
  have hset : (params.set i (.reference reference)).filterMap
      (resolveParameter · (some (withParameter c name p))) = _ := Lib.filterMap_set hsame hi
  rw [resolveParameters_eq, resolveParameters_eq]
  simp only [List.filterMap_append, hset]

/-- The document resolves as if the parameter still stood inline, next to its entry. -/
theorem resolveOperations_setParameter {spec : OpenAPI} {path : String} {item : PathItem}
    {place : OpenApi.ParameterPlace} {reference : String} (hitem : spec.pathItem path = some item)
    (hplace : item.parameter place = some (.item p)) (hname : refName reference = name) :
    resolveOperations (spec.paths.insert path
        (.item (item.setParameter (.reference reference) place)))
        (some (withParameter c name p)) =
      resolveOperations spec.paths (some (withParameter c name p)) := by
  rw [resolveOperations_insert_iff hitem]
  cases place with
  | ofPath i =>
      show (itemSites (path, .item { item with
        parameters := item.parameters.set i (.reference reference) })).map _ = _
      rw [itemSites, itemSites, List.map_map, List.map_map]
      refine List.map_congr_left fun x _ => ?_
      have hset := resolveParameters_set (c := c) [] x.2.parameters hplace hname
      simp only [List.nil_append] at hset
      simp only [Function.comp_apply, OperationSite.resolve, resolveOperation, hset]
  | ofOperation m i =>
      obtain ⟨op, hop, hi⟩ := Option.bind_eq_some_iff.mp hplace
      have hset := resolveParameters_set (c := c) item.parameters [] hi hname
      simp only [List.append_nil] at hset
      rw [PathItem.setParameter, hop]
      refine (itemSites_setOperation_iff hop _).mpr ?_
      simp only [resolveOperation, hset]

end Parameter

/-- In this list of parameters every reference that ends in the name stands where the
parameter makes no difference. -/
def Unaffected (components : Option Components) (name : String) (p : Parameter)
    (sources : List (ReferenceOr OpenApi.Parameter)) : Prop :=
  ∀ front q rest, sources = front ++ q :: rest → EndsIn name q →
    Redundant (·.name) p (front.filterMap (resolveParameter · components))
      (rest.filterMap (resolveParameter · components))

theorem resolveParameters_withParameter_iff {c : Components} {name : String}
    {p : OpenApi.Parameter} (hnew : c.parameters.get name = none)
    (sources : List (ReferenceOr OpenApi.Parameter)) :
    resolveParameters sources (some (withParameter c name p)) =
        resolveParameters sources (some c) ↔
      Unaffected (some c) name (resolveParameterItem p) sources := by
  rw [resolveParameters_eq, resolveParameters_eq]
  exact Lib.foldl_keepNew_filterMap_iff
    (fun q (hq : EndsIn name q) => ⟨resolveParameter_of_new hnew hq, resolveParameter_of_endsIn hq⟩)
    (fun q hq => resolveParameter_of_not_endsIn hq) []

theorem inlineParameter_eq_some_iff {spec : OpenAPI} {path : String}
    {place : OpenApi.ParameterPlace} {p : OpenApi.Parameter} :
    inlineParameter spec path place = some p ↔
      ∃ item, spec.pathItem path = some item ∧ item.parameter place = some (.item p) := by
  unfold inlineParameter
  constructor
  · intro h
    split at h
    · next q hq =>
        cases h
        exact Option.bind_eq_some_iff.mp hq
    · cases h
  · rintro ⟨item, hitem, hplace⟩
    rw [hitem, Option.bind_some, hplace]

theorem resolveOperations_componentsOrEmpty (spec : OpenAPI) :
    resolveOperations spec.paths spec.components =
      resolveOperations spec.paths (some spec.componentsOrEmpty) := by
  rw [resolveOperations_eq_map, resolveOperations_eq_map]
  refine List.map_congr_left fun s _ => (resolveOperation_parameters_iff s _ _).mpr ?_
  rw [resolveParameters_eq, resolveParameters_eq]
  simp only [OpenAPI.componentsOrEmpty, ← resolveParameter_getD]

theorem parameter_extraction_iff {spec spec' : OpenAPI} {d : Document} {path : String}
    {place : OpenApi.ParameterPlace} {key : ComponentKey} (h : resolve spec = .ok d)
    (happly : (Extraction.parameter path place key).apply spec = some spec') :
    ∃ p, inlineParameter spec path place = some p ∧
      (resolve spec' = .ok d ↔ ∀ s ∈ operationSites spec.paths,
        Unaffected spec.components key.name (resolveParameterItem p) s.sources) := by
  obtain ⟨item, hitem, happly⟩ := Option.bind_eq_some_iff.mp happly
  obtain ⟨p, hp, happly⟩ := Option.bind_eq_some_iff.mp happly
  dsimp only at happly
  split at happly
  · cases happly
  · next hkey =>
      cases happly
      obtain ⟨item', hitem', hplace⟩ := inlineParameter_eq_some_iff.mp hp
      obtain rfl : item = item' := Option.some.inj (hitem.symm.trans hitem')
      refine ⟨p, hp, ?_⟩
      have hset := resolveOperations_setParameter (c := spec.componentsOrEmpty) hitem hplace
        (refName_parameter key)
      rw [withParameter] at hset
      refine Iff.trans (resolve_rewired_iff h ?_ ?_) ?_
      · rfl
      · rfl
      rw [hset, resolveOperations_componentsOrEmpty, resolveOperations_eq_map,
        resolveOperations_eq_map, List.map_inj_left]
      refine forall₂_congr fun s _ => ?_
      rw [resolveOperation_parameters_iff]
      have hnew : spec.componentsOrEmpty.parameters.get key.name = none :=
        IndexMap.get_eq_none_iff.mpr fun hmem => hkey (IndexMap.containsKey_iff.mpr hmem)
      refine (resolveParameters_withParameter_iff hnew s.sources).trans ?_
      simp only [Unaffected, OpenAPI.componentsOrEmpty, ← resolveParameter_getD]

/-! ## §5  Request bodies -/

/-- No `application/json` media type with a schema. -/
def NoJsonSchema (body : OpenApi.RequestBody) : Prop :=
  (body.content.get "application/json").bind (·.schema) = none

theorem resolveRequestBody_item_eq_none {body : OpenApi.RequestBody} :
    resolveRequestBody (some (.item body)) = none ↔ NoJsonSchema body := by
  rw [resolveRequestBody, Option.map_eq_none_iff, jsonBody, Option.map_eq_none_iff]
  rfl

theorem inlineRequestBody_eq_some_iff {spec : OpenAPI} {path : String} {method : HttpMethod}
    {item : PathItem} {op : OpenApi.Operation} (hitem : spec.pathItem path = some item)
    (hop : item.operation method = some op) {body : OpenApi.RequestBody} :
    inlineRequestBody spec path method = some body ↔ op.requestBody = some (.item body) := by
  unfold inlineRequestBody
  rw [hitem, Option.bind_some, hop, Option.bind_some]
  constructor
  · intro h
    split at h
    · next b hb =>
        cases h
        exact hb
    · cases h
  · intro h
    rw [h]

theorem resolveOperations_congr {c c' : Option Components}
    (h : ∀ p, resolveParameter p c' = resolveParameter p c)
    (paths : IndexMap String (ReferenceOr PathItem)) :
    resolveOperations paths c' = resolveOperations paths c := by
  rw [resolveOperations_eq_map, resolveOperations_eq_map]
  refine List.map_congr_left fun s _ => (resolveOperation_parameters_iff s _ _).mpr ?_
  rw [resolveParameters_eq, resolveParameters_eq]
  simp only [h]

theorem body_extraction_iff {spec spec' : OpenAPI} {d : Document} {path : String}
    {method : HttpMethod} {key : ComponentKey} (h : resolve spec = .ok d)
    (happly : (Extraction.requestBody path method key).apply spec = some spec') :
    ∃ body, inlineRequestBody spec path method = some body ∧
      (resolve spec' = .ok d ↔ NoJsonSchema body) := by
  obtain ⟨item, hitem, happly⟩ := Option.bind_eq_some_iff.mp happly
  obtain ⟨op, hop, happly⟩ := Option.bind_eq_some_iff.mp happly
  obtain ⟨body, hbody, happly⟩ := Option.bind_eq_some_iff.mp happly
  dsimp only at happly
  split at happly
  · cases happly
  · cases happly
    refine ⟨body, hbody, ?_⟩
    have hinline := (inlineRequestBody_eq_some_iff hitem hop).mp hbody
    refine Iff.trans (resolve_rewired_iff h ?_ ?_) ?_
    · rfl
    · rfl
    have hread : ∀ p, resolveParameter p (some { spec.componentsOrEmpty with
        requestBodies := spec.componentsOrEmpty.requestBodies.insert key.name (.item body) }) =
          resolveParameter p spec.components :=
      fun p => (resolveParameter_getD p spec.components).symm
    rw [resolveOperations_congr hread, resolveOperations_insert_iff hitem,
      itemSites_setOperation_iff hop, ← resolveRequestBody_item_eq_none, ← hinline]
    constructor
    · intro hsame
      exact (congrArg Operation.requestBody hsame).symm
    · intro hnone
      simp only [resolveOperation, hnone]
      rfl

/-- What must hold of the document for the replacement not to be seen. -/
def Extraction.Unseen (spec : OpenAPI) : Extraction → Prop
  | .parameter path place key => ∀ p, inlineParameter spec path place = some p →
      ∀ s ∈ operationSites spec.paths,
        Unaffected spec.components key.name (resolveParameterItem p) s.sources
  | .requestBody path method _ => ∀ body, inlineRequestBody spec path method = some body →
      NoJsonSchema body

/-- **A replacement leaves the resolved document as it was exactly if**, for a request body, it
has no JSON schema, and for a parameter, no other reference that ends in the name of the new
entry comes to bring a parameter. -/
theorem extraction_unseen_iff {spec spec' : OpenAPI} {e : Extraction} {d : Document}
    (h : resolve spec = .ok d) (happly : e.apply spec = some spec') :
    resolve spec' = .ok d ↔ e.Unseen spec := by
  cases e with
  | parameter path place key =>
      obtain ⟨p, hp, hiff⟩ := parameter_extraction_iff h happly
      rw [hiff]
      constructor
      · intro hall p' hp'
        obtain rfl : p = p' := Option.some.inj (hp.symm.trans hp')
        exact hall
      · intro hall
        exact hall p hp
  | requestBody path method key =>
      obtain ⟨body, hbody, hiff⟩ := body_extraction_iff h happly
      rw [hiff]
      constructor
      · intro hnone body' hbody'
        obtain rfl : body = body' := Option.some.inj (hbody.symm.trans hbody')
        exact hnone
      · intro hall
        exact hall body hbody

/-- `POST /pets?dry`, with a string as its body. -/
def postPetsSpec : OpenAPI where
  info := ⟨"Pets", "1.0.0"⟩
  servers := []
  paths := IndexMap.ofList [("/pets", .item {
    get := none
    put := none
    post := some {
      tags := []
      summary := none
      description := none
      operationId := some "createPet"
      parameters := [.item (.query ⟨"dry", none, false, .content⟩)]
      requestBody := some (.item ⟨none, IndexMap.ofList [("application/json",
        ⟨some (.item ⟨OpenApi.SchemaData.default, .type (.string ⟨.empty, []⟩)⟩)⟩)], true⟩)
      responses := ⟨none, IndexMap.empty⟩ }
    delete := none
    options := none
    head := none
    patch := none
    parameters := [] })]
  components := none
  security := none

def dryParameter : Extraction := .parameter "/pets" (.ofOperation .post 0) ⟨"Dry", by decide⟩

def petBody : Extraction := .requestBody "/pets" .post ⟨"Pet", by decide⟩

theorem extraction_unseen_dry : ∃ spec' d, resolve postPetsSpec = .ok d ∧
    dryParameter.apply postPetsSpec = some spec' ∧ resolve spec' = .ok d := by
  obtain ⟨d, hd⟩ : ∃ d, resolve postPetsSpec = .ok d := ⟨_, rfl⟩
  obtain ⟨spec', hspec'⟩ : ∃ spec', dryParameter.apply postPetsSpec = some spec' := ⟨_, rfl⟩
  refine ⟨spec', d, hd, hspec', (extraction_unseen_iff hd hspec').mpr ?_⟩
  rintro p - s hs front q rest hsplit ⟨reference, rfl, -⟩
  obtain rfl := List.mem_singleton.mp hs
  have hmem : ReferenceOr.reference reference ∈ front ++ .reference reference :: rest :=
    List.mem_append_right _ List.mem_cons_self
  rw [← hsplit] at hmem
  cases List.mem_singleton.mp hmem

/-- A body that moves into the components is lost. -/
theorem referenced_body_lost :
    ¬∀ (spec spec' : OpenAPI) (e : Extraction) (d : Document), resolve spec = .ok d →
      e.apply spec = some spec' → resolve spec' = .ok d := by
  intro hclaim
  obtain ⟨d, hd⟩ : ∃ d, resolve postPetsSpec = .ok d := ⟨_, rfl⟩
  obtain ⟨spec', hspec'⟩ : ∃ spec', petBody.apply postPetsSpec = some spec' := ⟨_, rfl⟩
  have hsame := hclaim postPetsSpec spec' petBody d hd hspec'
  obtain ⟨body, hbody, hiff⟩ := body_extraction_iff hd hspec'
  have hnone := hiff.mp hsame
  cases hbody
  exact Option.some_ne_none _ hnone

end SpecForge
