import SpecForge.Core.UnusedSchemas

/-!
# The analysis of a document

What `analyze_spec` reports: schemas that no operation or webhook leads to, schemas with the same
properties, large schemas and long chains of references. Sets and maps are visited in the order
of their hasher.

- §1 the orders; §2 references of models; §3 the schemas referred to; §4 the reference graph and
  its depths; §5 the report.
-/

namespace SpecForge

open Lib Lib.Sweep

/-! ## §1  Orders -/

/-- The iteration orders of the hashed containers in a run. -/
structure AnalysisOrders where
  referenced : HashOrder String
  /-- Of the set that is built for a schema in the loop. -/
  refs : String → HashOrder String
  groups : HashOrder (List String)
  /-- Of the set that the reference graph is built from. -/
  targets : String → HashOrder String

def AnalysisOrders.insertion : AnalysisOrders where
  referenced := HashOrder.insertion
  refs _ := HashOrder.insertion
  groups := HashOrder.insertion
  targets _ := HashOrder.insertion

/-! ## §2  References of models -/

/-- The same walk as the lint's. -/
def collectRefsFromType (ty : IrType) (refs : List String) : List String := collectTypeRefs ty refs

def collectRefsFromModel : Model → List String
  | .object obj =>
      let refs := obj.properties.foldl (fun refs prop => collectRefsFromType prop.ty refs) []
      let refs := match obj.additionalProperties with
        | some ap => collectRefsFromType ap refs
        | none => refs
      let refs := match obj.shapeType with
        | some shape => collectRefsFromType shape refs
        | none => refs
      match obj.baseType with
      | some base => collectRefsFromType base refs
      | none => refs
  | .enum _ => []

theorem mem_collect_option {ty : Option IrType} {names : List String} {name : String} :
    (name ∈ match ty with
      | some ty => collectRefsFromType ty names
      | none => names) ↔ name ∈ names ∨ ∃ t ∈ ty.toList, name ∈ t.refs := by
  cases ty with
  | none => simp
  | some ty => simp [collectRefsFromType, mem_collectTypeRefs]

theorem mem_collectRefsFromModel {model : Model} {name : String} :
    name ∈ collectRefsFromModel model ↔ ∃ ty ∈ model.types, name ∈ ty.refs := by
  rcases model with obj | e
  · have hprops : name ∈ obj.properties.foldl
        (fun refs prop => collectRefsFromType prop.ty refs) [] ↔
        ∃ ty ∈ obj.properties.map (·.ty), name ∈ ty.refs := by
      rw [mem_foldl_collect (g := fun prop => [prop.ty])]
      · simp
      · intro names prop
        simp [collectRefsFromType, mem_collectTypeRefs]
    rw [collectRefsFromModel]
    simp only [mem_collect_option, hprops, Model.types, List.mem_append, or_and_right, exists_or]
  · simp [collectRefsFromModel, Model.types]

/-! ## §3  The schemas referred to -/

/-- The body and the responses of an operation or a webhook. -/
def collectExchange (referenced : List String) (requestBody : Option RequestBody)
    (responses : List Response) : List String :=
  let referenced := match requestBody with
    | some body => collectRefsFromType body.ty referenced
    | none => referenced
  responses.foldl (fun referenced resp => match resp.body with
    | some body => collectRefsFromType body referenced
    | none => referenced) referenced

def exchangeRefs (doc : Document) : List String :=
  let referenced := doc.operations.foldl
    (fun referenced op => collectExchange referenced op.requestBody op.responses) []
  doc.webhooks.foldl
    (fun referenced wh => collectExchange referenced wh.requestBody wh.responses) referenced

/-- What the loop does for a name, with the flag `changed`. -/
def addReferences (orders : AnalysisOrders) (schemas : SchemaRegistry)
    (st : List String × Bool) (name : String) : List String × Bool :=
  match schemas.get name with
  | some model => ((orders.refs name).visit (collectRefsFromModel model)).foldl putCounted st
  | none => st

/-- The loop `while changed`, at most so many times. -/
def referencedLoop (orders : AnalysisOrders) (schemas : SchemaRegistry) :
    ℕ → List String → Option (List String)
  | 0, _ => none
  | fuel + 1, referenced =>
      let current := orders.referenced.visit referenced
      let st := current.foldl (addReferences orders schemas) (referenced, false)
      if st.2 then referencedLoop orders schemas fuel st.1 else some st.1

/-! ## §4  Reference depths -/

abbrev RefGraph := IndexMap String (List String)

def buildRefGraph (orders : AnalysisOrders) (doc : Document) : RefGraph :=
  IndexMap.ofList (doc.schemas.models.entries.map fun e =>
    (e.1, (orders.targets e.1).visit (collectRefsFromModel e.2)))

/-- The depth of a schema and the memo table after it. The name is entered with depth 0 before
its targets are visited. -/
def refDepth (graph : RefGraph) : ℕ → String → IndexMap String ℕ →
    Option (ℕ × IndexMap String ℕ)
  | 0, _, _ => none
  | fuel + 1, name, memo =>
      match memo.get name with
      | some cached => some (cached, memo)
      | none => do
          let memo := memo.insert name 0
          let (depth, memo) ← match graph.get name with
            | some [] => some (0, memo)
            | some targets => do
                let (mc, memo) ← targets.foldlM (fun (mc, memo) t => do
                  let (d, memo) ← refDepth graph fuel t memo
                  return (max mc d, memo)) (0, memo)
                pure (mc + 1, memo)
            | none => some (0, memo)
          return (depth, memo.insert name depth)

/-- The depths of the schemas, in the order of the document. -/
def refDepths (graph : RefGraph) (fuel : ℕ) : List String → IndexMap String ℕ →
    Option (List (String × ℕ))
  | [], _ => some []
  | name :: names, memo => do
      let (depth, memo) ← refDepth graph fuel name memo
      let rest ← refDepths graph fuel names memo
      return (name, depth) :: rest

/-! ## §5  The report -/

structure AnalysisReport where
  totalSchemas : ℕ
  totalOperations : ℕ
  totalSizeBytes : ℕ
  unusedSchemas : List String
  duplicateSchemas : List (String × String)
  deepRefs : List (String × ℕ)
  largeSchemas : List (String × ℕ)
  recommendations : List String

/-- `sort`. -/
def sortNames (names : List String) : List String := names.mergeSort fun a b => decide (a ≤ b)

/-- `sort_by_key` with `Reverse` of the number: the larger first, otherwise as before. -/
def sortDescending (l : List (String × ℕ)) : List (String × ℕ) :=
  l.mergeSort fun a b => decide (b.2 ≤ a.2)

def largeSchemas (doc : Document) : List (String × ℕ) :=
  sortDescending (doc.schemas.models.entries.filterMap fun e => match e.2 with
    | .object obj => if 20 < obj.properties.length then some (e.1, obj.properties.length) else none
    | .enum _ => none)

/-- The schemas by the sorted names of their properties. -/
def fingerprints (doc : Document) : IndexMap (List String) (List String) :=
  doc.schemas.models.entries.foldl (fun fps e => match e.2 with
    | .object obj =>
        let props := sortNames (obj.properties.map (·.name))
        fps.insert props ((fps.get props).getD [] ++ [e.1])
    | .enum _ => fps) IndexMap.empty

/-- The pairs of a group, the earlier one first. -/
def groupPairs : List String → List (String × String)
  | [] => []
  | name :: names => names.map (fun other => (name, other)) ++ groupPairs names

def duplicateSchemas (orders : AnalysisOrders) (doc : Document) : List (String × String) :=
  ((orders.groups.visit (fingerprints doc).values).flatMap groupPairs).mergeSort
    fun a b => decide (a.1 < b.1 ∨ a.1 = b.1 ∧ a.2 ≤ b.2)

def recommendations (unused : List String) (duplicates : List (String × String))
    (large deep : List (String × ℕ)) : List String :=
  (if unused.isEmpty then [] else
    ["Remove " ++ toString unused.length ++ " unused schema(s): " ++ Text.join ", " unused]) ++
  (if duplicates.isEmpty then [] else
    ["Found " ++ toString duplicates.length
      ++ " pair(s) of schemas with identical property sets."]) ++
  large.map (fun e => "Schema '" ++ e.1 ++ "' has " ++ toString e.2
    ++ " properties. Consider splitting.") ++
  deep.map fun e => "Schema '" ++ e.1 ++ "' has deep reference chain (depth " ++ toString e.2
    ++ ")."

/-- `toVec` is the serializer; the two numbers cap the sweeps and the nesting of `ref_depth`. -/
def analyzeSpec (toVec : Document → Option (List UInt8)) (orders : AnalysisOrders)
    (sweeps fuel : ℕ) (doc : Document) : Option AnalysisReport := do
  let referenced ← referencedLoop orders doc.schemas sweeps (exchangeRefs doc)
  let unused := sortNames (doc.schemas.names.filter fun name => decide (name ∉ referenced))
  let large := largeSchemas doc
  let duplicates := duplicateSchemas orders doc
  let depths ← refDepths (buildRefGraph orders doc) fuel doc.schemas.names IndexMap.empty
  let deep := sortDescending (depths.filter fun e => decide (2 < e.2))
  return {
    totalSchemas := doc.schemas.names.length
    totalOperations := doc.operations.length
    totalSizeBytes := ((toVec doc).map (·.length)).getD 0
    unusedSchemas := unused
    duplicateSchemas := duplicates
    deepRefs := deep
    largeSchemas := large
    recommendations := recommendations unused duplicates large deep }

end SpecForge
