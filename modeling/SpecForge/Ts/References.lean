import SpecForge.Ts.Operations

/-!
# Model references in the emitted package

A model is declared under `safe_model_name(pascal(name))`, and everything that refers to
it writes `pascal(name)`. The two agree unless the PascalCase form is the name of a type
that the package declares itself.

- §1 the types a file spells out; §2 the marks of a model file; §3 those of an API file.
- §4 when every reference resolves.
-/

namespace SpecForge.Ts

open Lib
open Lib.Marked (plain mark)

/-! ## §1  Types spelled out -/

def renderedTypes : Model → List IrType
  | .object o =>
      if !o.properties.isEmpty then
        o.properties.map (·.ty) ++ o.additionalProperties.toList
      else o.shapeType.toList
  | .enum _ => []

def operationTypes (op : Operation) : List IrType :=
  op.parameters.map (·.ty) ++ (requestType op).toList ++ (successBody op).toList

/-- Some emitted file spells out a type that refers to the schema. -/
def MentionedIn (doc : Document) (r : String) : Prop :=
  (∃ x ∈ doc.schemas.models.entries, ∃ t ∈ renderedTypes x.2, r ∈ t.refs) ∨
  ∃ op ∈ doc.operations, ∃ t ∈ operationTypes op, r ∈ t.refs

/-! ## §2  Marks of a model file -/

section Marks

variable {P : Mention × String → Prop}

theorem mem_unionArms {members : List IrType} {r : String} (h : r ∈ unionArms members) :
    r ∈ refsOfMembers members := by
  obtain ⟨m, hm, hr⟩ := List.mem_filterMap.mp h
  refine mem_refsOfMembers ?_ hm
  split at hr
  · rw [← Option.some.inj hr]
    exact List.mem_singleton.mpr rfl
  · cases hr

/-- The guards of a union name the union and its reference arms. -/
theorem allMarks_emitUnionGuards {name : String} {members : List IrType}
    {disc : Option Discriminator} {registry : Option SchemaRegistry} {m : Marked Mention}
    (h : emitUnionGuards name members disc registry = some m) (hown : P (.own, name))
    (hrefs : ∀ r ∈ refsOfMembers members, P (.ident r, pascal r)) : m.AllMarks P := by
  unfold emitUnionGuards at h
  dsimp only at h
  split at h
  · cases h
  · obtain rfl := Option.some.inj h
    have harms : ∀ arm ∈ unionArms members, P (.ident arm, pascal arm) :=
      fun arm harm => hrefs arm (mem_unionArms harm)
    simpa [hown] using harms

theorem allMarks_renderProperty (p : Property) :
    (renderProperty p).AllMarks P ↔ ∀ r ∈ p.ty.refs, P (.ident r, pascal r) := by
  unfold renderProperty
  rcases p.description with _ | desc <;> simp

/-- The body of an object model names the model and what its types refer to. -/
theorem allMarks_emitObject (o : ObjectModel) (registry : Option SchemaRegistry) :
    (emitObject o registry).body.AllMarks P ↔
      P (.own, (emitObject o registry).name) ∧
        ∀ t ∈ renderedTypes (.object o), ∀ r ∈ t.refs, P (.ident r, pascal r) := by
  unfold emitObject renderedTypes
  dsimp only
  split
  · rcases o.additionalProperties with _ | addl
    · simp [allMarks_renderProperty]
    · simp [allMarks_renderProperty, or_imp, forall_and]
  · rcases hshape : o.shapeType with _ | shape
    · simp
    · have hguards : ∀ kind members disc, shape = .composition kind members disc →
          ∀ {m}, emitUnionGuards (safeModelName (pascal o.name)) members disc registry = some m →
          P (.own, safeModelName (pascal o.name)) →
          (∀ r ∈ shape.refs, P (.ident r, pascal r)) → (plain "\n" ++ m).AllMarks P := by
        rintro kind members disc rfl m hm hown hrefs
        rw [Marked.allMarks_append]
        exact ⟨(Marked.allMarks_plain _).mpr trivial, allMarks_emitUnionGuards hm hown hrefs⟩
      simp only [Marked.allMarks_append, Marked.allMarks_plain, Marked.allMarks_mark, true_and,
        and_true, allMarks_renderMarked, Option.toList_some, List.forall_mem_singleton]
      refine ⟨fun h => h.1, fun h => ⟨h, ?_⟩⟩
      split
      · split
        · next hm => exact hguards _ _ _ rfl hm h.1 h.2
        · exact (Marked.allMarks_nil).mpr trivial
      · split
        · next hm => exact hguards _ _ _ rfl hm h.1 h.2
        · exact (Marked.allMarks_nil).mpr trivial
      · exact (Marked.allMarks_nil).mpr trivial

theorem allMarks_emitModel (registry : Option SchemaRegistry) (m : Model) :
    (emitModel registry m).body.AllMarks P ↔
      P (.own, (emitModel registry m).name) ∧
        ∀ t ∈ renderedTypes m, ∀ r ∈ t.refs, P (.ident r, pascal r) := by
  rcases m with o | e
  · exact allMarks_emitObject o registry
  · simp [emitModel, emitEnum, renderedTypes]

theorem mem_refs_emitModel {registry : Option SchemaRegistry} {m : Model} {r : String} :
    r ∈ (emitModel registry m).refs ↔ ∃ t ∈ renderedTypes m, r ∈ t.refs := by
  rcases m with o | e
  · unfold emitModel emitObject renderedTypes
    dsimp only
    split
    · rw [BTreeMap.mem_sortedSet]
      rcases o.additionalProperties with _ | addl
      · simp
      · simp [or_and_right, exists_or]
    · rcases o.shapeType with _ | shape
      · simp
      · simp [BTreeMap.mem_sortedSet]
  · simp [emitModel, emitEnum, renderedTypes]

theorem allMarks_buildImports {refs : List String} {selfName : String}
    (h : ∀ r ∈ refs, P (.ident r, pascal r) ∧ P (.file r, pascal r)) :
    (buildImports refs selfName).AllMarks P := by
  rw [buildImports, Marked.allMarks_join]
  intro line hline
  rw [List.mem_mergeSort] at hline
  obtain ⟨r, hr, rfl⟩ := List.mem_map.mp hline
  simpa [importLine] using h r (List.mem_filter.mp hr).1

/-- A model file is marked as its body is, and its imports only repeat what the body
refers to. -/
theorem allMarks_emitModelFile {registry : Option SchemaRegistry} {m : Model}
    (hfile : ∀ t ∈ renderedTypes m, ∀ r ∈ t.refs,
      P (.ident r, pascal r) → P (.file r, pascal r)) :
    (emitModelFileWithRegistry m registry).AllMarks P ↔
      P (.own, (emitModel registry m).name) ∧
        ∀ t ∈ renderedTypes m, ∀ r ∈ t.refs, P (.ident r, pascal r) := by
  rw [← allMarks_emitModel]
  unfold emitModelFileWithRegistry
  simp only [Marked.allMarks_append, Marked.allMarks_plain, true_and, and_true]
  refine ⟨fun h => h.2, fun h => ⟨?_, h⟩⟩
  split
  · exact Marked.allMarks_nil.mpr trivial
  · simp only [Marked.allMarks_append, Marked.allMarks_plain, true_and, and_true]
    refine allMarks_buildImports fun r hr => ?_
    obtain ⟨t, ht, hr⟩ := mem_refs_emitModel.mp hr
    have hident := ((allMarks_emitModel registry m).mp h).2 t ht r hr
    exact ⟨hident, hfile t ht r hr hident⟩

/-! ## §3  Marks of an API file -/

theorem mem_orderedParams {op : Operation} {p : Parameter} :
    p ∈ orderedParams op ↔ p ∈ op.parameters := by
  simp only [orderedParams, pathParams, queryParams, headerParams, List.mem_append,
    List.mem_filter, decide_eq_true_eq]
  rcases p.location <;> simp

theorem mem_types_emitMethod {op : Operation} {t : IrType} :
    t ∈ (emitMethod op).types ↔ t ∈ operationTypes op := by
  simp only [emitMethod, operationTypes, List.mem_append, List.mem_map, mem_orderedParams]

theorem allMarks_emitInterface {op : Operation} :
    (∀ iface, emitInterface op = some iface → iface.AllMarks P) ↔
      (∀ p ∈ op.parameters, ∀ r ∈ p.ty.refs, P (.ident r, pascal r)) ∧
        ∀ t ∈ requestType op, ∀ r ∈ t.refs, P (.ident r, pascal r) := by
  unfold emitInterface requestType
  split
  · rcases op.requestBody with _ | body
    · simp [mem_orderedParams]
    · simp [mem_orderedParams]
  · next h =>
      rw [hasParams, Bool.or_eq_true, not_or, Bool.not_eq_true', Bool.not_eq_false,
        List.isEmpty_iff, Bool.not_eq_true, Option.isSome_eq_false_iff,
        Option.isNone_iff_eq_none] at h
      have hparams : ∀ p, p ∉ op.parameters := by
        intro p hp
        rw [← mem_orderedParams, h.1] at hp
        exact absurd hp List.not_mem_nil
      simp [h.2, hparams]

theorem allMarks_emitCall (op : Operation) :
    (emitCall op).AllMarks P ↔ ∀ t ∈ successBody op, ∀ r ∈ t.refs, P (.ident r, pascal r) := by
  unfold emitCall
  rcases successBody op with _ | t
  · simp
  · dsimp only
    rcases checkedSchema (some t) with _ | s
    · simp
    · simp

/-- A method and its interface name what the types of the operation refer to. -/
theorem allMarks_emitMethod (op : Operation) :
    (emitMethod op).text.AllMarks P ∧
        (∀ iface, (emitMethod op).iface = some iface → iface.AllMarks P) ↔
      ∀ t ∈ operationTypes op, ∀ r ∈ t.refs, P (.ident r, pascal r) := by
  have htext : (emitMethod op).text.AllMarks P ↔
      ∀ t ∈ successBody op, ∀ r ∈ t.refs, P (.ident r, pascal r) := by
    unfold emitMethod
    rcases hbody : successBody op with _ | t
    · simp [allMarks_emitCall, hbody]
    · simp [allMarks_emitCall, hbody]
  rw [htext]
  refine (and_congr Iff.rfl allMarks_emitInterface).trans ?_
  simp only [operationTypes, List.forall_mem_append, List.forall_mem_map, Option.mem_toList]
  exact and_comm

theorem mem_modelImports {tag : String} {ops : List Operation} {x : String × String}
    (hx : x ∈ (emitTagFile tag ops).modelImports) :
    x.1 = pascal x.2 ∧ ∃ op ∈ ops, ∃ t ∈ operationTypes op, x.2 ∈ t.refs := by
  obtain ⟨r, hr, rfl⟩ := List.mem_map.mp (BTreeMap.mem_of_mem_collect hx)
  rw [BTreeMap.mem_sortedSet] at hr
  obtain ⟨m, hm, hr⟩ := List.mem_flatMap.mp hr
  obtain ⟨op, hop, rfl⟩ := List.mem_map.mp hm
  obtain ⟨t, ht, hr⟩ := List.mem_flatMap.mp hr
  exact ⟨rfl, op, hop, t, mem_types_emitMethod.mp ht, hr⟩

/-- An API file is marked as its methods are. -/
theorem allMarks_emitTagFile {tag : String} {ops : List Operation}
    (hfile : ∀ op ∈ ops, ∀ t ∈ operationTypes op, ∀ r ∈ t.refs,
      P (.ident r, pascal r) → P (.file r, pascal r)) :
    (emitTagFile tag ops).text.AllMarks P ↔
      ∀ op ∈ ops, ∀ t ∈ operationTypes op, ∀ r ∈ t.refs, P (.ident r, pascal r) := by
  have hmethods : (emitTagFile tag ops).methods = ops.map emitMethod := rfl
  have htext : (emitTagFile tag ops).text.AllMarks P ↔
      (∀ x ∈ (emitTagFile tag ops).modelImports, P (.ident x.2, x.1) ∧ P (.file x.2, x.1)) ∧
      ∀ op ∈ ops, (emitMethod op).text.AllMarks P ∧
        ∀ iface, (emitMethod op).iface = some iface → iface.AllMarks P := by
    unfold TagFile.text
    have hvalidate : ∀ s : String,
        Marked.AllMarks P (if (emitTagFile tag ops).validateImports.isEmpty then []
          else plain s) := by
      intro s
      split
      · exact Marked.allMarks_nil.mpr trivial
      · exact (Marked.allMarks_plain s).mpr trivial
    simp only [Marked.allMarks_append, Marked.allMarks_plain, Marked.allMarks_mark,
      Marked.allMarks_flatMap, hvalidate, true_and, and_true, hmethods, List.mem_filterMap,
      List.mem_map, and_assoc]
    constructor
    · rintro ⟨himports, hifaces, htexts⟩
      refine ⟨himports, fun op hop => ⟨htexts _ ⟨op, hop, rfl⟩, fun iface hiface => ?_⟩⟩
      exact hifaces iface ⟨emitMethod op, ⟨op, hop, rfl⟩, hiface⟩
    · rintro ⟨himports, hops⟩
      refine ⟨himports, ?_, ?_⟩
      · rintro iface ⟨m, ⟨op, hop, rfl⟩, hiface⟩
        exact (hops op hop).2 iface hiface
      · rintro m ⟨op, hop, rfl⟩
        exact (hops op hop).1
  rw [htext]
  simp only [allMarks_emitMethod]
  refine ⟨fun h => h.2, fun h => ⟨fun x hx => ?_, h⟩⟩
  obtain ⟨hx, op, hop, t, ht, hr⟩ := mem_modelImports hx
  rw [hx]
  exact ⟨h op hop t ht x.2 hr, hfile op hop t ht x.2 hr (h op hop t ht x.2 hr)⟩

end Marks

/-! ## §4  Resolved references -/

/-- What a mark spells is what the document's model of that schema declares: its type, or
the stem of its file. -/
def Resolves (doc : Document) (own : Option String) : Mention × String → Prop
  | (.ident r, s) => ∃ m, doc.schemas.get r = some m ∧
      s = (emitModel (some doc.schemas) m).name
  | (.file r, s) => ∃ m, doc.schemas.get r = some m ∧ "src/models/" ++ s ++ ".ts" = modelPath m
  | (.own, s) => own = some s

/-- Every mention of a model, in the model files and in the API files, resolves. -/
def ReferencesResolve (doc : Document) : Prop :=
  (∀ x ∈ doc.schemas.models.entries,
    (emitModelFileWithRegistry x.2 (some doc.schemas)).AllMarks
      (Resolves doc (some (emitModel (some doc.schemas) x.2).name))) ∧
  ∀ f ∈ collectOperations doc, f.2.text.AllMarks (Resolves doc none)

theorem name_emitModel (registry : Option SchemaRegistry) (m : Model) :
    (emitModel registry m).name = safeModelName (pascal (modelName m)) := by
  rcases m with o | e
  · unfold emitModel emitObject
    dsimp only
    split
    · rfl
    · split <;> rfl
  · rfl

theorem modelPath_eq_iff {m : Model} {s : String} :
    "src/models/" ++ s ++ ".ts" = modelPath m ↔ s = safeModelName (pascal (modelName m)) := by
  rw [modelPath]
  constructor
  · intro h
    exact Text.append_inj_left (Text.append_inj_right h)
  · rintro rfl
    rfl

theorem resolves_file_iff {doc : Document} {own : Option String} {r s : String} :
    Resolves doc own (.file r, s) ↔ Resolves doc own (.ident r, s) := by
  unfold Resolves
  simp only [modelPath_eq_iff, name_emitModel]

/-- The model is declared under the name that references to the schema write: the names
agree in PascalCase and are not built in, or the model's is and the schema's has the
suffix already. -/
def KeepsName (r : String) (m : Model) : Prop :=
  pascal (modelName m) = pascal r ∧ isTsSdkBuiltinType (pascal r) = false ∨
  isTsSdkBuiltinType (pascal (modelName m)) = true ∧ pascal r = pascal (modelName m) ++ "Model"

theorem keepsName_iff {r : String} {m : Model} :
    KeepsName r m ↔ pascal r = safeModelName (pascal (modelName m)) := by
  unfold KeepsName safeModelName
  by_cases h : isTsSdkBuiltinType (pascal (modelName m)) = true
  · rw [if_pos h]
    constructor
    · rintro (⟨heq, hnot⟩ | ⟨-, heq⟩)
      · rw [← heq, h] at hnot
        cases hnot
      · exact heq
    · exact fun heq => Or.inr ⟨h, heq⟩
  · rw [if_neg h]
    constructor
    · rintro (⟨heq, -⟩ | ⟨hbuiltin, -⟩)
      · exact heq.symm
      · exact absurd hbuiltin h
    · intro heq
      rw [Bool.not_eq_true] at h
      exact Or.inl ⟨heq.symm, by rw [heq, h]⟩

theorem resolves_ident_iff {doc : Document} {own : Option String} {r : String} :
    Resolves doc own (.ident r, pascal r) ↔
      ∃ m, doc.schemas.get r = some m ∧ KeepsName r m := by
  unfold Resolves
  simp only [name_emitModel, keepsName_iff]

theorem mem_collectOperations {doc : Document} {f : String × TagFile} :
    f ∈ collectOperations doc ↔ ∃ tag, (∃ op ∈ doc.operations, groupTag op = tag) ∧
      f = (apiPath (pascal tag),
        emitTagFile tag (doc.operations.filter fun op => groupTag op = tag)) := by
  rw [collectOperations, List.mem_map]
  constructor
  · rintro ⟨⟨tag, ops⟩, hg, rfl⟩
    obtain ⟨hsome, rfl⟩ := BTreeMap.mem_groupBy.mp hg
    exact ⟨tag, hsome, rfl⟩
  · rintro ⟨tag, hsome, rfl⟩
    exact ⟨(tag, _), BTreeMap.mem_groupBy.mpr ⟨hsome, rfl⟩, rfl⟩

/-- Every operation is in the file of its group. -/
theorem exists_tagFile {doc : Document} {op : Operation} (hop : op ∈ doc.operations) :
    ∃ f ∈ collectOperations doc, ∃ ops, f.2 = emitTagFile (groupTag op) ops ∧ op ∈ ops := by
  refine ⟨_, mem_collectOperations.mpr ⟨groupTag op, ⟨op, hop, rfl⟩, rfl⟩, _, rfl, ?_⟩
  exact List.mem_filter.mpr ⟨hop, decide_eq_true rfl⟩

theorem forall_modelMarks_iff {doc : Document} :
    (∀ x ∈ doc.schemas.models.entries,
      (emitModelFileWithRegistry x.2 (some doc.schemas)).AllMarks
        (Resolves doc (some (emitModel (some doc.schemas) x.2).name))) ↔
      ∀ x ∈ doc.schemas.models.entries, ∀ t ∈ renderedTypes x.2, ∀ r ∈ t.refs,
        ∃ m, doc.schemas.get r = some m ∧ KeepsName r m := by
  refine forall₂_congr fun x _ => ?_
  rw [allMarks_emitModelFile fun t _ r _ => resolves_file_iff.mpr]
  simp only [resolves_ident_iff]
  exact and_iff_right rfl

theorem forall_apiMarks_iff {doc : Document} :
    (∀ f ∈ collectOperations doc, f.2.text.AllMarks (Resolves doc none)) ↔
      ∀ op ∈ doc.operations, ∀ t ∈ operationTypes op, ∀ r ∈ t.refs,
        ∃ m, doc.schemas.get r = some m ∧ KeepsName r m := by
  have hfile : ∀ tag ops, (emitTagFile tag ops).text.AllMarks (Resolves doc none) ↔
      ∀ op ∈ ops, ∀ t ∈ operationTypes op, ∀ r ∈ t.refs,
        ∃ m, doc.schemas.get r = some m ∧ KeepsName r m := by
    intro tag ops
    rw [allMarks_emitTagFile fun op _ t _ r _ => resolves_file_iff.mpr]
    simp only [resolves_ident_iff]
  constructor
  · intro h op hop
    obtain ⟨f, hf, ops, htag, hmem⟩ := exists_tagFile hop
    have htext := h f hf
    rw [htag] at htext
    exact (hfile _ _).mp htext op hmem
  · intro h f hf
    obtain ⟨tag, -, rfl⟩ := mem_collectOperations.mp hf
    exact (hfile _ _).mpr fun op hop => h op (List.mem_filter.mp hop).1

/-- **When every model reference of the package resolves.** Exactly when each schema that a
rendered type refers to is declared by a model whose type is written as the reference is. -/
theorem referencesResolve_iff (doc : Document) :
    ReferencesResolve doc ↔
      ∀ r, MentionedIn doc r → ∃ m, doc.schemas.get r = some m ∧ KeepsName r m := by
  unfold ReferencesResolve MentionedIn
  rw [forall_modelMarks_iff, forall_apiMarks_iff]
  constructor
  · rintro ⟨hmodels, hops⟩ r (⟨x, hx, t, ht, hr⟩ | ⟨op, hop, t, ht, hr⟩)
    · exact hmodels x hx t ht r hr
    · exact hops op hop t ht r hr
  · intro h
    exact ⟨fun x hx t ht r hr => h r (Or.inl ⟨x, hx, t, ht, hr⟩),
      fun op hop t ht r hr => h r (Or.inr ⟨op, hop, t, ht, hr⟩)⟩

/-- Where every model bears the name of its schema, only the built-in names are in the way. -/
theorem keepsName_of_named {doc : Document}
    (hnamed : ∀ name m, doc.schemas.get name = some m → modelName m = name) {r : String} :
    (∃ m, doc.schemas.get r = some m ∧ KeepsName r m) ↔
      (∃ m, doc.schemas.get r = some m) ∧ isTsSdkBuiltinType (pascal r) = false := by
  constructor
  · rintro ⟨m, hm, hkeeps⟩
    refine ⟨⟨m, hm⟩, ?_⟩
    rw [KeepsName, hnamed r m hm] at hkeeps
    rcases hkeeps with ⟨-, h⟩ | ⟨-, h⟩
    · exact h
    · have hlen := congrArg (fun s : String => s.toList.length) h
      simp at hlen
  · rintro ⟨⟨m, hm⟩, h⟩
    exact ⟨m, hm, Or.inl ⟨by rw [hnamed r m hm], h⟩⟩

/-- A schema called `ApiError` and one with a property of that type. -/
def builtinNamed : Document :=
  Document.minimal ⟨IndexMap.ofList
    [("ApiError", .object ⟨"ApiError", none, [], none, none, none⟩),
      ("Report", .object ⟨"Report", none,
        [⟨"cause", .reference "ApiError" false none, true, none⟩], none, none, none⟩)]⟩ []

/-- The file of `ApiError` declares `ApiErrorModel`, and that of `Report` imports `ApiError`. -/
theorem builtinNamed_unresolved :
    ¬ ∀ doc : Document, (∀ r, MentionedIn doc r → ∃ m, doc.schemas.get r = some m) →
      (doc.schemas.names.map pascal).Nodup → ReferencesResolve doc := by
  intro h
  have hentries : builtinNamed.schemas.models.entries =
      [("ApiError", .object ⟨"ApiError", none, [], none, none, none⟩),
        ("Report", .object ⟨"Report", none,
          [⟨"cause", .reference "ApiError" false none, true, none⟩], none, none, none⟩)] := rfl
  have hget : builtinNamed.schemas.get "ApiError" =
      some (.object ⟨"ApiError", none, [], none, none, none⟩) := rfl
  have hdefined : ∀ r, MentionedIn builtinNamed r →
      ∃ m, builtinNamed.schemas.get r = some m := by
    rintro r (⟨x, hx, t, ht, hr⟩ | ⟨op, hop, -⟩)
    · rw [hentries] at hx
      simp only [List.mem_cons, List.not_mem_nil, or_false] at hx
      rcases hx with rfl | rfl
      · cases ht
      · obtain rfl := List.mem_singleton.mp ht
        obtain rfl := List.mem_singleton.mp hr
        exact ⟨_, hget⟩
    · cases hop
  have hresolve := h builtinNamed hdefined (by decide)
  have hreport := forall_modelMarks_iff.mp hresolve.1 _
    (by rw [hentries]; exact List.mem_cons_of_mem _ (List.mem_singleton.mpr rfl))
  obtain ⟨m, hm, hkeeps⟩ := hreport _ (List.mem_singleton.mpr rfl) "ApiError"
    (List.mem_singleton.mpr rfl)
  obtain rfl := Option.some.inj (hget.symm.trans hm)
  have hbuiltin : isTsSdkBuiltinType (pascal "ApiError") = true := by decide
  rcases hkeeps with ⟨-, hnot⟩ | ⟨-, hsuffix⟩
  · rw [hbuiltin] at hnot
    cases hnot
  · have hlen := congrArg (fun s : String => s.toList.length) hsuffix
    revert hlen
    decide

end SpecForge.Ts
