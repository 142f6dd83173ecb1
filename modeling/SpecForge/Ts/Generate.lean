import SpecForge.Lib.Affixes
import SpecForge.Ts.References
import SpecForge.Ts.Validate

/-!
# The generated package (`lib.rs`)

`generate` collects the files of all emitters and writes them in parallel. A model file is
named after the model and an API file after its tag, both by PascalCase forms, so two
sources can have one path; nothing looks for that.

- §1 barrels; §2 all files; §3 names with one form; §4 files with one path.
-/

namespace SpecForge.Ts

open Lib

/-! ## §1  Barrels -/

/-- The content of `src/index.ts`: the modules it exports again and the parts of
`createClient`. -/
structure Index where
  reexports : List String
  /-- The API classes imported for the factory, each with its module. -/
  imports : List (String × String)
  /-- The properties of the client object, each with the class it is made of. -/
  properties : List (String × String)

/-- The tags that are written on operations, in PascalCase. -/
def presentTags (doc : Document) : List String :=
  BTreeMap.sortedSet ((doc.operations.filterMap (·.tag)).map pascal)

def runtimeExports : List String :=
  ["./client", "./interceptors", "./errors", "./auth", "./retry", "./paginate", "./concurrency",
   "./dedup", "./idempotency", "./middleware", "./streaming", "./cache", "./validate",
   "./validation-middleware", "./ratelimit", "./telemetry", "./logging", "./service_container"]

def collectIndex (doc : Document) (hasI18n : Bool) : Index where
  reexports := runtimeExports ++
    (doc.schemas.models.entries.map fun x =>
      "./models/" ++ safeModelName (pascal (modelName x.2))) ++
    (if doc.webhooks.isEmpty then [] else ["./webhooks"]) ++
    (if hasI18n then ["./i18n"] else [])
  imports := (presentTags doc).map fun tag => (tag ++ "Api", "./api/" ++ tag)
  properties := (presentTags doc).map fun tag => (camel tag, tag ++ "Api")

/-- The modules that `src/api/index.ts` exports again. -/
def collectApiIndex (doc : Document) : List String :=
  (presentTags doc).map fun tag => "./" ++ tag

/-! ## §2  Files -/

inductive Content where
  /-- A text that no other part of the package is collected from. -/
  | text
  | validators (validators : List ModelValidator)
  | model (text : Marked Mention)
  | api (file : TagFile)
  | index (index : Index)
  | apiIndex (modules : List String)

/-- `package::collect`. -/
def collectPackage : List (String × Content) :=
  ["package.json", "tsconfig.json", "tsup.config.ts", "README.md", ".gitignore"].map
    fun path => (path, .text)

/-- `runtime::collect`. -/
def collectRuntime (doc : Document) : List (String × Content) :=
  (["src/errors.ts", "src/auth.ts", "src/retry.ts", "src/paginate.ts", "src/concurrency.ts",
    "src/dedup.ts", "src/idempotency.ts", "src/middleware.ts", "src/interceptors.ts",
    "src/streaming.ts"].map fun path => (path, .text)) ++
  [("src/validate.ts", .validators (validateSource doc))] ++
  (["src/cache.ts", "src/ratelimit.ts", "src/telemetry.ts", "src/logging.ts",
    "src/validation-middleware.ts", "src/service_container.ts", "src/client.ts"].map
      fun path => (path, .text))

def collectModels (doc : Document) : List (String × Content) :=
  doc.schemas.models.entries.map fun x =>
    (modelPath x.2, .model (emitModelFileWithRegistry x.2 (some doc.schemas)))

/-- The files that `generate` writes, each with its path in the package. -/
def generate (doc : Document) (hasI18n : Bool) : List (String × Content) :=
  collectPackage ++ collectRuntime doc ++ collectModels doc ++
  ((collectOperations doc).map fun f => (f.1, .api f.2)) ++
  (if doc.webhooks.isEmpty then [] else [("src/webhooks.ts", .text)]) ++
  (if hasI18n then [("src/i18n.ts", .text)] else []) ++
  [("src/index.ts", .index (collectIndex doc hasI18n)),
   ("src/api/index.ts", .apiIndex (collectApiIndex doc)),
   ("specforge-version.json", .text)]

/-! ## §3  Names with one form -/

/-- The names have one PascalCase form, or that of one is built in and the other has it with
the suffix `Model`. -/
def SameIdentifier (a b : String) : Prop :=
  pascal a = pascal b ∨
    (isTsSdkBuiltinType (pascal a) = true ∧ pascal b = pascal a ++ "Model") ∨
    (isTsSdkBuiltinType (pascal b) = true ∧ pascal a = pascal b ++ "Model")

/-- No built-in name ends as the suffix does. -/
theorem not_builtin_suffixed (name : String) : isTsSdkBuiltinType (name ++ "Model") = false := by
  rw [Bool.eq_false_iff]
  intro h
  have hnone : Text.NoneEnds "Model" builtinTypes := Text.noneEnds_of_bytes (by decide +kernel)
  exact hnone.append_not_mem name (by simpa [isTsSdkBuiltinType] using h)

theorem safeModelName_eq_iff {a b : String} :
    safeModelName (pascal a) = safeModelName (pascal b) ↔ SameIdentifier a b := by
  unfold SameIdentifier safeModelName
  have hsuffix : ∀ {v w : String}, isTsSdkBuiltinType v = true → w = v ++ "Model" →
      isTsSdkBuiltinType w = false := by
    rintro v w - rfl
    exact not_builtin_suffixed v
  rcases ha : isTsSdkBuiltinType (pascal a) with _ | _ <;>
    rcases hb : isTsSdkBuiltinType (pascal b) with _ | _
  · simp
  · simp only [Bool.false_eq_true, if_false, if_true, false_and, true_and, false_or]
    refine (or_iff_right fun heq => ?_).symm
    rw [heq, hb] at ha
    cases ha
  · simp only [Bool.false_eq_true, if_false, if_true, false_and, true_and, or_false]
    constructor
    · exact fun heq => Or.inr heq.symm
    · rintro (heq | heq)
      · rw [heq, hb] at ha
        cases ha
      · exact heq.symm
  · simp only [if_true, true_and]
    constructor
    · exact fun heq => Or.inl (Text.append_inj_right heq)
    · rintro (heq | heq | heq)
      · rw [heq]
      · rw [hsuffix ha heq] at hb
        cases hb
      · rw [hsuffix hb heq] at ha
        cases ha

theorem modelPath_eq_modelPath_iff {m m' : Model} :
    modelPath m = modelPath m' ↔ SameIdentifier (modelName m) (modelName m') := by
  rw [← safeModelName_eq_iff]
  exact modelPath_eq_iff

theorem apiPath_eq_iff {s t : String} : apiPath s = apiPath t ↔ s = t := by
  rw [apiPath, apiPath]
  constructor
  · exact fun h => Text.append_inj_left (Text.append_inj_right h)
  · rintro rfl
    rfl

/-! ## §4  Files with one path -/

/-- The paths that do not depend on names in the document. -/
def fixedPaths (hasWebhooks hasI18n : Bool) : List String :=
  ["package.json", "tsconfig.json", "tsup.config.ts", "README.md", ".gitignore", "src/errors.ts",
   "src/auth.ts", "src/retry.ts", "src/paginate.ts", "src/concurrency.ts", "src/dedup.ts",
   "src/idempotency.ts", "src/middleware.ts", "src/interceptors.ts", "src/streaming.ts",
   "src/validate.ts", "src/cache.ts", "src/ratelimit.ts", "src/telemetry.ts", "src/logging.ts",
   "src/validation-middleware.ts", "src/service_container.ts", "src/client.ts"] ++
  (if hasWebhooks then ["src/webhooks.ts"] else []) ++
  (if hasI18n then ["src/i18n.ts"] else []) ++
  ["src/index.ts", "src/api/index.ts", "specforge-version.json"]

theorem fixedPaths_sublist (hasWebhooks hasI18n : Bool) :
    (fixedPaths hasWebhooks hasI18n).Sublist (fixedPaths true true) := by
  have hoption : ∀ (b : Bool) (path : String),
      (if b then [path] else []).Sublist (if true then [path] else []) := by
    intro b path
    rcases b with _ | _
    · exact List.nil_sublist _
    · exact List.Sublist.refl _
  refine List.Sublist.append (List.Sublist.append (List.Sublist.append ?_ ?_) ?_) ?_
  · exact List.Sublist.refl _
  · exact hoption hasWebhooks _
  · exact hoption hasI18n _
  · exact List.Sublist.refl _

theorem nodup_fixedPaths (hasWebhooks hasI18n : Bool) :
    (fixedPaths hasWebhooks hasI18n).Nodup :=
  List.Nodup.sublist (fixedPaths_sublist hasWebhooks hasI18n) (by decide +kernel)

theorem fixedPath_spec {hasWebhooks hasI18n : Bool} {path : String}
    (h : path ∈ fixedPaths hasWebhooks hasI18n) :
    Text.startsWith "src/models/" path = false ∧
      (Text.startsWith "src/api/" path = true → path = "src/api/index.ts") := by
  have hall : ∀ p ∈ fixedPaths true true, ¬ Utf8.bytes "src/models/" <+: Utf8.bytes p ∧
      (Utf8.bytes "src/api/" <+: Utf8.bytes p → p = "src/api/index.ts") := by decide +kernel
  obtain ⟨hmodels, hapi⟩ := hall path ((fixedPaths_sublist hasWebhooks hasI18n).subset h)
  refine ⟨Text.startsWith_eq_false_of_bytes hmodels, fun hstart => hapi ?_⟩
  exact Utf8.bytes_prefix (Text.prefix_iff.mpr (Text.startsWith_iff.mp hstart))

/-- The paths of the API files. -/
def apiPaths (doc : Document) : List String :=
  (BTreeMap.groupBy groupTag doc.operations).map fun g => apiPath (pascal g.1)

theorem perm_paths (doc : Document) (hasI18n : Bool) :
    ((generate doc hasI18n).map Prod.fst).Perm
      (fixedPaths (!doc.webhooks.isEmpty) hasI18n ++
        ((doc.schemas.models.entries.map fun x => modelPath x.2) ++ apiPaths doc)) := by
  have hpaths : (generate doc hasI18n).map Prod.fst =
      (collectPackage.map Prod.fst ++ (collectRuntime doc).map Prod.fst) ++
      ((doc.schemas.models.entries.map fun x => modelPath x.2) ++ apiPaths doc) ++
      ((if !doc.webhooks.isEmpty then ["src/webhooks.ts"] else []) ++
        (if hasI18n then ["src/i18n.ts"] else []) ++
        ["src/index.ts", "src/api/index.ts", "specforge-version.json"]) := by
    simp only [generate, collectModels, apiPaths, collectOperations, List.map_append, List.map_map,
      Function.comp_def, List.append_assoc]
    rcases doc.webhooks.isEmpty with _ | _ <;> rcases hasI18n with _ | _ <;> rfl
  have hfixed : fixedPaths (!doc.webhooks.isEmpty) hasI18n =
      (collectPackage.map Prod.fst ++ (collectRuntime doc).map Prod.fst) ++
      ((if !doc.webhooks.isEmpty then ["src/webhooks.ts"] else []) ++
        (if hasI18n then ["src/i18n.ts"] else []) ++
        ["src/index.ts", "src/api/index.ts", "specforge-version.json"]) := by
    simp only [fixedPaths, List.append_assoc]
    rfl
  have hmiddle : ∀ A X B : List String, (A ++ X ++ B).Perm (A ++ B ++ X) := by
    intro A X B
    rw [List.append_assoc, List.append_assoc]
    exact List.Perm.append_left A List.perm_append_comm
  rw [hpaths, hfixed]
  exact hmiddle _ _ _

theorem pascal_ne_index (tag : String) : pascal tag ≠ "index" := by
  intro h
  have hshape := pascalShape_pascal tag
  rw [h] at hshape
  rcases hshape.2 with hupper | ⟨hunderscore, -⟩
  · exact absurd hupper (by decide)
  · exact absurd hunderscore (by decide)

/-- Files of different kinds never share a path. -/
theorem nodup_paths_iff (doc : Document) (hasI18n : Bool) :
    ((generate doc hasI18n).map Prod.fst).Nodup ↔
      (doc.schemas.models.entries.map fun x => modelPath x.2).Nodup ∧ (apiPaths doc).Nodup := by
  have hmodel : ∀ p ∈ doc.schemas.models.entries.map fun x => modelPath x.2,
      Text.startsWith "src/models/" p = true := by
    rw [List.forall_mem_map]
    intro x _
    rw [modelPath, String.append_assoc, Text.startsWith_append]
  have hapi : ∀ p ∈ apiPaths doc, Text.startsWith "src/api/" p = true ∧
      Text.startsWith "src/models/" p = false ∧ p ≠ "src/api/index.ts" := by
    rw [apiPaths, List.forall_mem_map]
    intro g _
    refine ⟨?_, ?_, ?_⟩
    · rw [apiPath, String.append_assoc, Text.startsWith_append]
    · rw [apiPath, String.append_assoc]
      exact Text.Apart.startsWith_eq_false (by decide) _
    · intro heq
      exact pascal_ne_index g.1 (apiPath_eq_iff.mp (heq.trans (show _ = apiPath "index" from rfl)))
  rw [(perm_paths doc hasI18n).nodup_iff, List.nodup_append, List.nodup_append]
  constructor
  · exact fun h => ⟨h.2.1.1, h.2.1.2.1⟩
  · rintro ⟨hmodels, hapis⟩
    refine ⟨nodup_fixedPaths _ _, ⟨hmodels, hapis, ?_⟩, ?_⟩
    · rintro p hp q hq rfl
      have hnot := (hapi p hq).2.1
      rw [hmodel p hp] at hnot
      cases hnot
    · rintro p hp q hq rfl
      obtain ⟨hnot, hindex⟩ := fixedPath_spec hp
      rcases List.mem_append.mp hq with hq | hq
      · rw [hmodel p hq] at hnot
        cases hnot
      · exact (hapi p hq).2.2 (hindex (hapi p hq).1)

/-- Distinct schemas have distinct files and types, distinct groups of operations distinct
files and classes, and no two files have one path. -/
structure NoOverwrite (doc : Document) (hasI18n : Bool) : Prop where
  models : doc.schemas.models.entries.Pairwise fun x y => modelPath x.2 ≠ modelPath y.2 ∧
    (emitModel (some doc.schemas) x.2).name ≠ (emitModel (some doc.schemas) y.2).name
  tags : ∀ g ∈ BTreeMap.groupBy groupTag doc.operations,
    ∀ g' ∈ BTreeMap.groupBy groupTag doc.operations, g.1 ≠ g'.1 →
      apiPath (pascal g.1) ≠ apiPath (pascal g'.1) ∧
      (emitTagFile g.1 g.2).className ≠ (emitTagFile g'.1 g'.2).className
  paths : ((generate doc hasI18n).map Prod.fst).Nodup

theorem pairwise_models_iff {doc : Document} :
    (doc.schemas.models.entries.Pairwise fun x y => modelPath x.2 ≠ modelPath y.2 ∧
      (emitModel (some doc.schemas) x.2).name ≠ (emitModel (some doc.schemas) y.2).name) ↔
      doc.schemas.models.entries.Pairwise fun x y =>
        ¬ SameIdentifier (modelName x.2) (modelName y.2) := by
  refine List.Pairwise.iff fun x y => ?_
  rw [ne_eq, ne_eq, modelPath_eq_modelPath_iff, name_emitModel, name_emitModel,
    safeModelName_eq_iff, and_self]

theorem nodup_modelPaths_iff {doc : Document} :
    (doc.schemas.models.entries.map fun x => modelPath x.2).Nodup ↔
      doc.schemas.models.entries.Pairwise fun x y =>
        ¬ SameIdentifier (modelName x.2) (modelName y.2) := by
  rw [List.Nodup, List.pairwise_map]
  refine List.Pairwise.iff fun x y => ?_
  rw [ne_eq, modelPath_eq_modelPath_iff]

/-- The tags under which operations are grouped. -/
theorem mem_groupTags {doc : Document} {tag : String} :
    (∃ g ∈ BTreeMap.groupBy groupTag doc.operations, g.1 = tag) ↔
      ∃ op ∈ doc.operations, groupTag op = tag := by
  constructor
  · rintro ⟨⟨t, ops⟩, hg, rfl⟩
    exact (BTreeMap.mem_groupBy.mp hg).1
  · intro h
    exact ⟨(tag, _), BTreeMap.mem_groupBy.mpr ⟨h, rfl⟩, rfl⟩

theorem nodup_apiPaths_iff {doc : Document} :
    (apiPaths doc).Nodup ↔ ∀ op ∈ doc.operations, ∀ op' ∈ doc.operations,
      pascal (groupTag op) = pascal (groupTag op') → groupTag op = groupTag op' := by
  have hkeys := (BTreeMap.sorted_groupBy groupTag doc.operations).nodup
  have hpaths : apiPaths doc =
      ((BTreeMap.groupBy groupTag doc.operations).map Prod.fst).map fun t => apiPath (pascal t) := by
    rw [apiPaths, List.map_map]
    rfl
  rw [hpaths, List.nodup_map_iff_inj_on hkeys]
  have hmem : ∀ tag, tag ∈ (BTreeMap.groupBy groupTag doc.operations).map Prod.fst ↔
      ∃ op ∈ doc.operations, groupTag op = tag := by
    intro tag
    rw [← mem_groupTags, List.mem_map]
  constructor
  · intro h op hop op' hop' heq
    exact h _ ((hmem _).mpr ⟨op, hop, rfl⟩) _ ((hmem _).mpr ⟨op', hop', rfl⟩) (by rw [heq])
  · intro h t ht t' ht' heq
    obtain ⟨op, hop, rfl⟩ := (hmem t).mp ht
    obtain ⟨op', hop', rfl⟩ := (hmem t').mp ht'
    exact h op hop op' hop' (apiPath_eq_iff.mp heq)

/-- **No file overwrites another** exactly when no two models and no two groups of operations
have one identifier. -/
theorem noOverwrite_iff (doc : Document) (hasI18n : Bool) :
    NoOverwrite doc hasI18n ↔
      (doc.schemas.models.entries.Pairwise fun x y =>
        ¬ SameIdentifier (modelName x.2) (modelName y.2)) ∧
      ∀ op ∈ doc.operations, ∀ op' ∈ doc.operations,
        pascal (groupTag op) = pascal (groupTag op') → groupTag op = groupTag op' := by
  constructor
  · rintro ⟨hmodels, -, hpaths⟩
    exact ⟨pairwise_models_iff.mp hmodels,
      nodup_apiPaths_iff.mp ((nodup_paths_iff doc hasI18n).mp hpaths).2⟩
  · rintro ⟨hmodels, htags⟩
    refine ⟨pairwise_models_iff.mpr hmodels, ?_,
      (nodup_paths_iff doc hasI18n).mpr
        ⟨nodup_modelPaths_iff.mpr hmodels, nodup_apiPaths_iff.mpr htags⟩⟩
    intro g hg g' hg' hne
    obtain ⟨op, hop, hg⟩ := mem_groupTags.mp ⟨g, hg, rfl⟩
    obtain ⟨op', hop', hg'⟩ := mem_groupTags.mp ⟨g', hg', rfl⟩
    have hpascal : pascal g.1 ≠ pascal g'.1 := by
      intro heq
      rw [← hg, ← hg'] at heq hne
      exact hne (htags op hop op' hop' heq)
    exact ⟨fun heq => hpascal (apiPath_eq_iff.mp heq),
      fun heq => hpascal (Text.append_inj_right heq)⟩

/-- Two spellings of one word. -/
def twoPets : Document :=
  Document.minimal ⟨IndexMap.ofList [("pet", .object ⟨"pet", none, [], none, none, none⟩),
    ("Pet", .object ⟨"Pet", none, [], none, none, none⟩)]⟩ []

/-- Both have the file `src/models/Pet.ts`. -/
theorem twoPets_overwritten : ¬ ∀ (doc : Document) (hasI18n : Bool), NoOverwrite doc hasI18n := by
  intro h
  have hmodels := (h twoPets false).models
  have hentries : twoPets.schemas.models.entries =
      [("pet", .object ⟨"pet", none, [], none, none, none⟩),
        ("Pet", .object ⟨"Pet", none, [], none, none, none⟩)] := rfl
  rw [hentries, List.pairwise_pair] at hmodels
  refine hmodels.1 (modelPath_eq_modelPath_iff.mpr (Or.inl ?_))
  decide +kernel

end SpecForge.Ts
