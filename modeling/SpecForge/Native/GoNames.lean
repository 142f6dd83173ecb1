import Mathlib.Data.List.Perm.Basic
import SpecForge.Lib.Affixes
import SpecForge.Native.FiniteTypes

/-!
# The names of the Go package

All files of the generated package share one block of names. Types, constants and functions are
named after schemas, values and webhooks by `pascal` and fixed affixes; a schema named like one of
`sdkBuiltinTypes` gets a suffix.

- §1 the names that every package declares; §2 those of a document; §3 the fields and methods of
  `Client`.
- §4 what `exportIdent` keeps apart; §5 families of names; §6 when each name is declared once;
  §7 when the client has each name once.

Of `var _ = …` no name is declared. Methods of other types than `Client` are left out.
-/

namespace SpecForge.Go

open Native Lib
open Lib.Text (Apart ApartEnds NoOverlap NoneStarts NoneEnds)

/-! ## §1  The fixed files -/

def clientNames : List String :=
  ["AuthProvider", "BearerAuth", "StaticBearer", "APIKeyAuth", "ResponseTransformer",
   "ServiceContainer", "NewServiceContainer", "Client", "NewClient", "APIError", "truncate",
   "pathEscape", "queryValues", "fmtInt", "fmtInt64", "fmtBool", "fmtFloat", "anyString"]

def retryNames : List String :=
  ["RetryOptions", "DefaultRetryOptions", "isRetriableMethod", "isRetriable", "backoffDelay"]

def paginateNames : List String :=
  ["CursorPage", "CursorPaginate", "OffsetPage", "OffsetPaginate"]

def concurrencyNames : List String := ["Semaphore", "NewSemaphore"]

def dedupNames : List String :=
  ["RequestDeduper", "dedupeCall", "NewRequestDeduper", "isDedupeMethod"]

def middlewareNames : List String :=
  ["MiddlewareRequest", "MiddlewareResponse", "Middleware", "ComposeMiddleware",
   "StreamMiddleware"]

def interceptorsNames : List String := ["RequestInterceptor", "ResponseInterceptor"]

def idempotencyNames : List String :=
  ["IdempotencyHeader", "IsIdempotencyCandidate", "NewIdempotencyKey", "nonceCounter",
   "nonceFallback"]

def streamingNames : List String :=
  ["ServerSentEvent", "StreamLines", "SseIterator", "NewSseIterator", "DrainAndClose",
   "ReadAllBody"]

def cacheNames : List String := ["CacheEntry", "ResponseCache", "NewResponseCache"]

def ratelimitNames : List String :=
  ["RateLimiter", "TokenBucket", "NewTokenBucket", "SlidingWindow", "NewSlidingWindow",
   "minFloat"]

def telemetryNames : List String :=
  ["TelemetryHooks", "MetricsCollector", "NewMetricsCollector", "Metrics"]

def loggingNames : List String :=
  ["Logger", "ConsoleLogger", "NewConsoleLogger", "noopLogger", "NoopLogger"]

def validationMiddlewareNames : List String :=
  ["EndpointSchema", "RouteSchemaMap", "matchesPath", "ValidationMiddleware"]

/-! ## §2  The files of a document -/

/-- `emit_validate`: around the validators stand two types and a helper. -/
def validateNames (models : List Model) : List String :=
  ["ValidationError", "ValidationErrors"] ++
    (models.map fun m => "Validate" ++ exportIdent m.name) ++ ["validateObject"]

def constNames : Model → List String
  | .enum e => e.variants.map fun v => exportIdent e.name ++ pascal v.value
  | .object _ => []

def shapeDiscriminator (o : ObjectModel) : Option Discriminator :=
  match o.shapeType with
  | some (.composition _ _ discriminator) => discriminator
  | _ => none

/-- The functions next to a union, unless it has no arms. -/
def unionFunctions (o : ObjectModel) : List String :=
  let name := exportIdent o.name
  match unionMembers o with
  | none => []
  | some members =>
      if (referenceArms members).isEmpty then []
      else match shapeDiscriminator o with
        | some _ => ["New" ++ name, name ++ "Discriminant"]
        | none => ["New" ++ name ++ "FromJSON"]

def modelNames : Model → List String
  | .enum e => exportIdent e.name :: constNames (.enum e)
  | .object o => exportIdent o.name :: unionFunctions o

/-- `webhooks.go` is written only if there are any. -/
def webhooksNames (webhooks : List Webhook) : List String :=
  if webhooks.isEmpty then [] else webhooks.map payloadName ++ ["WebhookHandler"]

/-- The names that the files of the package declare, file by file. -/
def packageNames (doc : Document) : List String :=
  clientNames ++ retryNames ++ paginateNames ++ concurrencyNames ++ dedupNames ++
    middlewareNames ++ interceptorsNames ++ idempotencyNames ++ streamingNames ++ cacheNames ++
    ratelimitNames ++ telemetryNames ++ loggingNames ++ validateNames doc.schemas.models.values ++
    validationMiddlewareNames ++ doc.schemas.models.values.flatMap modelNames ++
    webhooksNames doc.webhooks

/-! ## §3  The client -/

def clientFields : List String :=
  ["BaseURL", "HTTPClient", "Header", "Auth", "Retry", "Timeout", "MaxConcurrent", "Dedupe",
   "Idempotency", "Validation", "Cache", "RateLimiter", "Logger", "Telemetry", "Middleware",
   "StreamMiddleware", "ResponseTransformers", "RequestInterceptors", "ResponseInterceptors",
   "sem", "deduper", "BearerToken", "APIKey", "APIKeyHeader"]

def clientMethods : List String :=
  ["WithBaseURL", "WithBearerToken", "WithAuth", "WithAPIKey", "WithRetry", "WithTimeout",
   "WithMaxConcurrent", "WithDedupe", "Use", "UseStream", "WithIdempotency", "WithValidation",
   "WithCache", "WithRateLimiter", "WithTelemetry", "WithHTTPClient", "WithServiceContainer",
   "WithResponseTransformers", "WithRequestInterceptors", "WithResponseInterceptors", "DoJSON",
   "DoStream", "doWithRetry", "buildHeaders", "doOnce", "doOnceStream"]

/-- The name of `emit_method`. -/
def methodName (op : Operation) : String := exportIdent op.operationId

/-- The marker methods of a union, each with the type it is a method of. -/
def markerMethods (o : ObjectModel) : List (String × String) :=
  match unionMembers o with
  | none => []
  | some members => (referenceArms members).map fun arm =>
      (exportIdent arm, "is" ++ exportIdent o.name)

/-- What `Client` has under a name. -/
def clientMembers (doc : Document) : List String :=
  clientFields ++ clientMethods ++ doc.operations.map methodName ++
    ((doc.schemas.models.values.flatMap fun
      | .object o => markerMethods o
      | .enum _ => []).filter (·.1 == "Client")).map Prod.snd

/-- Every name is declared once, in the package and of the client. -/
def DeclaresOnce (doc : Document) : Prop :=
  (packageNames doc).Nodup ∧ (clientMembers doc).Nodup

/-! ## §4  Suffixed names -/

/-- A PascalCase name with the suffix, if it needs one. -/
def suffixed (name : String) : String := if isSdkBuiltinType name then name ++ "Model" else name

theorem exportIdent_eq (input : String) : exportIdent input = suffixed (pascal input) := rfl

theorem suffixed_of_mem {name : String} (h : name ∈ sdkBuiltinTypes) :
    suffixed name = name ++ "Model" :=
  if_pos (List.contains_iff_mem.mpr h)

theorem suffixed_of_not_mem {name : String} (h : name ∉ sdkBuiltinTypes) : suffixed name = name :=
  if_neg fun hmem => h (List.contains_iff_mem.mp hmem)

theorem noneEnds_sdkBuiltinTypes : NoneEnds "Model" sdkBuiltinTypes :=
  Text.noneEnds_of_bytes (by decide +kernel)

/-- A name without the suffix is what a name comes to that needs none. -/
theorem suffixed_mem_iff {names : List String} (h : NoneEnds "Model" names) {name : String} :
    suffixed name ∈ names ↔ name ∈ names ∧ name ∉ sdkBuiltinTypes := by
  by_cases hname : name ∈ sdkBuiltinTypes
  · rw [suffixed_of_mem hname]
    exact iff_of_false (h.append_not_mem name) fun hmem => hmem.2 hname
  · rw [suffixed_of_not_mem hname]
    exact (and_iff_left hname).symm

theorem suffixed_not_mem_sdkBuiltinTypes (name : String) : suffixed name ∉ sdkBuiltinTypes :=
  fun h => ((suffixed_mem_iff noneEnds_sdkBuiltinTypes).mp h).2
    ((suffixed_mem_iff noneEnds_sdkBuiltinTypes).mp h).1

/-- Different names stay different, unless one is the other one with its suffix. -/
theorem nodup_map_suffixed {names : List String} : (names.map suffixed).Nodup ↔
    names.Nodup ∧ ∀ name ∈ sdkBuiltinTypes, name ∈ names → name ++ "Model" ∉ names := by
  have hmodel : ∀ name, suffixed (name ++ "Model") = name ++ "Model" := fun name =>
    suffixed_of_not_mem (noneEnds_sdkBuiltinTypes.append_not_mem name)
  constructor
  · intro h
    refine ⟨h.of_map, fun name hbuiltin hname hmem => ?_⟩
    have heq : name = name ++ "Model" := by
      apply List.inj_on_of_nodup_map h hname hmem
      rw [suffixed_of_mem hbuiltin, hmodel]
    rw [heq] at hbuiltin
    exact noneEnds_sdkBuiltinTypes.append_not_mem name hbuiltin
  · rintro ⟨hnd, hmodels⟩
    refine hnd.map_on fun x hx y hy hxy => ?_
    by_cases hbx : x ∈ sdkBuiltinTypes
    · rw [suffixed_of_mem hbx] at hxy
      by_cases hby : y ∈ sdkBuiltinTypes
      · rw [suffixed_of_mem hby] at hxy
        exact Text.append_inj_right hxy
      · rw [suffixed_of_not_mem hby] at hxy
        exact absurd (hxy ▸ hy) (hmodels x hbx hx)
    · rw [suffixed_of_not_mem hbx] at hxy
      by_cases hby : y ∈ sdkBuiltinTypes
      · rw [suffixed_of_mem hby] at hxy
        exact absurd (hxy ▸ hx) (hmodels y hby hy)
      · rw [suffixed_of_not_mem hby] at hxy
        exact hxy

theorem payloadName_eq (wh : Webhook) : payloadName wh = pascal wh.name ++ "WebhookPayload" := by
  rw [payloadName, exportIdent_eq, pascal_pascal_append]
  · refine suffixed_of_not_mem fun hmem => ?_
    have hnone : NoneEnds "WebhookPayload" sdkBuiltinTypes :=
      Text.noneEnds_of_bytes (by decide +kernel)
    exact hnone.append_not_mem _ hmem
  · simp

/-! ## §5  Families -/

def builtinNames : List String :=
  clientNames ++ retryNames ++ paginateNames ++ concurrencyNames ++ dedupNames ++
    middlewareNames ++ interceptorsNames ++ idempotencyNames ++ streamingNames ++ cacheNames ++
    ratelimitNames ++ telemetryNames ++ loggingNames ++
    ["ValidationError", "ValidationErrors", "validateObject"] ++ validationMiddlewareNames

def handlerNames (webhooks : List Webhook) : List String :=
  if webhooks.isEmpty then [] else ["WebhookHandler"]

def fixedNames (webhooks : List Webhook) : List String := builtinNames ++ handlerNames webhooks

def typeNames (models : List Model) : List String := models.map fun m => exportIdent m.name

def allConsts (models : List Model) : List String := models.flatMap constNames

/-- A union with arms, told apart by a discriminator if there is one. -/
def isUnion (discriminated : Bool) : Model → Bool
  | .object o =>
      ((unionMembers o).any fun members => !(referenceArms members).isEmpty) &&
        (shapeDiscriminator o).isSome == discriminated
  | .enum _ => false

/-- The type names of these unions. -/
def unions (discriminated : Bool) (models : List Model) : List String :=
  typeNames (models.filter (isUnion discriminated))

def validators (models : List Model) : List String := (typeNames models).map ("Validate" ++ ·)

def constructors (models : List Model) : List String := (unions true models).map ("New" ++ ·)

def discriminants (models : List Model) : List String :=
  (unions true models).map (· ++ "Discriminant")

def decoders (models : List Model) : List String :=
  ((unions false models).map (· ++ "FromJSON")).map ("New" ++ ·)

def webhookForms (webhooks : List Webhook) : List String := webhooks.map fun wh => pascal wh.name

def payloads (webhooks : List Webhook) : List String :=
  (webhookForms webhooks).map (· ++ "WebhookPayload")

theorem decoders_eq (models : List Model) :
    decoders models = ((unions false models).map ("New" ++ ·)).map (· ++ "FromJSON") := by
  rw [decoders, List.map_map, List.map_map]
  exact List.map_congr_left fun u _ => String.append_assoc.symm

theorem unionFunctions_eq (o : ObjectModel) : unionFunctions o =
    (if isUnion true (.object o) then
      ["New" ++ exportIdent o.name, exportIdent o.name ++ "Discriminant"] else []) ++
    if isUnion false (.object o) then ["New" ++ (exportIdent o.name ++ "FromJSON")] else [] := by
  cases hmembers : unionMembers o with
  | none => simp [unionFunctions, isUnion, hmembers]
  | some members =>
      cases harms : (referenceArms members).isEmpty with
      | true => simp [unionFunctions, isUnion, hmembers, harms]
      | false =>
          cases hdisc : shapeDiscriminator o <;>
            simp [unionFunctions, isUnion, hmembers, harms, hdisc, String.append_assoc]

theorem perm_modelNames (models : List Model) : (models.flatMap modelNames).Perm
    (typeNames models ++ allConsts models ++ constructors models ++ discriminants models ++
      decoders models) := by
  rw [List.perm_iff_count]
  intro name
  induction models with
  | nil => rfl
  | cons m models ih =>
      have hhead : (modelNames m).count name = [exportIdent m.name].count name +
          (constNames m).count name +
          (if isUnion true m then ["New" ++ exportIdent m.name] else []).count name +
          (if isUnion true m then [exportIdent m.name ++ "Discriminant"] else []).count name +
          (if isUnion false m then
            ["New" ++ (exportIdent m.name ++ "FromJSON")] else []).count name := by
        cases m with
        | enum e => simp [modelNames, isUnion, List.count_cons, Model.name, Nat.add_comm]
        | object o =>
            rw [modelNames, unionFunctions_eq, constNames, Model.name]
            cases isUnion true (.object o) <;> cases isUnion false (.object o) <;>
              simp only [if_true, if_false, Bool.false_eq_true, List.count_cons, List.count_append,
                List.count_nil] <;> omega
      simp only [typeNames, allConsts, constructors, discriminants, decoders, unions,
        List.flatMap_cons, List.map_cons, List.count_append, List.filter_cons] at ih ⊢
      rw [ih, hhead]
      cases isUnion true m <;> cases isUnion false m <;>
        simp only [if_true, if_false, Bool.false_eq_true, List.map_cons, List.count_cons,
          List.count_nil] <;> omega

/-- All names of a package, family by family. -/
def families (doc : Document) : List (List String) :=
  let models := doc.schemas.models.values
  [fixedNames doc.webhooks, typeNames models, validators models, allConsts models,
   constructors models, discriminants models, decoders models, payloads doc.webhooks]

theorem perm_packageNames (doc : Document) : (packageNames doc).Perm (families doc).flatten := by
  have hwebhooks : (webhooksNames doc.webhooks).Perm
      (payloads doc.webhooks ++ handlerNames doc.webhooks) := by
    rw [webhooksNames, handlerNames, payloads, webhookForms, List.map_map,
      List.map_congr_left fun wh _ => payloadName_eq wh]
    cases doc.webhooks with
    | nil => rfl
    | cons wh whs => rfl
  have hvalidate : (validateNames doc.schemas.models.values).Perm
      (["ValidationError", "ValidationErrors", "validateObject"] ++
        validators doc.schemas.models.values) := by
    rw [validateNames, validators, typeNames, List.map_map]
    rw [List.append_assoc]
    exact List.perm_append_comm.append_left ["ValidationError", "ValidationErrors"]
  rw [List.perm_iff_count]
  intro name
  have hmodels := (perm_modelNames doc.schemas.models.values).count_eq name
  have hwebhooks := hwebhooks.count_eq name
  have hvalidate := hvalidate.count_eq name
  delta packageNames families fixedNames builtinNames
  simp only [List.flatten_cons, List.flatten_nil, List.count_append, List.append_nil]
    at hmodels hwebhooks hvalidate ⊢
  omega

/-! ## §6  Names that are declared once -/

theorem handler_mem_sdkBuiltinTypes : "WebhookHandler" ∈ sdkBuiltinTypes := by decide

theorem fixedNames_sublist (webhooks : List Webhook) :
    (fixedNames webhooks).Sublist (builtinNames ++ ["WebhookHandler"]) := by
  refine (List.Sublist.refl builtinNames).append ?_
  unfold handlerNames
  split
  · exact List.nil_sublist _
  · exact List.Sublist.refl _

theorem nodup_builtinNames : (builtinNames ++ ["WebhookHandler"]).Nodup := by decide +kernel

section Fixed

variable {webhooks : List Webhook}

/-- What the affixes can make of a schema or a webhook is none of the fixed names, apart from two
constructors. -/
theorem affixes_fixedNames {name : String} (h : name ∈ fixedNames webhooks) :
    ¬ Utf8.bytes "Validate" <+: Utf8.bytes name ∧
      ¬ Utf8.bytes "Discriminant" <:+ Utf8.bytes name ∧
      ¬ Utf8.bytes "FromJSON" <:+ Utf8.bytes name ∧
      ¬ Utf8.bytes "WebhookPayload" <:+ Utf8.bytes name ∧
      ¬ Utf8.bytes "Model" <:+ Utf8.bytes name ∧ (Utf8.bytes "New" <+: Utf8.bytes name →
        name ∈ ("ConsoleLogger" :: "IdempotencyKey" :: sdkBuiltinTypes).map ("New" ++ ·)) := by
  replace h : name ∈ builtinNames ++ ["WebhookHandler"] := (fixedNames_sublist webhooks).subset h
  revert name
  decide +kernel

/-- A fixed name that is a constructor is one of the listed types' or one of two others. -/
theorem constructed_of_mem_fixedNames {r : String} (h : "New" ++ r ∈ fixedNames webhooks) :
    r ∈ "ConsoleLogger" :: "IdempotencyKey" :: sdkBuiltinTypes := by
  have hprefix : Utf8.bytes "New" <+: Utf8.bytes ("New" ++ r) :=
    Utf8.bytes_prefix (Text.prefix_iff.mpr ⟨r, rfl⟩)
  obtain ⟨t, ht, heq⟩ := List.mem_map.mp ((affixes_fixedNames h).2.2.2.2.2 hprefix)
  rw [← Text.append_inj_left heq]
  exact ht

theorem mem_fixedNames_of_unlisted {name : String} (h : name ∉ sdkBuiltinTypes) :
    name ∈ fixedNames webhooks ↔ name ∈ builtinNames := by
  rw [fixedNames, List.mem_append]
  refine or_iff_left fun hmem => h ?_
  unfold handlerNames at hmem
  split at hmem
  · cases hmem
  · exact List.mem_singleton.mp hmem ▸ handler_mem_sdkBuiltinTypes

theorem disjoint_fixed_types {models : List Model} :
    (fixedNames webhooks).Disjoint (typeNames models) ↔
      ∀ m ∈ models, pascal m.name ∈ builtinNames → pascal m.name ∈ sdkBuiltinTypes := by
  have hsuffix : NoneEnds "Model" (fixedNames webhooks) :=
    Text.noneEnds_of_bytes fun name h => (affixes_fixedNames h).2.2.2.2.1
  constructor
  · intro h m hm hbuiltin
    by_contra hlist
    refine h ((mem_fixedNames_of_unlisted hlist).mpr hbuiltin) (List.mem_map.mpr ⟨m, hm, ?_⟩)
    exact suffixed_of_not_mem hlist
  · intro h name hfixed hmem
    obtain ⟨m, hm, rfl⟩ := List.mem_map.mp hmem
    obtain ⟨hform, hlist⟩ := (suffixed_mem_iff hsuffix).mp hfixed
    exact hlist (h m hm ((mem_fixedNames_of_unlisted hlist).mp hform))

theorem disjoint_fixed_validators (models : List Model) :
    (fixedNames webhooks).Disjoint (validators models) := by
  apply NoneStarts.disjoint
  exact Text.noneStarts_of_bytes fun name h => (affixes_fixedNames h).1

theorem disjoint_fixed_discriminants (models : List Model) :
    (fixedNames webhooks).Disjoint (discriminants models) := by
  apply NoneEnds.disjoint
  exact Text.noneEnds_of_bytes fun name h => (affixes_fixedNames h).2.1

theorem disjoint_fixed_decoders (models : List Model) :
    (fixedNames webhooks).Disjoint (decoders models) := by
  rw [decoders_eq]
  apply NoneEnds.disjoint
  exact Text.noneEnds_of_bytes fun name h => (affixes_fixedNames h).2.2.1

theorem disjoint_fixed_payloads (webhooks' : List Webhook) :
    (fixedNames webhooks).Disjoint (payloads webhooks') := by
  apply NoneEnds.disjoint
  exact Text.noneEnds_of_bytes fun name h => (affixes_fixedNames h).2.2.2.1

end Fixed

theorem unions_sublist (discriminated : Bool) (models : List Model) :
    (unions discriminated models).Sublist (typeNames models) :=
  List.filter_sublist.map _

/-- A union called `IdempotencyKey` has the constructor that makes keys. -/
theorem disjoint_fixed_constructors {webhooks : List Webhook} {models : List Model}
    (h : (fixedNames webhooks).Disjoint (typeNames models)) :
    (fixedNames webhooks).Disjoint (constructors models) ↔
      "IdempotencyKey" ∉ unions true models := by
  constructor
  · intro hdisj hmem
    refine hdisj (List.mem_append_left _ ?_) (List.mem_map.mpr ⟨_, hmem, rfl⟩)
    decide
  · intro hkey name hfixed hmem
    obtain ⟨u, hu, rfl⟩ := List.mem_map.mp hmem
    have htype := (unions_sublist true models).subset hu
    obtain ⟨m, -, rfl⟩ := List.mem_map.mp htype
    have hr := constructed_of_mem_fixedNames hfixed
    rcases List.mem_cons.mp hr with hlogger | hr
    · refine h (List.mem_append_left _ ?_) htype
      rw [hlogger]
      decide
    · rcases List.mem_cons.mp hr with heq | hr
      · exact hkey (heq ▸ hu)
      · exact suffixed_not_mem_sdkBuiltinTypes _ hr

/-- What the names of a document must not be for its package to declare each name once. -/
structure NamesApart (models : List Model) (webhooks : List Webhook) : Prop where
  schemas : (models.map fun m => pascal m.name).Nodup
  /-- No schema is called like another one with its suffix. -/
  suffixes : ∀ name ∈ sdkBuiltinTypes, name ∈ models.map (fun m => pascal m.name) →
    name ++ "Model" ∉ models.map fun m => pascal m.name
  /-- No schema is called like what the package declares and the list does not know. -/
  unlisted : ∀ m ∈ models, pascal m.name ∈ builtinNames → pascal m.name ∈ sdkBuiltinTypes
  /-- No schema is called like what is named after a schema, a value or a webhook. -/
  types : ∀ name ∈ typeNames models, name ∉ validators models ∧ name ∉ allConsts models ∧
    name ∉ constructors models ∧ name ∉ discriminants models ∧ name ∉ decoders models ∧
    name ∉ payloads webhooks
  values : ∀ e, .enum e ∈ models → (e.variants.map fun v => pascal v.value).Nodup
  enums : models.Pairwise fun m m' => (constNames m).Disjoint (constNames m')
  /-- No constant is called like anything else but a type. -/
  consts : ∀ name ∈ allConsts models, name ∉ fixedNames webhooks ∧ name ∉ validators models ∧
    name ∉ constructors models ∧ name ∉ discriminants models ∧ name ∉ decoders models ∧
    name ∉ payloads webhooks
  idempotencyKey : "IdempotencyKey" ∉ unions true models
  fromJSON : ∀ u ∈ unions false models, u ++ "FromJSON" ∉ unions true models
  /-- A prefix on one name and a suffix on another one meet around a third. -/
  validateDiscriminant : ∀ r, "Validate" ++ r ∈ unions true models →
    r ++ "Discriminant" ∉ typeNames models
  newDiscriminant : ∀ r, "New" ++ r ∈ unions true models → r ++ "Discriminant" ∉ unions true models
  validatePayload : ∀ r, "Validate" ++ r ∈ webhookForms webhooks →
    r ++ "WebhookPayload" ∉ typeNames models
  newPayload : ∀ r, "New" ++ r ∈ webhookForms webhooks →
    r ++ "WebhookPayload" ∉ unions true models
  webhooks : (webhookForms webhooks).Nodup

section Families

variable {models : List Model} {webhooks : List Webhook}

theorem nodup_typeNames : (typeNames models).Nodup ↔
    (models.map fun m => pascal m.name).Nodup ∧
      ∀ name ∈ sdkBuiltinTypes, name ∈ models.map (fun m => pascal m.name) →
        name ++ "Model" ∉ models.map fun m => pascal m.name := by
  rw [← nodup_map_suffixed, List.map_map]
  rfl

theorem nodup_constNames {m : Model} : (constNames m).Nodup ↔
    ∀ e, m = .enum e → (e.variants.map fun v => pascal v.value).Nodup := by
  cases m with
  | object o => exact iff_of_true List.nodup_nil fun e he => by cases he
  | enum e =>
      have hmap : constNames (.enum e) =
          (e.variants.map fun v => pascal v.value).map (exportIdent e.name ++ ·) := by
        rw [List.map_map]
        rfl
      rw [hmap, Text.nodup_map_prefix]
      constructor
      · rintro h e' ⟨⟩
        exact h
      · exact fun h => h e rfl

theorem nodup_allConsts : (allConsts models).Nodup ↔
    (∀ e, .enum e ∈ models → (e.variants.map fun v => pascal v.value).Nodup) ∧
      models.Pairwise fun m m' => (constNames m).Disjoint (constNames m') := by
  rw [allConsts, List.nodup_flatMap]
  refine and_congr ?_ Iff.rfl
  constructor
  · exact fun h e he => nodup_constNames.mp (h _ he) e rfl
  · rintro h m hm
    exact nodup_constNames.mpr fun e he => h e (he ▸ hm)

/-- Families that only have types with an affix are as different as the types. -/
theorem nodup_affixed (h : (typeNames models).Nodup) : (validators models).Nodup ∧
    (constructors models).Nodup ∧ (discriminants models).Nodup ∧ (decoders models).Nodup := by
  have hunions : ∀ discriminated, (unions discriminated models).Nodup := fun discriminated =>
    h.sublist (unions_sublist discriminated models)
  refine ⟨Text.nodup_map_prefix.mpr h, Text.nodup_map_prefix.mpr (hunions true),
    Text.nodup_map_suffix.mpr (hunions true), ?_⟩
  exact Text.nodup_map_prefix.mpr (Text.nodup_map_suffix.mpr (hunions false))

theorem disjoint_constructors_decoders : (constructors models).Disjoint (decoders models) ↔
    ∀ u ∈ unions false models, u ++ "FromJSON" ∉ unions true models := by
  constructor
  · intro h u hu hmem
    exact h (List.mem_map.mpr ⟨_, hmem, rfl⟩)
      (List.mem_map.mpr ⟨_, List.mem_map.mpr ⟨u, hu, rfl⟩, rfl⟩)
  · intro h name hname hmem
    obtain ⟨u, hu, rfl⟩ := List.mem_map.mp hname
    obtain ⟨d, hd, heq⟩ := List.mem_map.mp hmem
    obtain ⟨u', hu', rfl⟩ := List.mem_map.mp hd
    exact h u' hu' (Text.append_inj_left heq ▸ hu)

theorem disjoint_discriminants_decoders : (discriminants models).Disjoint (decoders models) := by
  rw [decoders_eq]
  apply ApartEnds.disjoint
  decide

theorem disjoint_decoders_payloads : (decoders models).Disjoint (payloads webhooks) := by
  rw [decoders_eq]
  apply ApartEnds.disjoint
  decide

end Families

/-- **The package declares each name once** exactly if the names of the document are apart. -/
theorem nodup_packageNames_iff (doc : Document) : (packageNames doc).Nodup ↔
    NamesApart doc.schemas.models.values doc.webhooks := by
  rw [(perm_packageNames doc).nodup_iff, List.nodup_flatten]
  simp only [families, List.forall_mem_cons, List.pairwise_cons, List.not_mem_nil,
    IsEmpty.forall_iff, implies_true, List.Pairwise.nil, and_true]
  constructor
  · rintro ⟨⟨-, htypes, -, hconsts, -, -, -, hpayloads⟩, ⟨hBT, -, hBC, hBN, -, -, -⟩,
      ⟨hTV, hTC, hTN, hTD, hTJ, hTW⟩, ⟨hVC, -, hVD, -, hVW⟩, ⟨hCN, hCD, hCJ, hCW⟩,
      ⟨hND, hNJ, hNW⟩, -, -⟩
    exact {
      schemas := (nodup_typeNames.mp htypes).1
      suffixes := (nodup_typeNames.mp htypes).2
      unlisted := disjoint_fixed_types.mp hBT
      types := fun name h => ⟨hTV h, hTC h, hTN h, hTD h, hTJ h, hTW h⟩
      values := (nodup_allConsts.mp hconsts).1
      enums := (nodup_allConsts.mp hconsts).2
      consts := fun name h =>
        ⟨fun h' => hBC h' h, fun h' => hVC h' h, hCN h, hCD h, hCJ h, hCW h⟩
      idempotencyKey := (disjoint_fixed_constructors hBT).mp hBN
      fromJSON := disjoint_constructors_decoders.mp hNJ
      validateDiscriminant := (NoOverlap.disjoint_iff (by decide)).mp hVD
      newDiscriminant := (NoOverlap.disjoint_iff (by decide)).mp hND
      validatePayload := (NoOverlap.disjoint_iff (by decide)).mp hVW
      newPayload := (NoOverlap.disjoint_iff (by decide)).mp hNW
      webhooks := Text.nodup_map_suffix.mp hpayloads }
  · intro h
    have htypes := nodup_typeNames.mpr ⟨h.schemas, h.suffixes⟩
    obtain ⟨hvalidators, hconstructors, hdiscriminants, hdecoders⟩ := nodup_affixed htypes
    have hBT : (fixedNames doc.webhooks).Disjoint (typeNames doc.schemas.models.values) :=
      disjoint_fixed_types.mpr h.unlisted
    refine ⟨⟨nodup_builtinNames.sublist (fixedNames_sublist _), htypes, hvalidators,
      nodup_allConsts.mpr ⟨h.values, h.enums⟩, hconstructors, hdiscriminants, hdecoders,
      Text.nodup_map_suffix.mpr h.webhooks⟩, ?fixed, ?types, ?validators, ?consts,
      ?constructors, ⟨disjoint_discriminants_decoders, ApartEnds.disjoint (by decide)⟩,
      disjoint_decoders_payloads⟩
    case fixed =>
      exact ⟨hBT, disjoint_fixed_validators _, fun name h' hc => (h.consts name hc).1 h',
        (disjoint_fixed_constructors hBT).mpr h.idempotencyKey, disjoint_fixed_discriminants _,
        disjoint_fixed_decoders _, disjoint_fixed_payloads _⟩
    case types =>
      exact ⟨fun name ht => (h.types name ht).1, fun name ht => (h.types name ht).2.1,
        fun name ht => (h.types name ht).2.2.1, fun name ht => (h.types name ht).2.2.2.1,
        fun name ht => (h.types name ht).2.2.2.2.1, fun name ht => (h.types name ht).2.2.2.2.2⟩
    case validators =>
      exact ⟨fun name hv hc => (h.consts name hc).2.1 hv, Apart.disjoint (by decide),
        (NoOverlap.disjoint_iff (by decide)).mpr h.validateDiscriminant,
        Apart.disjoint (by decide), (NoOverlap.disjoint_iff (by decide)).mpr h.validatePayload⟩
    case consts =>
      exact ⟨fun name hc => (h.consts name hc).2.2.1, fun name hc => (h.consts name hc).2.2.2.1,
        fun name hc => (h.consts name hc).2.2.2.2.1, fun name hc => (h.consts name hc).2.2.2.2.2⟩
    case constructors =>
      exact ⟨(NoOverlap.disjoint_iff (by decide)).mpr h.newDiscriminant,
        disjoint_constructors_decoders.mpr h.fromJSON,
        (NoOverlap.disjoint_iff (by decide)).mpr h.newPayload⟩

/-! ## §7  The client -/

/-- What the ids of the operations must not be for the client to have each name once. -/
structure MembersApart (operations : List Operation) : Prop where
  ids : (operations.map fun op => pascal op.operationId).Nodup
  suffixes : ∀ name ∈ sdkBuiltinTypes, name ∈ operations.map (fun op => pascal op.operationId) →
    name ++ "Model" ∉ operations.map fun op => pascal op.operationId
  members : ∀ op ∈ operations, pascal op.operationId ∈ clientFields ++ clientMethods →
    pascal op.operationId ∈ sdkBuiltinTypes

theorem nodup_ownMembers : (clientFields ++ clientMethods).Nodup := by decide +kernel

theorem noneEnds_ownMembers : NoneEnds "Model" (clientFields ++ clientMethods) :=
  Text.noneEnds_of_bytes (by decide +kernel)

/-- No arm of a union is the client, since that is one of the listed names. -/
theorem markerMethods_client (models : List Model) : ((models.flatMap fun
    | .object o => markerMethods o
    | .enum _ => []).filter (·.1 == "Client")) = [] := by
  refine List.filter_eq_nil_iff.mpr fun marker hmem hclient => ?_
  obtain ⟨m, -, hm⟩ := List.mem_flatMap.mp hmem
  cases m with
  | enum e => cases hm
  | object o =>
      dsimp only at hm
      unfold markerMethods at hm
      split at hm
      · cases hm
      · obtain ⟨arm, -, rfl⟩ := List.mem_map.mp hm
        refine suffixed_not_mem_sdkBuiltinTypes (pascal arm) ?_
        have heq : exportIdent arm = "Client" := beq_iff_eq.mp hclient
        rw [← exportIdent_eq, heq]
        decide

theorem nodup_clientMembers_iff (doc : Document) : (clientMembers doc).Nodup ↔
    MembersApart doc.operations := by
  have hnames : doc.operations.map methodName =
      (doc.operations.map fun op => pascal op.operationId).map suffixed := by
    rw [List.map_map]
    rfl
  rw [clientMembers, markerMethods_client, List.map_nil, List.append_nil, List.nodup_append',
    hnames, nodup_map_suffixed]
  constructor
  · rintro ⟨-, ⟨hops, hsuffixes⟩, hdisj⟩
    refine ⟨hops, hsuffixes, fun op hop hmem => ?_⟩
    by_contra hlist
    refine hdisj hmem (List.mem_map.mpr ⟨_, List.mem_map.mpr ⟨op, hop, rfl⟩, ?_⟩)
    exact suffixed_of_not_mem hlist
  · rintro ⟨hops, hsuffixes, hmembers⟩
    refine ⟨nodup_ownMembers, ⟨hops, hsuffixes⟩, fun name hown hmem => ?_⟩
    obtain ⟨form, hform, rfl⟩ := List.mem_map.mp hmem
    obtain ⟨op, hop, rfl⟩ := List.mem_map.mp hform
    obtain ⟨hown, hlist⟩ := (suffixed_mem_iff noneEnds_ownMembers).mp hown
    exact hlist (hmembers op hop hown)

/-- **Every name is declared once** exactly if the names of schemas, values and webhooks are
apart, and the operation ids. -/
theorem declaresOnce_iff (doc : Document) : DeclaresOnce doc ↔
    NamesApart doc.schemas.models.values doc.webhooks ∧ MembersApart doc.operations :=
  and_congr (nodup_packageNames_iff doc) (nodup_clientMembers_iff doc)

def errorModel : Model := .enum ⟨"APIError", none, [⟨"not_found", none⟩]⟩

def errorDocument : Document :=
  Document.minimal ⟨IndexMap.ofList [("APIError", errorModel)]⟩ []

/-- The error type of the client is not on the list. -/
theorem apiError_declared_twice : ¬∀ doc : Document,
    (doc.schemas.models.values.map fun m => pascal m.name).Nodup →
    (doc.operations.map fun op => pascal op.operationId).Nodup → DeclaresOnce doc := by
  intro h
  have hdeclares := h errorDocument (List.nodup_singleton _) List.nodup_nil
  obtain ⟨hapart, -⟩ := (declaresOnce_iff errorDocument).mp hdeclares
  have hlisted := hapart.unlisted errorModel (List.mem_singleton.mpr rfl) (by decide)
  exact absurd hlisted (by decide)

end SpecForge.Go
