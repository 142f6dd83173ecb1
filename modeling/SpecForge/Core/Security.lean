import SpecForge.Core.Ir
import SpecForge.Core.OpenApi
import SpecForge.Lib.BTreeMap
import SpecForge.Lib.Text

/-!
# The security audit (`security.rs`)

Two report builders share one list of checks. Both label an operation by
`HttpMethod::as_str`, which is lowercase.

- §1 the parsed document as the audit reads it; §2 the report.
- §3 the checks; §4 the two builders.
- §5 which operations the detailed report takes as authenticated.
- §6 the warnings about writes.
-/

namespace SpecForge.Security

open Lib
open OpenApi (ReferenceOr)

/-! ## §1  The parsed document -/

/-- `openapiv3::OAuthFlows`: which flows are configured. -/
structure OAuth2Flows where
  implicit : Bool
  password : Bool
  clientCredentials : Bool
  authorizationCode : Bool

inductive OApiSecurityScheme where
  | http (scheme : String) (bearerFormat : Option String)
  | apiKey (name : String)
  | oauth2 (flows : OAuth2Flows)
  | openIdConnect

/-- Scheme names with the scopes asked for. -/
abbrev SecurityRequirement := IndexMap String (List String)

structure ItemOperation where
  security : Option (List SecurityRequirement)

structure PathItem where
  get : Option ItemOperation
  post : Option ItemOperation
  put : Option ItemOperation
  patch : Option ItemOperation
  delete : Option ItemOperation
  head : Option ItemOperation
  options : Option ItemOperation

structure Components where
  securitySchemes : IndexMap String (ReferenceOr OApiSecurityScheme)

structure Spec where
  paths : IndexMap String (ReferenceOr PathItem)
  components : Option Components
  security : Option (List SecurityRequirement)

def PathItem.operation (item : PathItem) : HttpMethod → Option ItemOperation
  | .get => item.get
  | .post => item.post
  | .put => item.put
  | .patch => item.patch
  | .delete => item.delete
  | .head => item.head
  | .options => item.options

/-! ## §2  The report -/

structure SecuritySchemeInfo where
  name : String
  kind : String
  header : Option String
  bearerFormat : Option String

structure OperationSecurity where
  operationId : String
  method : String
  path : String
  requiresAuth : Bool
  scheme : Option String
  hasOverride : Bool

structure SecurityIssue where
  severity : String
  message : String
  path : String

structure SecurityReport where
  schemes : List SecuritySchemeInfo
  operations : List OperationSecurity
  issues : List SecurityIssue

def schemeInfoFromIr : SecurityScheme → SecuritySchemeInfo
  | .httpBearer => ⟨"BearerAuth", "bearer", some "Authorization", none⟩
  | .apiKey header => ⟨"ApiKey(" ++ header ++ ")", "apikey", some header, none⟩

/-- `toLowercase` is the full Unicode `str::to_lowercase`. -/
def schemeInfoFromRaw (toLowercase : String → String) (name : String) :
    OApiSecurityScheme → SecuritySchemeInfo
  | .http scheme bearerFormat =>
      ⟨name, toLowercase scheme,
        if Text.eqIgnoreAsciiCase scheme "bearer" then some "Authorization" else none,
        bearerFormat⟩
  | .apiKey kn => ⟨name, "apikey", some kn, none⟩
  | .oauth2 _ => ⟨name, "oauth2", none, none⟩
  | .openIdConnect => ⟨name, "openidconnect", none, none⟩

def schemeLabel : SecurityScheme → String
  | .httpBearer => "bearer"
  | .apiKey header => "apikey (" ++ header ++ ")"

/-! ## §3  The checks -/

def writeMessage (label path : String) : String :=
  "Write operation " ++ label ++ " " ++ path ++ " does not require authentication"

def analyzeCommonIssues (schemes : List SecuritySchemeInfo)
    (operations : List OperationSecurity) : List SecurityIssue :=
  (if schemes.isEmpty then
    [⟨"warning", "No security schemes defined in the specification", "/"⟩] else []) ++
  (operations.filter fun op =>
      ["POST", "PUT", "PATCH", "DELETE"].contains op.method && !op.requiresAuth).map
    (fun op => ⟨"warning", writeMessage op.method op.path, op.path⟩) ++
  (if ((operations.filter (·.requiresAuth)).map (·.scheme)).dedup.length > 1 then
    [⟨"info", "Operations use mixed authentication schemes", "/"⟩] else [])

/-- The checks on one declared scheme. -/
def schemeIssues (used globalNames : List String) :
    String × ReferenceOr OApiSecurityScheme → List SecurityIssue
  | (_, .reference _) => []
  | (name, .item scheme) =>
      (if !used.contains name && !globalNames.contains name then
        [⟨"info", "Security scheme '" ++ name
            ++ "' is defined but not referenced by any operation",
          "/components/securitySchemes/" ++ name⟩] else []) ++
      match scheme with
      | .oauth2 flows =>
          if !flows.implicit && !flows.password && !flows.clientCredentials
              && !flows.authorizationCode then
            [⟨"warning", "OAuth2 scheme '" ++ name ++ "' has no configured flows",
              "/components/securitySchemes/" ++ name⟩] else []
      | _ => []

def analyzeDetailedIssues (spec : Spec) (operations : List OperationSecurity)
    (globalNames : List String) : List SecurityIssue :=
  let disabled := (operations.filter fun op => op.hasOverride && !op.requiresAuth).map
    fun op => (⟨"info", "Operation " ++ op.method ++ " " ++ op.path
      ++ " explicitly disables authentication", op.path⟩ : SecurityIssue)
  let used := (operations.filter (·.requiresAuth)).filterMap (·.scheme)
  match spec.components with
  | none => disabled
  | some components =>
      disabled ++
      components.securitySchemes.entries.flatMap (schemeIssues used globalNames) ++
      (globalNames.filter fun name => !components.securitySchemes.containsKey name).map
        fun name => ⟨"error", "Global security references undefined scheme '" ++ name ++ "'",
          "/security"⟩

/-! ## §4  The two builders -/

def analyzeSecurity (doc : Document) : SecurityReport :=
  let schemes := doc.security.map schemeInfoFromIr
  let hasGlobalAuth := !doc.security.isEmpty
  let operations := doc.operations.map fun op =>
    { operationId := op.operationId
      method := op.method.asStr
      path := op.path
      requiresAuth := hasGlobalAuth
      scheme := doc.security.head?.map schemeLabel
      hasOverride := false : OperationSecurity }
  ⟨schemes, operations, analyzeCommonIssues schemes operations⟩

def requirementNames (security : List SecurityRequirement) : List String :=
  security.flatMap (·.keys)

def extractSchemeNames : Option (List SecurityRequirement) → List String
  | none => []
  | some reqs => requirementNames reqs

/-- `str::to_uppercase` of the seven method names. -/
def toUppercase (s : String) : String := String.ofList (s.toList.map Char.toUpper)

def opKey (method path : String) : String := toUppercase method ++ " " ++ path

/-- The methods in the order in which a path item is read. -/
def itemMethods : List HttpMethod := [.get, .post, .put, .patch, .delete, .head, .options]

/-- What one path puts into the map. -/
def pathSecurity : String × ReferenceOr PathItem →
    List (String × Option (List SecurityRequirement))
  | (_, .reference _) => []
  | (path, .item item) => itemMethods.filterMap fun m =>
      (item.operation m).map fun op => (opKey m.asStr path, op.security)

def buildOpSecurityMap (spec : Spec) : List (String × Option (List SecurityRequirement)) :=
  BTreeMap.collect (spec.paths.entries.flatMap pathSecurity)

/-- `requires_auth`, `scheme` and `has_override` of one operation. -/
def operationAuth (globalNames : List String) :
    Option (Option (List SecurityRequirement)) → Bool × Option String × Bool
  | some (some []) => (false, none, true)
  | some (some r) => (true, (requirementNames r).head?, true)
  | _ => (!globalNames.isEmpty, globalNames.head?, false)

def analyzeSecurityDetailed (toLowercase : String → String) (doc : Document) (spec : Spec) :
    SecurityReport :=
  let declared := match spec.components with
    | none => []
    | some components => components.securitySchemes.entries.filterMap fun e =>
        match e.2 with
        | .item scheme => some (e.1, scheme)
        | .reference _ => none
  let schemes := (BTreeMap.collect declared).map fun e =>
    schemeInfoFromRaw toLowercase e.1 e.2
  let globalNames := extractSchemeNames spec.security
  let opMap := buildOpSecurityMap spec
  let operations := doc.operations.map fun op =>
    let auth := operationAuth globalNames (opMap.lookup (opKey op.method.asStr op.path))
    { operationId := op.operationId
      method := op.method.asStr
      path := op.path
      requiresAuth := auth.1
      scheme := auth.2.1
      hasOverride := auth.2.2 : OperationSecurity }
  ⟨schemes, operations, analyzeCommonIssues schemes operations ++
    analyzeDetailedIssues spec operations globalNames⟩

/-! ## §5  Authenticated operations -/

theorem toUppercase_asStr (m : HttpMethod) : toUppercase m.asStr = m.upper := by
  rcases m <;> decide

theorem upper_inj {m m' : HttpMethod} (h : m.upper = m'.upper) : m = m' := by
  rcases m <;> rcases m' <;> first | rfl | exact absurd h (by decide)

/-- A key tells method and path: no method name has a space. -/
theorem opKey_inj {m m' : HttpMethod} {p p' : String}
    (h : opKey m.asStr p = opKey m'.asStr p') : m = m' ∧ p = p' := by
  have hlabel : ∀ (m : HttpMethod) (p : String),
      Text.beforeChar ' ' (opKey m.asStr p) = m.upper := by
    intro m p
    rw [opKey, toUppercase_asStr]
    have hspace : (" " : String) = String.ofList [' '] := rfl
    rw [hspace, Text.beforeChar_append, Text.beforeChar_eq_self]
    rcases m <;> decide
  have hm : m = m' := upper_inj (by rw [← hlabel m p, h, hlabel m' p'])
  subst hm
  exact ⟨rfl, Text.append_inj_left h⟩

/-- The `security` field of an operation of the document, if it is there. -/
def declaredSecurity (spec : Spec) (m : HttpMethod) (path : String) :
    Option (Option (List SecurityRequirement)) :=
  match spec.paths.get path with
  | some (.item item) => (item.operation m).map (·.security)
  | _ => none

theorem mem_pathSecurity {e : String × ReferenceOr PathItem} {m : HttpMethod} {p : String}
    {s : Option (List SecurityRequirement)} :
    (opKey m.asStr p, s) ∈ pathSecurity e ↔
      ∃ item op, e = (p, .item item) ∧ item.operation m = some op ∧ op.security = s := by
  rcases e with ⟨path, _ | item⟩
  · simp [pathSecurity]
  · simp only [pathSecurity, List.mem_filterMap, Option.map_eq_some_iff]
    constructor
    · rintro ⟨m', -, op, hop, heq⟩
      obtain ⟨hkey, hsec⟩ := Prod.mk.inj heq
      obtain ⟨rfl, rfl⟩ := opKey_inj hkey
      exact ⟨item, op, rfl, hop, hsec⟩
    · rintro ⟨item', op, heq, hop, hsec⟩
      obtain ⟨rfl, hitem⟩ := Prod.mk.inj heq
      have hsame : item = item' := ReferenceOr.item.inj hitem
      subst hsame
      have hm : m ∈ itemMethods := by rcases m <;> decide
      exact ⟨m, hm, op, hop, by rw [hsec]⟩

/-- The map holds what the document declares. -/
theorem lookup_buildOpSecurityMap (spec : Spec) (m : HttpMethod) (p : String) :
    (buildOpSecurityMap spec).lookup (opKey m.asStr p) = declaredSecurity spec m p := by
  have hmem : ∀ s, (opKey m.asStr p, s) ∈ (spec.paths.entries.flatMap pathSecurity).reverse ↔
      declaredSecurity spec m p = some s := by
    intro s
    simp only [List.mem_reverse, List.mem_flatMap, mem_pathSecurity]
    unfold declaredSecurity
    constructor
    · rintro ⟨e, he, item, op, rfl, hop, hsec⟩
      rw [IndexMap.mem_entries_iff.mp he]
      dsimp only
      rw [hop, Option.map_some, hsec]
    · intro h
      rcases hget : spec.paths.get p with _ | _ | item
      · rw [hget] at h
        cases h
      · rw [hget] at h
        cases h
      · rw [hget] at h
        obtain ⟨op, hop, hsec⟩ := Option.map_eq_some_iff.mp h
        exact ⟨_, IndexMap.mem_entries_iff.mpr hget, item, op, rfl, hop, hsec⟩
  rw [buildOpSecurityMap, BTreeMap.lookup_collect]
  ext s
  rw [← hmem, lookup_eq_some_iff_of_unique]
  intro x y hx hy
  exact Option.some.inj (((hmem x).mp hx).symm.trans ((hmem y).mp hy))

/-- The operation has requirements of its own, or none and the global ones name a scheme. -/
def RequiresAuth (spec : Spec) (op : Operation) : Prop :=
  match declaredSecurity spec op.method op.path with
  | some (some reqs) => reqs ≠ []
  | _ => extractSchemeNames spec.security ≠ []

theorem operationAuth_requires_iff (spec : Spec) (op : Operation) :
    (operationAuth (extractSchemeNames spec.security)
      ((buildOpSecurityMap spec).lookup (opKey op.method.asStr op.path))).1 = true ↔
        RequiresAuth spec op := by
  rw [lookup_buildOpSecurityMap]
  unfold RequiresAuth
  rcases declaredSecurity spec op.method op.path with _ | _ | _ | ⟨r, rs⟩ <;>
    simp [operationAuth]

/-! ## §6  Warnings about writes -/

def IsWrite (m : HttpMethod) : Prop :=
  m = .post ∨ m = .put ∨ m = .patch ∨ m = .delete

instance (m : HttpMethod) : Decidable (IsWrite m) :=
  inferInstanceAs (Decidable (_ ∨ _ ∨ _ ∨ _))

/-- The issue warns that this operation needs no authentication; the method may be
written in either case. -/
def WarnsAbout (op : Operation) (i : SecurityIssue) : Prop :=
  i.severity = "warning" ∧ i.path = op.path ∧
    ∃ label, Text.eqIgnoreAsciiCase label op.method.asStr = true ∧
      i.message = writeMessage label op.path

/-- Exactly the writes that need no authentication are warned about. -/
def AuditsWrites (doc : Document) (r : SecurityReport) : Prop :=
  List.Forall₂ (fun op entry =>
    (∃ i ∈ r.issues, WarnsAbout op i) ↔ IsWrite op.method ∧ entry.requiresAuth = false)
    doc.operations r.operations

theorem writeMessage_eq (label path : String) : writeMessage label path =
    "Write operation " ++ (label ++ (" " ++ (path ++ " does not require authentication"))) := by
  unfold writeMessage
  rw [String.append_assoc, String.append_assoc, String.append_assoc]

theorem WarnsAbout.startsWith {op : Operation} {i : SecurityIssue} (h : WarnsAbout op i) :
    Text.startsWith "Write operation " i.message = true := by
  obtain ⟨-, -, label, -, hmsg⟩ := h
  rw [hmsg, writeMessage_eq]
  exact Text.startsWith_append _ _

theorem not_warnsAbout_of_not_startsWith {op : Operation} {i : SecurityIssue}
    (hmsg : Text.startsWith "Write operation " i.message = false) : ¬ WarnsAbout op i := by
  intro h
  rw [h.startsWith] at hmsg
  exact Bool.noConfusion hmsg

theorem not_warnsAbout_of_apart {op : Operation} {i : SecurityIssue} {p s : String}
    (hmsg : i.message = p ++ s) (hp : Text.Apart "Write operation " p) : ¬ WarnsAbout op i :=
  not_warnsAbout_of_not_startsWith (by rw [hmsg, hp.startsWith_eq_false])

/-- No lowercase label is one of the four that the check on writes asks for. -/
theorem not_contains_asStr (m : HttpMethod) :
    ["POST", "PUT", "PATCH", "DELETE"].contains m.asStr = false := by
  rcases m <;> decide

theorem not_warnsAbout_commonIssues {schemes : List SecuritySchemeInfo}
    {operations : List OperationSecurity}
    (hlabels : ∀ entry ∈ operations, ∃ m : HttpMethod, entry.method = m.asStr)
    {op : Operation} {i : SecurityIssue} (hi : i ∈ analyzeCommonIssues schemes operations) :
    ¬ WarnsAbout op i := by
  simp only [analyzeCommonIssues, List.mem_append] at hi
  rcases hi with (hi | hi) | hi
  · split at hi
    · obtain rfl := List.mem_singleton.mp hi
      exact not_warnsAbout_of_not_startsWith (by decide)
    · cases hi
  · obtain ⟨entry, hentry, -⟩ := List.mem_map.mp hi
    obtain ⟨hmem, hguard⟩ := List.mem_filter.mp hentry
    obtain ⟨m, hm⟩ := hlabels entry hmem
    rw [hm, not_contains_asStr, Bool.false_and] at hguard
    cases hguard
  · split at hi
    · obtain rfl := List.mem_singleton.mp hi
      exact not_warnsAbout_of_not_startsWith (by decide)
    · cases hi

theorem not_warnsAbout_schemeIssues {used globalNames : List String}
    {e : String × ReferenceOr OApiSecurityScheme} {op : Operation} {i : SecurityIssue}
    (hi : i ∈ schemeIssues used globalNames e) : ¬ WarnsAbout op i := by
  rcases e with ⟨name, _ | scheme⟩
  · cases hi
  · simp only [schemeIssues, List.mem_append] at hi
    rcases hi with hi | hi
    · split at hi
      · obtain rfl := List.mem_singleton.mp hi
        exact not_warnsAbout_of_apart (String.append_assoc ..) (by decide)
      · cases hi
    · rcases scheme with _ | _ | flows | _
      · cases hi
      · cases hi
      · dsimp only at hi
        split at hi
        · obtain rfl := List.mem_singleton.mp hi
          exact not_warnsAbout_of_apart (String.append_assoc ..) (by decide)
        · cases hi
      · cases hi

theorem not_warnsAbout_detailedIssues {spec : Spec} {operations : List OperationSecurity}
    {globalNames : List String} {op : Operation} {i : SecurityIssue}
    (hi : i ∈ analyzeDetailedIssues spec operations globalNames) : ¬ WarnsAbout op i := by
  have hdisabled : ∀ {p s : String}, i.message = "Operation " ++ p ++ " " ++ s
      ++ " explicitly disables authentication" → ¬ WarnsAbout op i := by
    intro p s hmsg
    rw [String.append_assoc, String.append_assoc, String.append_assoc] at hmsg
    exact not_warnsAbout_of_apart hmsg (by decide)
  unfold analyzeDetailedIssues at hi
  dsimp only at hi
  split at hi
  · obtain ⟨entry, -, rfl⟩ := List.mem_map.mp hi
    exact hdisabled rfl
  · simp only [List.mem_append] at hi
    rcases hi with (hi | hi) | hi
    · obtain ⟨entry, -, rfl⟩ := List.mem_map.mp hi
      exact hdisabled rfl
    · obtain ⟨e, -, hi⟩ := List.mem_flatMap.mp hi
      exact not_warnsAbout_schemeIssues hi
    · obtain ⟨name, -, rfl⟩ := List.mem_map.mp hi
      exact not_warnsAbout_of_apart (String.append_assoc ..) (by decide)

/-- A report without warnings about writes is right about the documents whose writes all
need authentication. -/
theorem auditsWrites_iff {doc : Document} {r : SecurityReport} {P : Operation → Prop}
    (hentries : List.Forall₂ (fun op entry => entry.requiresAuth = true ↔ P op)
      doc.operations r.operations)
    (hnone : ∀ op, ∀ i ∈ r.issues, ¬ WarnsAbout op i) :
    AuditsWrites doc r ↔ ∀ op ∈ doc.operations, IsWrite op.method → P op := by
  unfold AuditsWrites
  have hstep : ∀ (op : Operation) (entry : OperationSecurity),
      (entry.requiresAuth = true ↔ P op) →
      (((∃ i ∈ r.issues, WarnsAbout op i) ↔
          IsWrite op.method ∧ entry.requiresAuth = false) ↔ (IsWrite op.method → P op)) := by
    intro op entry hentry
    have hno : ¬ ∃ i ∈ r.issues, WarnsAbout op i := by
      rintro ⟨i, hi, hwarn⟩
      exact hnone op i hi hwarn
    rw [iff_false_left hno, ← hentry, ← Bool.not_eq_true]
    exact not_and_not_right
  generalize doc.operations = ops at hentries ⊢
  generalize r.operations = entries at hentries ⊢
  induction hentries with
  | nil => simp
  | @cons op entry ops entries hentry _ ih =>
      rw [List.forall₂_cons, List.forall_mem_cons]
      exact and_congr (hstep op entry hentry) ih

/-- **When the audit reports the unauthenticated writes.** Neither report ever warns about
a write, so both are right only where every write needs authentication: in the plain
report by a scheme of the document, in the detailed one by the operation's own
requirements or the global ones. -/
theorem auditsWrites_exactly (doc : Document) :
    (AuditsWrites doc (analyzeSecurity doc) ↔
      ∀ op ∈ doc.operations, IsWrite op.method → doc.security ≠ []) ∧
    ∀ (toLowercase : String → String) (spec : Spec),
      AuditsWrites doc (analyzeSecurityDetailed toLowercase doc spec) ↔
        ∀ op ∈ doc.operations, IsWrite op.method → RequiresAuth spec op := by
  constructor
  · apply auditsWrites_iff
    · refine List.forall₂_map_right_iff.mpr (List.forall₂_same.mpr ?_)
      intro op _
      simp
    · intro op i hi
      refine not_warnsAbout_commonIssues ?_ hi
      intro entry hentry
      obtain ⟨op', -, rfl⟩ := List.mem_map.mp hentry
      exact ⟨op'.method, rfl⟩
  · intro toLowercase spec
    apply auditsWrites_iff
    · refine List.forall₂_map_right_iff.mpr (List.forall₂_same.mpr ?_)
      intro op _
      exact operationAuth_requires_iff spec op
    · intro op i hi
      rcases List.mem_append.mp hi with hi | hi
      · refine not_warnsAbout_commonIssues ?_ hi
        intro entry hentry
        obtain ⟨op', -, rfl⟩ := List.mem_map.mp hentry
        exact ⟨op'.method, rfl⟩
      · exact not_warnsAbout_detailedIssues hi

/-- One write, and no security anywhere. -/
def openWrite : Document :=
  Document.minimal SchemaRegistry.default
    [⟨"createPet", .post, "/pets", none, none, none, [], none, [], none⟩]

/-- The write of `openWrite` needs no authentication and no report says so. -/
theorem openWrite_not_audited :
    ¬ ∀ doc, AuditsWrites doc (analyzeSecurity doc) ∧
      ∀ (toLowercase : String → String) (spec : Spec),
        AuditsWrites doc (analyzeSecurityDetailed toLowercase doc spec) := by
  intro h
  obtain ⟨haudit, -⟩ := List.forall₂_cons.mp (h openWrite).1
  obtain ⟨i, hi, hwarn⟩ := haudit.mpr ⟨by decide, rfl⟩
  refine not_warnsAbout_commonIssues ?_ hi hwarn
  intro entry hentry
  obtain ⟨op, -, rfl⟩ := List.mem_map.mp hentry
  exact ⟨op.method, rfl⟩

end SpecForge.Security
