import SpecForge.Core.OperationIds
import SpecForge.Core.Security

/-!
# Requirements in the security audit

The requirements of an operation are alternatives, and each alternative asks for all its schemes.
The detailed report keeps a flag and one name of them: whether there is an alternative, or a scheme
in one, and the scheme that comes first.

- §1 what requirements ask for; §2 when the flag is right.
- §3 which schemes the requirements of a document name; §4 when the others are reported.
-/

namespace SpecForge.Security

open Lib
open OpenApi (ReferenceOr OpenAPI)

/-! ## §1  Alternatives -/

/-- Who has credentials for `schemes` is let in: all schemes of one alternative, if there are any
alternatives. -/
def Admits (security : List SecurityRequirement) (schemes : Set String) : Prop :=
  security = [] ∨ ∃ alternative ∈ security, ∀ name ∈ alternative.keys, name ∈ schemes

/-- There are alternatives, and none of them is empty. -/
def AsksForAuth (security : List SecurityRequirement) : Prop :=
  security ≠ [] ∧ ∀ alternative ∈ security, alternative.keys ≠ []

/-- Requirements ask for authentication if they do not let in who has no credentials. -/
theorem asksForAuth_iff_not_admits {security : List SecurityRequirement} :
    AsksForAuth security ↔ ¬ Admits security ∅ := by
  simp only [AsksForAuth, Admits, Set.mem_empty_iff_false, not_or, not_exists, not_and,
    ← List.eq_nil_iff_forall_not_mem]

theorem requirementNames_ne_nil_iff {security : List SecurityRequirement} :
    requirementNames security ≠ [] ↔ ∃ alternative ∈ security, alternative.keys ≠ [] := by
  rw [requirementNames, ne_eq, List.flatMap_eq_nil_iff]
  push Not
  rfl

/-- The operation's own requirements, or else those of the document. -/
def effectiveSecurity (spec : Spec) (op : Operation) : List SecurityRequirement :=
  match declaredSecurity spec op.method op.path with
  | some (some reqs) => reqs
  | _ => spec.security.getD []

/-- The audit and the resolver read the same document. -/
structure SameDocument (spec : Spec) (o : OpenAPI) : Prop where
  operations : ∀ m path, declaredSecurity spec m path ≠ none ↔
    ∃ op, (m, path, op) ∈ specOperations o
  security : o.security = spec.security.map (·.map (·.keys))

/-! ## §2  `requires_auth` -/

/-- Each operation is reported to require authentication if its requirements ask for it. -/
def ReportsAuth (doc : Document) (spec : Spec) (r : SecurityReport) : Prop :=
  List.Forall₂ (fun op entry =>
    entry.requiresAuth = true ↔ AsksForAuth (effectiveSecurity spec op)) doc.operations r.operations

/-- No alternative of the operation itself is empty, and of those it has from the document none is
or all are. -/
def NoOptionalAuth (spec : Spec) (op : Operation) : Prop :=
  match declaredSecurity spec op.method op.path with
  | some (some reqs) => ∀ alternative ∈ reqs, alternative.keys ≠ []
  | _ => (∃ alternative ∈ spec.security.getD [], alternative.keys = []) →
      ∀ alternative ∈ spec.security.getD [], alternative.keys = []

theorem extractSchemeNames_eq (security : Option (List SecurityRequirement)) :
    extractSchemeNames security = requirementNames (security.getD []) := by
  cases security with
  | none => rfl
  | some reqs => rfl

/-- Requirements of the operation itself are counted by alternatives. -/
theorem ne_nil_iff_asksForAuth {reqs : List SecurityRequirement} :
    (reqs ≠ [] ↔ AsksForAuth reqs) ↔ ∀ alternative ∈ reqs, alternative.keys ≠ [] := by
  rw [AsksForAuth, iff_self_and]
  constructor
  · intro h alternative hmem
    exact h (List.ne_nil_of_mem hmem) alternative hmem
  · exact fun h _ => h

/-- Requirements of the document are counted by names. -/
theorem names_ne_nil_iff_asksForAuth {reqs : List SecurityRequirement} :
    (requirementNames reqs ≠ [] ↔ AsksForAuth reqs) ↔
      ((∃ alternative ∈ reqs, alternative.keys = []) →
        ∀ alternative ∈ reqs, alternative.keys = []) := by
  rw [requirementNames_ne_nil_iff, AsksForAuth]
  constructor
  · rintro h ⟨alternative, hmem, hnil⟩ other hother
    by_contra hne
    exact (h.mp ⟨other, hother, hne⟩).2 alternative hmem hnil
  · intro h
    constructor
    · rintro ⟨alternative, hmem, hne⟩
      refine ⟨List.ne_nil_of_mem hmem, fun other hother hnil => ?_⟩
      exact hne (h ⟨other, hother, hnil⟩ alternative hmem)
    · rintro ⟨hne, hall⟩
      obtain ⟨alternative, hmem⟩ := List.exists_mem_of_ne_nil _ hne
      exact ⟨alternative, hmem, hall alternative hmem⟩

theorem requiresAuth_iff_asksForAuth (spec : Spec) (op : Operation) :
    (RequiresAuth spec op ↔ AsksForAuth (effectiveSecurity spec op)) ↔
      NoOptionalAuth spec op := by
  unfold RequiresAuth effectiveSecurity NoOptionalAuth
  rw [extractSchemeNames_eq]
  rcases declaredSecurity spec op.method op.path with _ | _ | reqs
  · exact names_ne_nil_iff_asksForAuth
  · exact names_ne_nil_iff_asksForAuth
  · exact ne_nil_iff_asksForAuth

/-- **The report is right about who must authenticate if and only if no operation makes
authentication optional by an empty alternative**, be it its own or one of the document's next to
others that are not empty. -/
theorem reportsAuth_iff (toLowercase : String → String) (doc : Document) (spec : Spec) :
    ReportsAuth doc spec (analyzeSecurityDetailed toLowercase doc spec) ↔
      ∀ op ∈ doc.operations, NoOptionalAuth spec op := by
  unfold ReportsAuth
  rw [analyzeSecurityDetailed, List.forall₂_map_right_iff, List.forall₂_same]
  refine forall₂_congr fun op _ => ?_
  rw [← requiresAuth_iff_asksForAuth, ← operationAuth_requires_iff]

/-- `GET /pets` with requirements of its own. -/
def petsSpec (reqs : List SecurityRequirement) : Spec where
  paths := IndexMap.ofList [("/pets", .item
    { get := some ⟨some reqs⟩
      post := none
      put := none
      patch := none
      delete := none
      head := none
      options := none })]
  components := some ⟨IndexMap.ofList
    [("bearerAuth", .item (.http "bearer" none)), ("apiKey", .item (.apiKey "X-Api-Key"))]⟩
  security := none

theorem declaredSecurity_petsSpec {reqs : List SecurityRequirement} {m : HttpMethod}
    {path : String} : declaredSecurity (petsSpec reqs) m path =
      if m = .get ∧ path = "/pets" then some (some reqs) else none := by
  by_cases hpath : path = "/pets"
  · subst hpath
    have hget : (petsSpec reqs).paths.get "/pets" =
        some (.item ⟨some ⟨some reqs⟩, none, none, none, none, none, none⟩) := rfl
    rw [declaredSecurity, hget]
    cases m <;> simp [PathItem.operation]
  · have hget : (petsSpec reqs).paths.get path = none := by
      rw [petsSpec, IndexMap.get_ofList]
      exact lookup_cons_ne hpath
    rw [declaredSecurity, hget, if_neg fun h => hpath h.2]

theorem sameDocument_petsSpec (reqs : List SecurityRequirement) :
    SameDocument (petsSpec reqs) (getSpec ["/pets"]) := by
  refine ⟨fun m path => ?_, rfl⟩
  have hmem : (∃ op, (m, path, op) ∈ specOperations (getSpec ["/pets"])) ↔
      m = .get ∧ path = "/pets" := by
    constructor
    · rintro ⟨op, hop⟩
      obtain ⟨hm, hpath⟩ := Prod.mk.inj (List.mem_singleton.mp hop)
      exact ⟨hm, congrArg Prod.fst hpath⟩
    · rintro ⟨rfl, rfl⟩
      exact ⟨_, List.mem_singleton.mpr rfl⟩
  rw [hmem, declaredSecurity_petsSpec]
  simp

/-- Authentication by a token, or none. -/
def optionalAuth : List SecurityRequirement :=
  [IndexMap.empty, IndexMap.ofList [("bearerAuth", [])]]

/-- The report says that `GET /pets` requires authentication, which is optional. -/
theorem optional_auth_reported : ¬ ∀ (spec : Spec) (o : OpenAPI) (doc : Document),
    resolve o = .ok doc → SameDocument spec o → ∀ toLowercase,
      ReportsAuth doc spec (analyzeSecurityDetailed toLowercase doc spec) := by
  intro h
  have hreport := h (petsSpec optionalAuth) (getSpec ["/pets"]) _ rfl
    (sameDocument_petsSpec optionalAuth) id
  obtain ⟨hentry, -⟩ := List.forall₂_cons.mp hreport
  have hasks := hentry.mp (by decide +kernel)
  exact hasks.2 IndexMap.empty List.mem_cons_self rfl

/-! ## §3  Schemes that are named -/

/-- A document with the requirements of its `TRACE` operations, which the audit does not read. -/
structure TracedSpec extends Spec where
  traceSecurity : List (Option (List SecurityRequirement))

/-- These are the requirements of an operation itself. -/
def TracedSpec.OwnSecurity (spec : TracedSpec) (reqs : List SecurityRequirement) : Prop :=
  (∃ m path, declaredSecurity spec.toSpec m path = some (some reqs)) ∨
    some reqs ∈ spec.traceSecurity

/-- The scheme is in an alternative of some operation's own requirements, or of the document's. -/
def TracedSpec.Referenced (spec : TracedSpec) (name : String) : Prop :=
  (∃ reqs, spec.OwnSecurity reqs ∧ ∃ alternative ∈ reqs, name ∈ alternative.keys) ∨
    ∃ alternative ∈ spec.security.getD [], name ∈ alternative.keys

/-- An operation of the document names the scheme before any other. -/
def NamedFirst (spec : Spec) (name : String) : Prop :=
  ∃ m path reqs, declaredSecurity spec m path = some (some reqs) ∧
    (requirementNames reqs).head? = some name

theorem mem_requirementNames {reqs : List SecurityRequirement} {name : String} :
    name ∈ requirementNames reqs ↔ ∃ alternative ∈ reqs, name ∈ alternative.keys :=
  List.mem_flatMap

theorem NamedFirst.referenced {spec : TracedSpec} {name : String}
    (h : NamedFirst spec.toSpec name) : spec.Referenced name := by
  obtain ⟨m, path, reqs, hdeclared, hhead⟩ := h
  exact Or.inl ⟨reqs, Or.inl ⟨m, path, hdeclared⟩,
    mem_requirementNames.mp (List.mem_of_mem_head? hhead)⟩

/-- The resolved document has the operations of the parsed one. -/
theorem mem_resolved_operations {spec : Spec} {o : OpenAPI} {doc : Document}
    (hdoc : resolve o = .ok doc) (hsame : SameDocument spec o) {m : HttpMethod} {path : String} :
    (∃ op ∈ doc.operations, op.method = m ∧ op.path = path) ↔
      declaredSecurity spec m path ≠ none := by
  have hsites : doc.operations.map (fun op => (op.method, op.path)) =
      (specOperations o).map fun x => (x.1, x.2.1) := by
    rw [resolve_operations hdoc, resolveOperations, specOperations, List.map_flatMap,
      List.map_flatMap]
    refine List.flatMap_congr fun e _ => ?_
    obtain ⟨path, itemOr⟩ := e
    cases itemOr with
    | reference reference => rfl
    | item item =>
        rw [List.map_map, List.map_map]
        rfl
  have hmem : (m, path) ∈ doc.operations.map (fun op => (op.method, op.path)) ↔
      (m, path) ∈ (specOperations o).map fun x => (x.1, x.2.1) := by rw [hsites]
  simpa [hsame.operations] using hmem

/-! ## §4  Schemes that are reported -/

def unusedMessage (name : String) : String :=
  "Security scheme '" ++ name ++ "' is defined but not referenced by any operation"

/-- The scheme is reported as not referenced. -/
def ReportsUnused (r : SecurityReport) (name : String) : Prop :=
  ∃ i ∈ r.issues, i.message = unusedMessage name

def declaredSchemes (spec : Spec) : List (String × ReferenceOr OApiSecurityScheme) :=
  match spec.components with
  | some components => components.securitySchemes.entries
  | none => []

/-- Of the declared schemes those are reported that no requirement names. -/
def ReportsUnreferenced (spec : TracedSpec) (r : SecurityReport) : Prop :=
  ∀ e ∈ declaredSchemes spec.toSpec, ReportsUnused r e.1 ↔ ¬ spec.Referenced e.1

/-- If the scheme is referenced then where the audit looks: first of all in an operation, or in the
requirements of the document. A scheme declared by a reference has to be referenced. -/
def TracedSpec.ReferenceSeen (spec : TracedSpec) :
    String × ReferenceOr OApiSecurityScheme → Prop
  | (name, .item _) => spec.Referenced name →
      NamedFirst spec.toSpec name ∨ name ∈ extractSchemeNames spec.security
  | (name, .reference _) => spec.Referenced name

theorem unusedMessage_eq (name : String) : unusedMessage name =
    "Security scheme '" ++ (name ++ "' is defined but not referenced by any operation") :=
  String.append_assoc ..

theorem unusedMessage_inj {name name' : String} (h : unusedMessage name = unusedMessage name') :
    name = name' := by
  rw [unusedMessage_eq, unusedMessage_eq] at h
  exact Text.append_inj_right (Text.append_inj_left h)

theorem ne_unusedMessage_of_not_startsWith {msg : String}
    (hmsg : Text.startsWith "Security scheme '" msg = false) (name : String) :
    msg ≠ unusedMessage name := by
  rintro rfl
  rw [unusedMessage_eq, Text.startsWith_append] at hmsg
  exact Bool.noConfusion hmsg

theorem ne_unusedMessage_of_apart {p : String} (hp : Text.Apart "Security scheme '" p)
    (s name : String) : p ++ s ≠ unusedMessage name :=
  ne_unusedMessage_of_not_startsWith (hp.startsWith_eq_false s) name

theorem commonIssues_ne_unusedMessage {schemes : List SecuritySchemeInfo}
    {operations : List OperationSecurity} {i : SecurityIssue}
    (hi : i ∈ analyzeCommonIssues schemes operations) (name : String) :
    i.message ≠ unusedMessage name := by
  simp only [analyzeCommonIssues, List.mem_append] at hi
  rcases hi with (hi | hi) | hi
  · split at hi
    · obtain rfl := List.mem_singleton.mp hi
      exact ne_unusedMessage_of_not_startsWith (by decide) name
    · cases hi
  · obtain ⟨entry, -, rfl⟩ := List.mem_map.mp hi
    rw [writeMessage_eq]
    exact ne_unusedMessage_of_apart (by decide) _ name
  · split at hi
    · obtain rfl := List.mem_singleton.mp hi
      exact ne_unusedMessage_of_not_startsWith (by decide) name
    · cases hi

/-- One declared scheme is reported by its own check only, if no one uses it. -/
theorem schemeIssues_unused_iff {used globalNames : List String}
    {e : String × ReferenceOr OApiSecurityScheme} {name : String} :
    (∃ i ∈ schemeIssues used globalNames e, i.message = unusedMessage name) ↔
      ∃ scheme, e = (name, .item scheme) ∧ name ∉ used ∧ name ∉ globalNames := by
  rcases e with ⟨name', _ | scheme⟩
  · simp [schemeIssues]
  · constructor
    · rintro ⟨i, hi, hmsg⟩
      simp only [schemeIssues, List.mem_append] at hi
      rcases hi with hi | hi
      · split at hi
        case isTrue hguard =>
          obtain rfl := List.mem_singleton.mp hi
          obtain rfl := unusedMessage_inj hmsg
          exact ⟨scheme, rfl, by simpa using hguard⟩
        · cases hi
      · rcases scheme with _ | _ | flows | _
        · cases hi
        · cases hi
        · dsimp only at hi
          split at hi
          · obtain rfl := List.mem_singleton.mp hi
            rw [String.append_assoc] at hmsg
            exact absurd hmsg (ne_unusedMessage_of_apart (by decide) _ name)
          · cases hi
        · cases hi
    · rintro ⟨scheme', heq, hused, hglobal⟩
      obtain ⟨rfl, -⟩ := Prod.mk.inj heq
      have hguard : (!used.contains name' && !globalNames.contains name') = true := by
        simp [hused, hglobal]
      refine ⟨⟨"info", unusedMessage name', "/components/securitySchemes/" ++ name'⟩, ?_, rfl⟩
      unfold schemeIssues
      apply List.mem_append_left
      rw [if_pos hguard]
      exact List.mem_singleton_self _

/-- The schemes of the operations that require authentication. -/
def usedSchemes (operations : List OperationSecurity) : List String :=
  (operations.filter (·.requiresAuth)).filterMap (·.scheme)

theorem detailedIssues_unused_iff {spec : Spec} {operations : List OperationSecurity}
    {globalNames : List String} {name : String} :
    (∃ i ∈ analyzeDetailedIssues spec operations globalNames, i.message = unusedMessage name) ↔
      ∃ scheme, (name, .item scheme) ∈ declaredSchemes spec ∧
        name ∉ usedSchemes operations ∧ name ∉ globalNames := by
  have hdisabled : ∀ {a b : String}, "Operation " ++ a ++ " " ++ b
      ++ " explicitly disables authentication" ≠ unusedMessage name := by
    intro a b
    rw [String.append_assoc, String.append_assoc, String.append_assoc]
    exact ne_unusedMessage_of_apart (by decide) _ name
  unfold analyzeDetailedIssues declaredSchemes
  rcases spec.components with _ | components
  · refine iff_of_false ?_ (by simp)
    rintro ⟨i, hi, hmsg⟩
    obtain ⟨entry, -, rfl⟩ := List.mem_map.mp hi
    exact hdisabled hmsg
  · constructor
    · rintro ⟨i, hi, hmsg⟩
      simp only [List.mem_append] at hi
      rcases hi with (hi | hi) | hi
      · obtain ⟨entry, -, rfl⟩ := List.mem_map.mp hi
        exact absurd hmsg hdisabled
      · obtain ⟨e, he, hi⟩ := List.mem_flatMap.mp hi
        obtain ⟨scheme, rfl, hunused⟩ := schemeIssues_unused_iff.mp ⟨i, hi, hmsg⟩
        exact ⟨scheme, he, hunused⟩
      · obtain ⟨other, -, rfl⟩ := List.mem_map.mp hi
        rw [String.append_assoc] at hmsg
        exact absurd hmsg (ne_unusedMessage_of_apart (by decide) _ name)
    · rintro ⟨scheme, he, hunused⟩
      obtain ⟨i, hi, hmsg⟩ := schemeIssues_unused_iff.mpr ⟨scheme, rfl, hunused⟩
      refine ⟨i, List.mem_append_left _ (List.mem_append_right _ ?_), hmsg⟩
      exact List.mem_flatMap.mpr ⟨_, he, hi⟩

/-- An operation is entered with the first name of the requirements it has. -/
theorem operationAuth_scheme_iff {globalNames : List String}
    {declared : Option (Option (List SecurityRequirement))} {name : String} :
    (operationAuth globalNames declared).1 = true ∧
        (operationAuth globalNames declared).2.1 = some name ↔
      (∃ reqs, declared = some (some reqs) ∧ (requirementNames reqs).head? = some name) ∨
        (∀ reqs, declared ≠ some (some reqs)) ∧ globalNames.head? = some name := by
  rcases declared with _ | _ | reqs
  · cases globalNames <;> simp [operationAuth]
  · cases globalNames <;> simp [operationAuth]
  · cases reqs <;> simp [operationAuth, requirementNames]

/-- The audit looks at the first name in each operation, and at all names of the document. -/
theorem mem_usedSchemes_or_global_iff (toLowercase : String → String) {spec : Spec} {o : OpenAPI}
    {doc : Document} (hdoc : resolve o = .ok doc) (hsame : SameDocument spec o) {name : String} :
    name ∈ usedSchemes (analyzeSecurityDetailed toLowercase doc spec).operations ∨
        name ∈ extractSchemeNames spec.security ↔
      NamedFirst spec name ∨ name ∈ extractSchemeNames spec.security := by
  have hused : name ∈ usedSchemes (analyzeSecurityDetailed toLowercase doc spec).operations ↔
      ∃ op ∈ doc.operations,
        let auth := operationAuth (extractSchemeNames spec.security)
          (declaredSecurity spec op.method op.path)
        auth.1 = true ∧ auth.2.1 = some name := by
    simp [usedSchemes, analyzeSecurityDetailed, lookup_buildOpSecurityMap, and_assoc]
  rw [hused]
  constructor
  · rintro (⟨op, -, hauth⟩ | hglobal)
    · rcases operationAuth_scheme_iff.mp hauth with ⟨reqs, hdeclared, hhead⟩ | ⟨-, hhead⟩
      · exact Or.inl ⟨op.method, op.path, reqs, hdeclared, hhead⟩
      · exact Or.inr (List.mem_of_mem_head? hhead)
    · exact Or.inr hglobal
  · rintro (⟨m, path, reqs, hdeclared, hhead⟩ | hglobal)
    · have hne : declaredSecurity spec m path ≠ none := by
        rw [hdeclared]
        exact Option.some_ne_none _
      obtain ⟨op, hop, rfl, rfl⟩ := (mem_resolved_operations hdoc hsame).mpr hne
      exact Or.inl ⟨op, hop, operationAuth_scheme_iff.mpr (Or.inl ⟨reqs, hdeclared, hhead⟩)⟩
    · exact Or.inr hglobal

theorem reportsUnused_iff (toLowercase : String → String) {spec : Spec} {o : OpenAPI}
    {doc : Document} (hdoc : resolve o = .ok doc) (hsame : SameDocument spec o) {name : String} :
    ReportsUnused (analyzeSecurityDetailed toLowercase doc spec) name ↔
      ∃ scheme, (name, .item scheme) ∈ declaredSchemes spec ∧
        ¬ (NamedFirst spec name ∨ name ∈ extractSchemeNames spec.security) := by
  rw [← mem_usedSchemes_or_global_iff toLowercase hdoc hsame]
  simp only [not_or]
  rw [← detailedIssues_unused_iff]
  constructor
  · rintro ⟨i, hi, hmsg⟩
    rcases List.mem_append.mp hi with hi | hi
    · exact absurd hmsg (commonIssues_ne_unusedMessage hi name)
    · exact ⟨i, hi, hmsg⟩
  · rintro ⟨i, hi, hmsg⟩
    exact ⟨i, List.mem_append_right _ hi, hmsg⟩

/-- A name is declared once. -/
theorem declaredSchemes_unique {spec : Spec} {name : String}
    {s s' : ReferenceOr OApiSecurityScheme} (h : (name, s) ∈ declaredSchemes spec)
    (h' : (name, s') ∈ declaredSchemes spec) : s = s' := by
  unfold declaredSchemes at h h'
  rcases hc : spec.components with _ | components
  · rw [hc] at h
    cases h
  · rw [hc] at h h'
    have hget := IndexMap.mem_entries_iff.mp h
    rw [IndexMap.mem_entries_iff.mp h'] at hget
    exact (Option.some.inj hget).symm

/-- What the audit sees is referenced. -/
theorem TracedSpec.referenced_of_seen {spec : TracedSpec} {name : String}
    (h : NamedFirst spec.toSpec name ∨ name ∈ extractSchemeNames spec.security) :
    spec.Referenced name := by
  rcases h with hfirst | hglobal
  · exact hfirst.referenced
  · rw [extractSchemeNames_eq] at hglobal
    exact Or.inr (mem_requirementNames.mp hglobal)

/-- **The report of unreferenced schemes is right if and only if every scheme that is referenced is
so where the audit looks**: first of all in some operation's own requirements, or anywhere in those
of the document. -/
theorem reportsUnreferenced_iff (toLowercase : String → String) {spec : TracedSpec} {o : OpenAPI}
    {doc : Document} (hdoc : resolve o = .ok doc) (hsame : SameDocument spec.toSpec o) :
    ReportsUnreferenced spec (analyzeSecurityDetailed toLowercase doc spec.toSpec) ↔
      ∀ e ∈ declaredSchemes spec.toSpec, spec.ReferenceSeen e := by
  refine forall₂_congr fun e he => ?_
  rw [reportsUnused_iff toLowercase hdoc hsame]
  obtain ⟨name, _ | scheme⟩ := e
  · have hno : ¬ ∃ scheme, (name, .item scheme) ∈ declaredSchemes spec.toSpec ∧
        ¬ (NamedFirst spec.toSpec name ∨ name ∈ extractSchemeNames spec.security) := by
      rintro ⟨scheme, hscheme, -⟩
      cases declaredSchemes_unique he hscheme
    rw [iff_false_left hno, not_not]
    rfl
  · have hseen : (∃ scheme, (name, .item scheme) ∈ declaredSchemes spec.toSpec ∧
        ¬ (NamedFirst spec.toSpec name ∨ name ∈ extractSchemeNames spec.security)) ↔
        ¬ (NamedFirst spec.toSpec name ∨ name ∈ extractSchemeNames spec.security) :=
      ⟨fun ⟨_, _, h⟩ => h, fun h => ⟨scheme, he, h⟩⟩
    rw [hseen, not_iff_not]
    exact ⟨fun h href => h.mpr href, fun h => ⟨TracedSpec.referenced_of_seen, h⟩⟩

/-- `GET /pets` with requirements of its own, and no `TRACE` operations. -/
def petsTraced (reqs : List SecurityRequirement) : TracedSpec :=
  { petsSpec reqs with traceSecurity := [] }

theorem referenced_petsTraced {reqs : List SecurityRequirement} {name : String} :
    (petsTraced reqs).Referenced name ↔ name ∈ requirementNames reqs := by
  rw [mem_requirementNames]
  constructor
  · rintro (⟨own, ⟨m, path, hdeclared⟩ | htrace, halternative⟩ | ⟨alternative, hmem, -⟩)
    · change declaredSecurity (petsSpec reqs) m path = _ at hdeclared
      rw [declaredSecurity_petsSpec] at hdeclared
      split at hdeclared
      · obtain rfl := Option.some.inj (Option.some.inj hdeclared)
        exact halternative
      · cases hdeclared
    · cases htrace
    · cases hmem
  · exact fun h => Or.inl ⟨reqs, Or.inl ⟨.get, "/pets", declaredSecurity_petsSpec⟩, h⟩

theorem namedFirst_petsTraced {reqs : List SecurityRequirement} {name : String} :
    NamedFirst (petsTraced reqs).toSpec name ↔ (requirementNames reqs).head? = some name := by
  constructor
  · rintro ⟨m, path, own, hdeclared, hhead⟩
    change declaredSecurity (petsSpec reqs) m path = _ at hdeclared
    rw [declaredSecurity_petsSpec] at hdeclared
    split at hdeclared
    · obtain rfl := Option.some.inj (Option.some.inj hdeclared)
      exact hhead
    · cases hdeclared
  · exact fun h => ⟨.get, "/pets", reqs, declaredSecurity_petsSpec, h⟩

/-- With a token only, the API key is rightly reported. -/
theorem reportsUnreferenced_token : ∃ doc, resolve (getSpec ["/pets"]) = .ok doc ∧
    ReportsUnreferenced (petsTraced [IndexMap.ofList [("bearerAuth", [])]])
      (analyzeSecurityDetailed id doc (petsTraced [IndexMap.ofList [("bearerAuth", [])]]).toSpec) := by
  refine ⟨_, rfl, (reportsUnreferenced_iff id rfl (sameDocument_petsSpec _)).mpr ?_⟩
  refine List.forall_mem_cons.mpr ⟨fun _ => ?_, List.forall_mem_singleton.mpr fun href => ?_⟩
  · exact Or.inl (namedFirst_petsTraced.mpr rfl)
  · exact absurd (referenced_petsTraced.mp href) (by decide +kernel)

/-- A token and an API key, both at once. -/
def bothSchemes : List SecurityRequirement :=
  [IndexMap.ofList [("bearerAuth", []), ("apiKey", [])]]

/-- The API key of `GET /pets` is reported as not referenced. -/
theorem both_schemes_reported : ¬ ∀ (spec : TracedSpec) (o : OpenAPI) (doc : Document),
    resolve o = .ok doc → SameDocument spec.toSpec o → ∀ toLowercase,
      ReportsUnreferenced spec (analyzeSecurityDetailed toLowercase doc spec.toSpec) := by
  intro h
  have hkey : ("apiKey", .item (.apiKey "X-Api-Key")) ∈
      declaredSchemes (petsTraced bothSchemes).toSpec := List.mem_cons_of_mem _ List.mem_cons_self
  have hreport := h (petsTraced bothSchemes) (getSpec ["/pets"]) _ rfl
    (sameDocument_petsSpec bothSchemes) id _ hkey
  refine hreport.mp ?_ (referenced_petsTraced.mpr (by decide +kernel))
  refine (reportsUnused_iff id rfl (sameDocument_petsSpec bothSchemes)).mpr ⟨_, hkey, ?_⟩
  rintro (hfirst | hglobal)
  · exact absurd (namedFirst_petsTraced.mp hfirst) (by decide +kernel)
  · cases hglobal

end SpecForge.Security
