import SpecForge.Core.LintConfig
import SpecForge.Core.OperationIds

/-!
# The linter and `specforge check`

The rules go over a resolved document one after the other, and `check` fails where something they
report is an error.

- §1 the rules; §2 the command.
- §3 what a rule reports; §4 what fails a check, in terms of the specification that was resolved.
-/

namespace SpecForge

open Lib
open OpenApi (OpenAPI ReferenceOr)

/-! ## §1  The rules -/

/-- What the rule says about an operation whose id was seen before, first at this path. -/
def duplicateId (config : LintConfig) (op : Operation) (firstPath : String) : Diagnostic where
  severity := config.severity "duplicate-operation-ids"
  message := "duplicate operationId " ++ Text.debugStr op.operationId ++ " (first seen at "
    ++ firstPath ++ ")"
  path := "operations." ++ op.operationId

/-- One turn of the loop of `check_duplicate_operation_ids`, with the first path of each id. -/
def noteId (config : LintConfig) (st : List Diagnostic × IndexMap String String)
    (op : Operation) : List Diagnostic × IndexMap String String :=
  match st.2.get op.operationId with
  | some firstPath => (st.1 ++ [duplicateId config op firstPath], st.2)
  | none => (st.1, st.2.insert op.operationId op.path)

def checkDuplicateOperationIds (doc : Document) (config : LintConfig)
    (diags : List Diagnostic) : List Diagnostic :=
  (doc.operations.foldl (noteId config) (diags, .empty)).1

def checkMissingResponseDescriptions (doc : Document) (config : LintConfig)
    (diags : List Diagnostic) : List Diagnostic :=
  diags ++ doc.operations.flatMap fun op =>
    (op.responses.filter (·.description.isNone)).map fun resp =>
      { severity := config.severity "missing-response-description"
        message := "response " ++ resp.status ++ " has no description"
        path := "operations." ++ op.operationId ++ ".responses." ++ resp.status }

def checkMissingOperationSummaries (doc : Document) (config : LintConfig)
    (diags : List Diagnostic) : List Diagnostic :=
  diags ++ (doc.operations.filter (·.summary.isNone)).map fun op =>
    { severity := config.severity "missing-operation-summary"
      message := "operation has no summary"
      path := "operations." ++ op.operationId }

def checkMissingOperationIds (doc : Document) (config : LintConfig)
    (diags : List Diagnostic) : List Diagnostic :=
  diags ++ (doc.operations.filter fun op => decide (op.operationId = "")).map fun op =>
    { severity := config.severity "missing-operation-id"
      message := "operation " ++ op.method.asStr ++ " " ++ op.path ++ " has no operationId"
      path := "operations." ++ op.method.asStr ++ "." ++ op.path }

def Model.description : Model → Option String
  | .object o => o.description
  | .enum e => e.description

def checkMissingSchemaDescriptions (doc : Document) (config : LintConfig)
    (diags : List Diagnostic) : List Diagnostic :=
  diags ++ (doc.schemas.models.entries.filter (·.2.description.isNone)).map fun schema =>
    { severity := config.severity "missing-schema-description"
      message := "schema " ++ Text.debugStr schema.1 ++ " has no description"
      path := "schemas." ++ schema.1 }

/-- A path that ends in a slash and is more than that. -/
def hasTrailingSlash (path : String) : Bool := decide (1 < path.utf8ByteSize) && Text.endsWith "/" path

def checkPathTrailingSlash (doc : Document) (config : LintConfig)
    (diags : List Diagnostic) : List Diagnostic :=
  diags ++ (doc.operations.filter fun op => hasTrailingSlash op.path).map fun op =>
    { severity := config.severity "path-trailing-slash"
      message := "path " ++ Text.debugStr op.path ++ " has a trailing slash"
      path := "operations." ++ op.operationId }

/-- The rule is a placeholder. -/
def checkDeprecatedOperations (_doc : Document) (_config : LintConfig)
    (diags : List Diagnostic) : List Diagnostic := diags

/-- The fuel is for the loop of the rule for unused schemas. -/
def lintWithConfig (fuel : ℕ) (doc : Document) (config : LintConfig) :
    Option (List Diagnostic) :=
  let diags := []
  let diags := if config.isEnabled "duplicate-operation-ids" then
    checkDuplicateOperationIds doc config diags else diags
  let diags := if config.isEnabled "missing-response-description" then
    checkMissingResponseDescriptions doc config diags else diags
  let diags := if config.isEnabled "missing-operation-summary" then
    checkMissingOperationSummaries doc config diags else diags
  (if config.isEnabled "unused-schema" then
    checkUnusedSchemas fuel doc config diags else some diags).map fun diags =>
  let diags := if config.isEnabled "missing-operation-id" then
    checkMissingOperationIds doc config diags else diags
  let diags := if config.isEnabled "missing-schema-description" then
    checkMissingSchemaDescriptions doc config diags else diags
  let diags := if config.isEnabled "path-trailing-slash" then
    checkPathTrailingSlash doc config diags else diags
  if config.isEnabled "deprecated-operation" then
    checkDeprecatedOperations doc config diags else diags

/-! ## §2  The command -/

def Severity.display : Severity → String
  | .warning => "warning"
  | .error => "error"

def Diagnostic.display (d : Diagnostic) : String :=
  d.severity.display ++ ": " ++ d.message ++ " [" ++ d.path ++ "]"

/-- What is printed, and whether the check has failed. -/
structure CheckReport where
  lines : List String
  hasErrors : Bool

/-- One turn of the loop that prints the findings. -/
def CheckReport.print (strict : Bool) (report : CheckReport) (diag : Diagnostic) : CheckReport :=
  if diag.severity = .error ∨ strict = true ∧ diag.severity = .warning then
    ⟨report.lines ++ ["error: " ++ diag.display], true⟩
  else ⟨report.lines ++ ["warning: " ++ diag.display], report.hasErrors⟩

def checkReport (strict : Bool) (diagnostics : List Diagnostic) : CheckReport :=
  let report := diagnostics.foldl (CheckReport.print strict) ⟨[], false⟩
  if diagnostics.isEmpty then report
  else
    let errors := (diagnostics.filter fun d => decide (d.severity = .error)).length
    let warnings := diagnostics.length - errors
    if 0 < errors then
      ⟨report.lines ++ ["\n" ++ toString errors ++ " error(s), " ++ toString warnings
        ++ " warning(s)"], report.hasErrors⟩
    else if strict = true ∧ 0 < warnings then
      ⟨report.lines ++ ["\n" ++ toString warnings ++ " warning(s) treated as errors (--strict)"],
        true⟩
    else ⟨report.lines ++ ["\n" ++ toString warnings ++ " warning(s)"], report.hasErrors⟩

/-- `run_check` on a parsed specification, with the configuration that was loaded. -/
def runCheck (t : CaseTable) (fuel : ℕ) (cli : CheckArgs) (loaded : LintConfig)
    (spec : OpenAPI) : Option (Except CheckError CheckReport) :=
  match resolve spec with
  | .error cause => some (.error (.resolve cause))
  | .ok doc =>
      match cli.configure t loaded with
      | .error cause => some (.error cause)
      | .ok config => (lintWithConfig fuel doc config).map fun diags =>
          .ok (checkReport cli.strict diags)

/-! ## §3  What a rule reports -/

/-- The loop knows the first path of each id it has seen. -/
theorem get_foldl_noteId (config : LintConfig) (diags : List Diagnostic) (ops : List Operation) :
    ∀ id, (ops.foldl (noteId config) (diags, .empty)).2.get id =
      (ops.find? (·.operationId = id)).map (·.path) := by
  induction ops using List.reverseRecOn with
  | nil => exact fun _ => rfl
  | append_singleton ops op ih =>
      intro id
      rw [List.foldl_append, List.foldl_cons, List.foldl_nil, noteId, ih, List.find?_append,
        List.find?_singleton]
      cases hfirst : ops.find? (·.operationId = op.operationId) with
      | some first =>
          show (ops.foldl (noteId config) (diags, .empty)).2.get id = _
          rw [ih]
          by_cases hid : op.operationId = id
          · rw [← hid, hfirst]
            rfl
          · simp [hid]
      | none =>
          show ((ops.foldl (noteId config) (diags, .empty)).2.insert op.operationId op.path).get id
            = _
          rw [IndexMap.get_insert, ih]
          by_cases hid : op.operationId = id
          · rw [← hid, hfirst]
            simp
          · simp [hid, Ne.symm hid]

/-- **A repeated id is reported at each operation but the first that has it**, with the path of
the first. -/
theorem mem_checkDuplicateOperationIds {doc : Document} {config : LintConfig}
    {diags : List Diagnostic} {d : Diagnostic} :
    d ∈ checkDuplicateOperationIds doc config diags ↔ d ∈ diags ∨
      ∃ earlier op later first, doc.operations = earlier ++ op :: later ∧
        earlier.find? (·.operationId = op.operationId) = some first ∧
        d = duplicateId config op first.path := by
  rw [checkDuplicateOperationIds]
  generalize doc.operations = ops
  induction ops using List.reverseRecOn with
  | nil => simp
  | append_singleton ops op ih =>
      have hlast : d ∈ ((ops ++ [op]).foldl (noteId config) (diags, .empty)).1 ↔
          d ∈ (ops.foldl (noteId config) (diags, .empty)).1 ∨
            ∃ first, ops.find? (·.operationId = op.operationId) = some first ∧
              d = duplicateId config op first.path := by
        rw [List.foldl_append, List.foldl_cons, List.foldl_nil, noteId, get_foldl_noteId]
        cases ops.find? (·.operationId = op.operationId) with
        | some first => simp
        | none => simp
      rw [hlast, ih, or_assoc]
      refine or_congr Iff.rfl ⟨?_, ?_⟩
      · rintro (⟨earlier, op', later, first, rfl, h⟩ | ⟨first, h⟩)
        · exact ⟨earlier, op', later ++ [op], first, by simp, h⟩
        · exact ⟨ops, op, [], first, rfl, h⟩
      · rintro ⟨earlier, op', later, first, hsplit, h⟩
        rcases List.eq_nil_or_concat later with rfl | ⟨later, op'', rfl⟩
        · obtain ⟨rfl, heq⟩ := List.append_inj' hsplit rfl
          obtain rfl : op = op' := List.head_eq_of_cons_eq heq
          exact Or.inr ⟨first, h⟩
        · have hops : ops ++ [op] = (earlier ++ op' :: later) ++ [op''] := by
            rw [hsplit]
            simp
          exact Or.inl ⟨earlier, op', later, first, (List.append_inj' hops rfl).1, h⟩

/-- Of equal keys, one has another before it. -/
theorem not_nodup_map_iff {α β : Type} {f : α → β} {l : List α} : ¬(l.map f).Nodup ↔
    ∃ earlier a later, l = earlier ++ a :: later ∧ f a ∈ earlier.map f := by
  induction l using List.reverseRecOn with
  | nil => simp
  | append_singleton l a ih =>
      have hlast : ((l ++ [a]).map f).Nodup ↔ (l.map f).Nodup ∧ f a ∉ l.map f := by
        rw [List.map_append, List.map_singleton, List.nodup_append_comm]
        simp [and_comm]
      rw [hlast, not_and_or, ih, not_not]
      constructor
      · rintro (⟨earlier, b, later, rfl, h⟩ | h)
        · exact ⟨earlier, b, later ++ [a], by simp, h⟩
        · exact ⟨l, a, [], rfl, h⟩
      · rintro ⟨earlier, b, later, hsplit, h⟩
        rcases List.eq_nil_or_concat later with rfl | ⟨later, c, rfl⟩
        · obtain ⟨rfl, heq⟩ := List.append_inj' hsplit rfl
          obtain rfl : a = b := List.head_eq_of_cons_eq heq
          exact Or.inr h
        · have hl : l ++ [a] = (earlier ++ b :: later) ++ [c] := by
            rw [hsplit]
            simp
          exact Or.inl ⟨earlier, b, later, (List.append_inj' hl rfl).1, h⟩

/-- Something that was reported has a severity of this kind. -/
def Raises (P : Severity → Prop) (diags : List Diagnostic) : Prop := ∃ d ∈ diags, P d.severity

section Raises

variable {P : Severity → Prop} {doc : Document} {config : LintConfig} {diags : List Diagnostic}

/-- A rule has one severity, so it raises something if its severity counts and it reports at all. -/
theorem raises_of_mem_iff {diags' : List Diagnostic} {F : Diagnostic → Prop} {sev : Severity}
    (hmem : ∀ d, d ∈ diags' ↔ d ∈ diags ∨ F d) (hsev : ∀ d, F d → d.severity = sev) :
    Raises P diags' ↔ Raises P diags ∨ P sev ∧ ∃ d, F d := by
  constructor
  · rintro ⟨d, hd, hP⟩
    rcases (hmem d).mp hd with hd | hd
    · exact Or.inl ⟨d, hd, hP⟩
    · exact Or.inr ⟨hsev d hd ▸ hP, d, hd⟩
  · rintro (⟨d, hd, hP⟩ | ⟨hP, d, hd⟩)
    · exact ⟨d, (hmem d).mpr (Or.inl hd), hP⟩
    · exact ⟨d, (hmem d).mpr (Or.inr hd), (hsev d hd).symm ▸ hP⟩

theorem raises_append_map {α : Type} (l : List α) (sev : Severity) (message path : α → String) :
    Raises P (diags ++ l.map fun a => ⟨sev, message a, path a⟩) ↔
      Raises P diags ∨ P sev ∧ ∃ a, a ∈ l := by
  have hsev : ∀ d ∈ l.map fun a => (⟨sev, message a, path a⟩ : Diagnostic), d.severity = sev := by
    intro d hd
    obtain ⟨a, -, rfl⟩ := List.mem_map.mp hd
    rfl
  rw [raises_of_mem_iff (fun d => List.mem_append) hsev]
  simp

theorem raises_duplicateOperationIds : Raises P (checkDuplicateOperationIds doc config diags) ↔
    Raises P diags ∨ P (config.severity "duplicate-operation-ids") ∧
      ¬(doc.operations.map (·.operationId)).Nodup := by
  have hsev : ∀ d, (∃ earlier op later first, doc.operations = earlier ++ op :: later ∧
      earlier.find? (·.operationId = op.operationId) = some first ∧
      d = duplicateId config op first.path) →
      d.severity = config.severity "duplicate-operation-ids" := by
    rintro d ⟨earlier, op, later, first, -, -, rfl⟩
    rfl
  rw [raises_of_mem_iff (fun d => mem_checkDuplicateOperationIds) hsev, not_nodup_map_iff]
  refine or_congr Iff.rfl (and_congr Iff.rfl ⟨?_, ?_⟩)
  · rintro ⟨d, earlier, op, later, first, hsplit, hfirst, -⟩
    have hid : first.operationId = op.operationId := by simpa using List.find?_some hfirst
    exact ⟨earlier, op, later, hsplit,
      List.mem_map.mpr ⟨first, List.mem_of_find?_eq_some hfirst, hid⟩⟩
  · rintro ⟨earlier, op, later, hsplit, hid⟩
    obtain ⟨op', hop', hid⟩ := List.mem_map.mp hid
    obtain ⟨first, hfirst⟩ : ∃ first, earlier.find? (·.operationId = op.operationId) =
        some first := by
      rw [← Option.isSome_iff_exists, List.find?_isSome]
      exact ⟨op', hop', decide_eq_true hid⟩
    exact ⟨_, earlier, op, later, first, hsplit, hfirst, rfl⟩

theorem raises_missingResponseDescriptions :
    Raises P (checkMissingResponseDescriptions doc config diags) ↔ Raises P diags ∨
      P (config.severity "missing-response-description") ∧
        ∃ op ∈ doc.operations, ∃ resp ∈ op.responses, resp.description = none := by
  have hsev : ∀ d, d ∈ (doc.operations.flatMap fun op =>
      (op.responses.filter (·.description.isNone)).map fun resp =>
        ({ severity := config.severity "missing-response-description"
           message := "response " ++ resp.status ++ " has no description"
           path := "operations." ++ op.operationId ++ ".responses." ++ resp.status } :
          Diagnostic)) → d.severity = config.severity "missing-response-description" := by
    intro d hd
    obtain ⟨op, -, hd⟩ := List.mem_flatMap.mp hd
    obtain ⟨resp, -, rfl⟩ := List.mem_map.mp hd
    rfl
  refine (raises_of_mem_iff (fun d => List.mem_append) hsev).trans ?_
  simp only [List.mem_flatMap, List.mem_map, List.mem_filter, Option.isNone_iff_eq_none]
  refine or_congr Iff.rfl (and_congr Iff.rfl ⟨?_, ?_⟩)
  · rintro ⟨d, op, hop, resp, ⟨hresp, hnone⟩, -⟩
    exact ⟨op, hop, resp, hresp, hnone⟩
  · rintro ⟨op, hop, resp, hresp, hnone⟩
    exact ⟨_, op, hop, resp, ⟨hresp, hnone⟩, rfl⟩

theorem raises_missingOperationSummaries :
    Raises P (checkMissingOperationSummaries doc config diags) ↔ Raises P diags ∨
      P (config.severity "missing-operation-summary") ∧
        ∃ op ∈ doc.operations, op.summary = none := by
  refine (raises_append_map _ _ _ _).trans ?_
  simp

theorem raises_missingOperationIds : Raises P (checkMissingOperationIds doc config diags) ↔
    Raises P diags ∨ P (config.severity "missing-operation-id") ∧
      ∃ op ∈ doc.operations, op.operationId = "" := by
  refine (raises_append_map _ _ _ _).trans ?_
  simp

theorem raises_missingSchemaDescriptions :
    Raises P (checkMissingSchemaDescriptions doc config diags) ↔ Raises P diags ∨
      P (config.severity "missing-schema-description") ∧
        ∃ schema ∈ doc.schemas.models.entries, schema.2.description = none := by
  refine (raises_append_map _ _ _ _).trans ?_
  simp

theorem raises_pathTrailingSlash : Raises P (checkPathTrailingSlash doc config diags) ↔
    Raises P diags ∨ P (config.severity "path-trailing-slash") ∧
      ∃ op ∈ doc.operations, hasTrailingSlash op.path = true := by
  refine (raises_append_map _ _ _ _).trans ?_
  simp

/-- A rule that is off raises nothing. -/
theorem raises_ite {b : Bool} {diags' : List Diagnostic} {Q : Prop}
    (h : Raises P diags' ↔ Raises P diags ∨ Q) :
    Raises P (if b then diags' else diags) ↔ Raises P diags ∨ b = true ∧ Q := by
  cases b <;> simp [h]

end Raises

theorem hasErrors_checkReport (strict : Bool) (diagnostics : List Diagnostic) :
    (checkReport strict diagnostics).hasErrors = true ↔
      Raises (fun sev => strict = true ∨ sev = .error) diagnostics := by
  have hloop : ∀ (ds : List Diagnostic) (report : CheckReport),
      (ds.foldl (CheckReport.print strict) report).hasErrors = true ↔ report.hasErrors = true ∨
        Raises (fun sev => strict = true ∨ sev = .error) ds := by
    intro ds
    induction ds with
    | nil => simp [Raises]
    | cons d ds ih =>
        intro report
        have hd : (report.print strict d).hasErrors = true ↔
            report.hasErrors = true ∨ strict = true ∨ d.severity = .error := by
          rw [CheckReport.print]
          cases hsev : d.severity <;> cases strict <;> simp
        rw [List.foldl_cons, ih, hd]
        simp [Raises, or_assoc]
  have hreport := hloop diagnostics ⟨[], false⟩
  simp only [Bool.false_eq_true, false_or] at hreport
  rw [← hreport, checkReport]
  cases diagnostics with
  | nil => rfl
  | cons d ds =>
      rw [if_neg (by simp)]
      dsimp only
      -- the branch that sets the flag again is for strict checks, where every finding sets it
      split
      · rfl
      · split
        · rename_i hwarnings
          rw [hreport]
          exact iff_of_true rfl ⟨d, List.mem_cons_self, Or.inl hwarnings.1⟩
        · rfl

/-! ## §4  What fails a check -/

/-- The id of an operation of a specification, given or made. -/
def specId (x : HttpMethod × String × OpenApi.Operation) : String :=
  x.2.2.operationId.getD (synthesizeOperationId x.1 x.2.1)

/-- The rules of the linter. -/
inductive Rule where
  | duplicateOperationIds
  | missingResponseDescription
  | missingOperationSummary
  | unusedSchema
  | missingOperationId
  | missingSchemaDescription
  | pathTrailingSlash
  | deprecatedOperation

def Rule.name : Rule → String
  | .duplicateOperationIds => "duplicate-operation-ids"
  | .missingResponseDescription => "missing-response-description"
  | .missingOperationSummary => "missing-operation-summary"
  | .unusedSchema => "unused-schema"
  | .missingOperationId => "missing-operation-id"
  | .missingSchemaDescription => "missing-schema-description"
  | .pathTrailingSlash => "path-trailing-slash"
  | .deprecatedOperation => "deprecated-operation"

/-- What gives a rule something to report. A response with a status code has no description in the
resolved document, whatever it has in the specification; a made id is not empty; and nothing is
known of deprecated operations. -/
def Offends (spec : OpenAPI) (doc : Document) : Rule → Prop
  | .duplicateOperationIds => ¬((specOperations spec).map specId).Nodup
  | .missingResponseDescription =>
      ∃ x ∈ specOperations spec, x.2.2.responses.responses.entries ≠ []
  | .missingOperationSummary => ∃ x ∈ specOperations spec, x.2.2.summary = none
  | .unusedSchema => ∃ fuel referenced, collectReferencedSchemaNames fuel doc = some referenced ∧
      ∃ name ∈ doc.schemas.names, name ∉ referenced
  | .missingOperationId => ∃ x ∈ specOperations spec, x.2.2.operationId = some ""
  | .missingSchemaDescription =>
      ∃ c name s, spec.components = some c ∧ c.schemas.get name = some (.item s) ∧
        s.schemaData.description = none
  | .pathTrailingSlash => ∃ x ∈ specOperations spec, hasTrailingSlash x.2.1 = true
  | .deprecatedOperation => False

/-- What a rule reports, if it runs and its severity counts. -/
def Fires (P : Severity → Prop) (config : LintConfig) (spec : OpenAPI) (doc : Document)
    (rule : Rule) : Prop :=
  config.isEnabled rule.name = true ∧ P (config.severity rule.name) ∧ Offends spec doc rule

section Resolved

variable {spec : OpenAPI} {doc : Document}

/-- What a rule reads of the operations, read off the specification. -/
theorem map_resolveOperations {β : Type} {f : Operation → β}
    {g : HttpMethod × String × OpenApi.Operation → β}
    (hfg : ∀ method path op params,
      f (resolveOperation method path op params spec.components) = g (method, path, op)) :
    (resolveOperations spec.paths spec.components).map f = (specOperations spec).map g := by
  rw [resolveOperations, specOperations, List.map_flatMap, List.map_flatMap]
  refine List.flatMap_congr fun e _ => ?_
  obtain ⟨path, itemOr⟩ := e
  cases itemOr with
  | reference reference => rfl
  | item item =>
      rw [List.map_map, List.map_map]
      apply List.map_congr_left
      rintro ⟨method, op⟩ -
      exact hfg method path op item.parameters

theorem exists_operation_iff (h : resolve spec = .ok doc) {P : Operation → Prop}
    {Q : HttpMethod × String × OpenApi.Operation → Prop}
    (hPQ : ∀ method path op params,
      P (resolveOperation method path op params spec.components) ↔ Q (method, path, op)) :
    (∃ op ∈ doc.operations, P op) ↔ ∃ x ∈ specOperations spec, Q x := by
  have hmem : ∀ {α : Type} (l : List α) (R : α → Prop), (∃ a ∈ l, R a) ↔ True ∈ l.map R := by
    intro α l R
    rw [List.mem_map]
    simp only [eq_iff_iff, iff_true]
  have hmap : doc.operations.map P = (specOperations spec).map Q := by
    rw [resolve_operations h]
    exact map_resolveOperations fun method path op params => propext (hPQ method path op params)
  rw [hmem, hmap, ← hmem]

/-- Only the default response keeps its description. -/
theorem exists_undescribed_response_iff (responses : OpenApi.Responses) :
    (∃ resp ∈ resolveResponses responses, resp.description = none) ↔
      responses.responses.entries ≠ [] := by
  rw [resolveResponses]
  cases hentries : responses.responses.entries with
  | cons e es => exact iff_of_true ⟨_, List.mem_append_left _ List.mem_cons_self, rfl⟩ (by simp)
  | nil =>
      refine iff_of_false ?_ (by simp)
      rintro ⟨resp, hresp, hnone⟩
      rw [List.map_nil, List.nil_append] at hresp
      split at hresp
      · rw [List.mem_singleton.mp hresp] at hnone
        cases hnone
      · exact List.not_mem_nil hresp

theorem specId_eq_empty_iff (x : HttpMethod × String × OpenApi.Operation) :
    specId x = "" ↔ x.2.2.operationId = some "" := by
  obtain ⟨method, path, op⟩ := x
  rw [specId]
  cases hid : op.operationId with
  | some id => simp
  | none =>
      refine iff_of_false ?_ (by simp)
      show ¬synthesizeOperationId method path = ""
      rw [synthesizeOperationId_eq]
      intro hempty
      rw [String.append_eq_empty_iff] at hempty
      cases method <;> exact absurd hempty.1 (by decide)

theorem exists_undescribed_schema_iff (h : resolve spec = .ok doc) :
    (∃ schema ∈ doc.schemas.models.entries, schema.2.description = none) ↔
      ∃ c name s, spec.components = some c ∧ c.schemas.get name = some (.item s) ∧
        s.schemaData.description = none := by
  have hdescription : ∀ c known name s,
      (modelOf c known name s).description = s.schemaData.description := by
    intro c known name s
    rw [modelOf]
    split <;> rfl
  constructor
  · rintro ⟨⟨name, model⟩, hmodel, hnone⟩
    obtain ⟨c, s, known, hc, hs, rfl⟩ := resolve_models h (IndexMap.mem_entries_iff.mp hmodel)
    exact ⟨c, name, s, hc, hs, hdescription c known name s ▸ hnone⟩
  · rintro ⟨c, name, s, hc, hs, hnone⟩
    obtain ⟨known, hmodel⟩ := resolve_schema h hc hs
    exact ⟨(name, _), IndexMap.mem_entries_iff.mpr hmodel,
      (hdescription c known name s).trans hnone⟩

/-- The loop of the rule for unused schemas finds the same names with any fuel that is enough. -/
theorem mem_collectReferencedSchemaNames_iff {fuel : ℕ} {referenced : List String} {name : String}
    (h : collectReferencedSchemaNames fuel doc = some referenced) :
    name ∈ referenced ↔ ∀ k, doc.QuietSweep k → doc.FoundBy (k + 1) 0 name := by
  rw [collectReferencedSchemaNames, collectLoop_eq] at h
  exact Sweep.mem_run_iff_found h

theorem raises_unusedSchemas {P : Severity → Prop} {config : LintConfig} {fuel : ℕ}
    {diags diags' : List Diagnostic}
    (h : checkUnusedSchemas fuel doc config diags = some diags') :
    Raises P diags' ↔ Raises P diags ∨
      P (config.severity "unused-schema") ∧ Offends spec doc .unusedSchema := by
  rw [checkUnusedSchemas, Option.bind_eq_bind, Option.bind_eq_some_iff] at h
  obtain ⟨referenced, hcollect, hreturn⟩ := h
  obtain rfl := Option.some.inj hreturn
  refine (raises_append_map _ _ _ _).trans (or_congr Iff.rfl (and_congr Iff.rfl ?_))
  simp only [List.mem_filter, decide_eq_true_eq]
  constructor
  · rintro ⟨name, hname, hnot⟩
    exact ⟨fuel, referenced, hcollect, name, hname, hnot⟩
  · rintro ⟨fuel', referenced', hcollect', name, hname, hnot⟩
    refine ⟨name, hname, ?_⟩
    rwa [mem_collectReferencedSchemaNames_iff hcollect,
      ← mem_collectReferencedSchemaNames_iff hcollect']

/-- The rules in the order in which they run. -/
theorem exists_rule_iff {Q : Rule → Prop} : (∃ rule, Q rule) ↔
    (((((((Q .duplicateOperationIds ∨ Q .missingResponseDescription) ∨
      Q .missingOperationSummary) ∨ Q .unusedSchema) ∨ Q .missingOperationId) ∨
      Q .missingSchemaDescription) ∨ Q .pathTrailingSlash) ∨ Q .deprecatedOperation) := by
  constructor
  · rintro ⟨rule, hrule⟩
    cases rule <;> simp [hrule]
  · rintro (((((((h | h) | h) | h) | h) | h) | h) | h) <;> exact ⟨_, h⟩

/-- **What is raised on a resolved specification**: what the rules that run have to report. -/
theorem raises_lintWithConfig {P : Severity → Prop} {config : LintConfig} {fuel : ℕ}
    {diags : List Diagnostic} (h : resolve spec = .ok doc)
    (hlint : lintWithConfig fuel doc config = some diags) :
    Raises P diags ↔ ∃ rule, Fires P config spec doc rule := by
  rw [lintWithConfig, Option.map_eq_some_iff] at hlint
  obtain ⟨unused, hunused, rfl⟩ := hlint
  have hids : doc.operations.map (·.operationId) = (specOperations spec).map specId := by
    rw [resolve_operations h]
    exact resolveOperations_ids spec
  -- what each rule reads of the document, read off the specification
  have hresponse := exists_operation_iff h
    (P := fun op => ∃ resp ∈ op.responses, resp.description = none)
    (Q := fun x => x.2.2.responses.responses.entries ≠ []) fun _ _ op _ =>
      exists_undescribed_response_iff op.responses
  have hsummary := exists_operation_iff h (P := fun op => op.summary = none)
    (Q := fun x => x.2.2.summary = none) fun _ _ _ _ => Iff.rfl
  have hid := exists_operation_iff h (P := fun op => op.operationId = "")
    (Q := fun x => x.2.2.operationId = some "") fun method path op _ =>
      specId_eq_empty_iff (method, path, op)
  have hslash := exists_operation_iff h (P := fun op => hasTrailingSlash op.path = true)
    (Q := fun x => hasTrailingSlash x.2.1 = true) fun _ _ _ _ => Iff.rfl
  have hunusedSchema : ∀ diags, (if config.isEnabled "unused-schema" then
      checkUnusedSchemas fuel doc config diags else some diags) = some unused →
      (Raises P unused ↔ Raises P diags ∨ Fires P config spec doc .unusedSchema) := by
    intro diags hif
    split at hif
    · rename_i henabled
      have hraises : Raises P unused ↔ Raises P diags ∨
          P (config.severity "unused-schema") ∧ Offends spec doc .unusedSchema :=
        raises_unusedSchemas hif
      rw [hraises, Fires, Rule.name, henabled]
      simp
    · rename_i henabled
      rw [← Option.some.inj hif, Fires, Rule.name]
      simp [henabled]
  have hnone : ¬Raises P [] := by rintro ⟨d, hd, -⟩; exact List.not_mem_nil hd
  have hdeprecated : ∀ diags, Raises P (if config.isEnabled "deprecated-operation" then
      checkDeprecatedOperations doc config diags else diags) ↔
        Raises P diags ∨ Fires P config spec doc .deprecatedOperation := by
    intro diags
    simp [checkDeprecatedOperations, Fires, Offends]
  rw [exists_rule_iff, hdeprecated, raises_ite raises_pathTrailingSlash, hslash,
    raises_ite raises_missingSchemaDescriptions, exists_undescribed_schema_iff h,
    raises_ite raises_missingOperationIds, hid, hunusedSchema _ hunused,
    raises_ite raises_missingOperationSummaries, hsummary,
    raises_ite raises_missingResponseDescriptions, hresponse,
    raises_ite raises_duplicateOperationIds, hids]
  simp only [hnone, false_or]
  rfl

/-- **When a check fails**: exactly if a rule that runs has something to report in the
specification and is an error, or any finding is one under `--strict`. A response with a status
code offends with a description too, an operation without an id only if it has the empty one. -/
theorem check_fails_iff {t : CaseTable} {cli : CheckArgs} {loaded config : LintConfig}
    (h : resolve spec = .ok doc) (hconfig : cli.configure t loaded = .ok config) :
    (∃ fuel report, runCheck t fuel cli loaded spec = some (.ok report)) ∧
    ∀ fuel report, runCheck t fuel cli loaded spec = some (.ok report) →
      (report.hasErrors = true ↔ ∃ rule : Rule, config.isEnabled rule.name = true ∧
        (cli.strict = true ∨ config.severity rule.name = .error) ∧ Offends spec doc rule) := by
  have hrun : ∀ fuel, runCheck t fuel cli loaded spec =
      (lintWithConfig fuel doc config).map fun diags => .ok (checkReport cli.strict diags) := by
    intro fuel
    rw [runCheck, h]
    simp only [hconfig]
  constructor
  · obtain ⟨fuel, referenced, hcollect⟩ := exists_collectReferencedSchemaNames doc
    have hunused : ∀ diags, ∃ diags', checkUnusedSchemas fuel doc config diags = some diags' := by
      intro diags
      exact ⟨_, by rw [checkUnusedSchemas, hcollect]; rfl⟩
    have hlint : ∃ diags, lintWithConfig fuel doc config = some diags := by
      rw [← Option.isSome_iff_exists, lintWithConfig, Option.isSome_map]
      split
      · exact Option.isSome_iff_exists.mpr (hunused _)
      · rfl
    obtain ⟨diags, hdiags⟩ := hlint
    exact ⟨fuel, _, by rw [hrun, hdiags]; rfl⟩
  · intro fuel report hreport
    rw [hrun, Option.map_eq_some_iff] at hreport
    obtain ⟨diags, hdiags, hok⟩ := hreport
    obtain rfl := Except.ok.inj hok
    rw [hasErrors_checkReport, raises_lintWithConfig h hdiags]
    rfl

end Resolved

/-- One operation with everything a rule can ask for. -/
def pingSpec : OpenAPI where
  info := ⟨"Ping", "1.0.0"⟩
  servers := []
  paths := IndexMap.ofList [("/ping", .item
    { get := some ⟨[], some "Ping", none, some "ping", [], none,
        ⟨none, IndexMap.ofList [(.code 200, .item ⟨"The answer.", .empty⟩)]⟩⟩
      put := none
      post := none
      delete := none
      options := none
      head := none
      patch := none
      parameters := [] })]
  components := none
  security := none

/-- `check --strict`. -/
def strictly : CheckArgs := ⟨true, [], [], []⟩

/-- The answer is described, and still a strict check fails. -/
theorem check_fails_ping : ∃ fuel report,
    runCheck .ascii fuel strictly LintConfig.default pingSpec = some (.ok report) ∧
      report.hasErrors = true := by
  obtain ⟨doc, hdoc⟩ : ∃ doc, resolve pingSpec = .ok doc := ⟨_, rfl⟩
  have hconfig : strictly.configure .ascii LintConfig.default = .ok LintConfig.default := rfl
  obtain ⟨⟨fuel, report, hreport⟩, hfails⟩ := check_fails_iff hdoc hconfig
  refine ⟨fuel, report, hreport, (hfails fuel report hreport).mpr ?_⟩
  refine ⟨.missingResponseDescription, by decide, Or.inl rfl, _, List.mem_cons_self, ?_⟩
  exact List.cons_ne_nil _ _

end SpecForge
