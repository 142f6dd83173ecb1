import SpecForge.Core.Resolve
import SpecForge.Core.UnusedSchemas
import SpecForge.Lib.Lists
import SpecForge.Lib.Lowercase

/-!
# The configuration of the linter

A configuration lists rules. The first entry of a name is the one that counts, a rule without an
entry is on, and `check` changes entries as its arguments say: first the rules to turn off, then
those to turn on, then the severities.

- §1 entries; §2 the arguments of `check`.
- §3 which rules run.
-/

namespace SpecForge

open Lib

deriving instance DecidableEq for RuleSeverity
deriving instance DecidableEq for Severity

/-! ## §1  Entries -/

namespace LintConfig

/-- The entry that counts. -/
def rule (config : LintConfig) (ruleName : String) : Option LintRule :=
  config.rules.find? (·.name = ruleName)

def isEnabled (config : LintConfig) (ruleName : String) : Bool :=
  ((config.rule ruleName).map fun r => r.enabled && r.severity != .off).getD true

def default : LintConfig where
  rules :=
    [⟨"duplicate-operation-ids", true, .error⟩,
      ⟨"missing-response-description", true, .warning⟩,
      ⟨"missing-operation-summary", true, .warning⟩,
      ⟨"unused-schema", true, .warning⟩,
      ⟨"missing-operation-id", true, .warning⟩,
      ⟨"missing-schema-description", false, .warning⟩,
      ⟨"path-trailing-slash", true, .warning⟩,
      ⟨"deprecated-operation", true, .warning⟩]

/-- Change the entry that counts, or put a new one behind the others. -/
def amend (config : LintConfig) (ruleName : String) (change : LintRule → LintRule)
    (new : LintRule) : LintConfig :=
  if config.rules.any (·.name = ruleName) then
    ⟨modifyFirst (·.name = ruleName) change config.rules⟩
  else ⟨config.rules ++ [new]⟩

def setEnabled (config : LintConfig) (ruleName : String) (enabled : Bool) : LintConfig :=
  config.amend ruleName (fun r => { r with enabled := enabled }) ⟨ruleName, enabled, .warning⟩

def setSeverity (config : LintConfig) (ruleName : String) (severity : RuleSeverity) :
    LintConfig :=
  config.amend ruleName (fun r => { r with severity := severity })
    ⟨ruleName, severity != .off, severity⟩

theorem severity_eq (config : LintConfig) (ruleName : String) : config.severity ruleName =
    match ((config.rule ruleName).map (·.severity)).getD .warning with
    | .error => .error
    | .warning => .warning
    | .off => .warning := rfl

section Amend

variable {config : LintConfig} {ruleName : String} {change : LintRule → LintRule} {new : LintRule}

theorem rule_eq_none_iff :
    config.rule ruleName = none ↔ config.rules.any (·.name = ruleName) = false := by
  rw [rule, List.find?_eq_none]
  simp

/-- The entries of other rules stay. -/
theorem rule_amend_of_ne (hchange : ∀ r, (change r).name = r.name) (hnew : new.name = ruleName)
    {other : String} (hne : other ≠ ruleName) :
    (config.amend ruleName change new).rule other = config.rule other := by
  rw [amend, rule, rule]
  split
  · rw [← List.head?_filter, ← List.head?_filter]
    apply congrArg
    apply filter_modifyFirst_of_disjoint
    · intro r
      rw [hchange]
    · intro r hr
      have hname : r.name = ruleName := of_decide_eq_true hr
      rw [hname]
      exact decide_eq_false (Ne.symm hne)
  · rw [List.find?_append, List.find?_singleton, hnew, if_neg (by simpa using Ne.symm hne),
      Option.or_none]

theorem rule_amend (hchange : ∀ r, (change r).name = r.name) (hnew : new.name = ruleName) :
    (config.amend ruleName change new).rule ruleName =
      some ((config.rule ruleName).elim new change) := by
  cases hrule : config.rule ruleName with
  | none =>
      have hany := rule_eq_none_iff.mp hrule
      rw [rule] at hrule
      rw [amend, hany, if_neg Bool.false_ne_true, rule, List.find?_append, hrule]
      simp [hnew]
  | some r =>
      have hany : config.rules.any (·.name = ruleName) = true := by
        by_contra hnot
        rw [rule_eq_none_iff.mpr (Bool.eq_false_iff.mpr hnot)] at hrule
        cases hrule
      rw [rule, ← List.head?_filter] at hrule
      rw [amend, if_pos hany, rule, ← List.head?_filter, filter_modifyFirst (by simp [hchange]),
        List.head?_modifyHead, hrule]
      rfl

end Amend

/-- The entry of a rule that is turned on or off. -/
theorem rule_setEnabled (config : LintConfig) (ruleName : String) (enabled : Bool) :
    (config.setEnabled ruleName enabled).rule ruleName = some ((config.rule ruleName).elim
      ⟨ruleName, enabled, .warning⟩ fun r => { r with enabled := enabled }) :=
  rule_amend (fun _ => rfl) rfl

theorem rule_setEnabled_of_ne (config : LintConfig) {ruleName other : String}
    (hne : other ≠ ruleName) (enabled : Bool) :
    (config.setEnabled ruleName enabled).rule other = config.rule other := by
  apply rule_amend_of_ne _ _ hne
  · exact fun _ => rfl
  · rfl

theorem rule_setSeverity (config : LintConfig) (ruleName : String) (severity : RuleSeverity) :
    (config.setSeverity ruleName severity).rule ruleName = some ((config.rule ruleName).elim
      ⟨ruleName, severity != .off, severity⟩ fun r => { r with severity := severity }) :=
  rule_amend (fun _ => rfl) rfl

theorem rule_setSeverity_of_ne (config : LintConfig) {ruleName other : String}
    (hne : other ≠ ruleName) (severity : RuleSeverity) :
    (config.setSeverity ruleName severity).rule other = config.rule other := by
  apply rule_amend_of_ne _ _ hne
  · exact fun _ => rfl
  · rfl

end LintConfig

/-! ## §2  The arguments of `check` -/

/-- `str::rsplit_once`. -/
def rsplitOnce (c : Char) (s : String) : Option (String × String) :=
  match s.toList.reverse.dropWhile (· ≠ c) with
  | [] => none
  | _ :: before =>
      some (String.ofList before.reverse,
        String.ofList (s.toList.reverse.takeWhile (· ≠ c)).reverse)

/-- Parse `RULE:SEVERITY`. -/
def parseSeverityOverride (t : CaseTable) (s : String) : Except String (String × RuleSeverity) :=
  match rsplitOnce ':' s with
  | none => .error ("expected RULE:SEVERITY, got " ++ Text.debugStr s)
  | some (rule, sev) =>
      match String.ofList (t.toLowercase sev.toList) with
      | "error" => .ok (rule, .error)
      | "warning" => .ok (rule, .warning)
      | "warn" => .ok (rule, .warning)
      | "off" => .ok (rule, .off)
      | "none" => .ok (rule, .off)
      | other =>
          .error ("unknown severity " ++ Text.debugStr other ++ ", expected error/warning/off")

structure CheckArgs where
  strict : Bool
  disableRules : List String
  enableRules : List String
  severityOverrides : List String

/-- Why a check ends without a verdict. -/
inductive CheckError where
  | resolve (cause : ResolveError)
  | severity (context cause : String)

namespace CheckArgs

variable (t : CaseTable)

/-- One turn of the loop over the severities. -/
def overrideSeverity (config : LintConfig) (s : String) : Except CheckError LintConfig :=
  match parseSeverityOverride t s with
  | .ok (rule, sev) => .ok (config.setSeverity rule sev)
  | .error cause => .error (.severity ("invalid --severity value: " ++ Text.debugStr s) cause)

/-- The configuration that was loaded, changed as the arguments say. -/
def configure (cli : CheckArgs) (loaded : LintConfig) : Except CheckError LintConfig :=
  let lintCfg := cli.disableRules.foldl (fun cfg rule => cfg.setEnabled rule false) loaded
  let lintCfg := cli.enableRules.foldl (fun cfg rule => cfg.setEnabled rule true) lintCfg
  cli.severityOverrides.foldlM (overrideSeverity t) lintCfg

/-- The severities that the arguments give a rule, in order. -/
def severitiesOf (cli : CheckArgs) (rule : String) : List RuleSeverity :=
  cli.severityOverrides.filterMap fun s =>
    match parseSeverityOverride t s with
    | .ok (name, sev) => if name = rule then some sev else none
    | .error _ => none

end CheckArgs

theorem rsplitOnce_append {c : Char} {after : String} (h : c ∉ after.toList) (before : String) :
    rsplitOnce c (before ++ String.singleton c ++ after) = some (before, after) := by
  have hreverse : (before ++ String.singleton c ++ after).toList.reverse =
      after.toList.reverse ++ c :: before.toList.reverse := by
    simp
  have hrest : ∀ x ∈ after.toList.reverse, decide (x ≠ c) = true := by
    intro x hx
    have hne : x ≠ c := fun heq => h (heq ▸ List.mem_reverse.mp hx)
    simpa using hne
  rw [rsplitOnce, hreverse, List.dropWhile_append_of_pos hrest,
    List.takeWhile_append_of_pos hrest]
  simp

/-- The words for the severities. -/
def severityWords : List (String × RuleSeverity) :=
  [("error", .error), ("warning", .warning), ("warn", .warning), ("off", .off), ("none", .off)]

/-- A severity can be given to a rule of any name, and in any case. -/
theorem parseSeverityOverride_append {t : CaseTable} {word : String × RuleSeverity}
    (hword : word ∈ severityWords) {s : String} (hs : s.toList.map Char.toLower = word.1.toList)
    (hascii : ∀ c ∈ s.toList, c.toNat < 128) (hcolon : ':' ∉ s.toList) (rule : String) :
    parseSeverityOverride t (rule ++ ":" ++ s) = .ok (rule, word.2) := by
  have hsplit : rsplitOnce ':' (rule ++ ":" ++ s) = some (rule, s) := rsplitOnce_append hcolon rule
  have hlower : String.ofList (t.toLowercase s.toList) = word.1 := by
    rw [CaseTable.toLowercase_of_ascii hascii, hs, String.ofList_toList]
  rw [parseSeverityOverride, hsplit]
  simp only [hlower]
  simp only [severityWords, List.mem_cons, List.not_mem_nil, or_false] at hword
  rcases hword with rfl | rfl | rfl | rfl | rfl <;> rfl

/-! ## §3  Which rules run -/

namespace CheckArgs

variable {t : CaseTable} {cli : CheckArgs} {loaded config : LintConfig}

theorem rule_foldl_setEnabled (e : Bool) (rule : String) : ∀ (names : List String)
    (config : LintConfig),
    (names.foldl (fun cfg name => cfg.setEnabled name e) config).rule rule =
      if rule ∈ names then
        some ((config.rule rule).elim ⟨rule, e, .warning⟩ fun r => { r with enabled := e })
      else config.rule rule
  | [], _ => rfl
  | name :: names, config => by
      rw [List.foldl_cons, rule_foldl_setEnabled e rule names]
      by_cases hname : rule = name
      · subst hname
        -- turning a rule on or off again changes nothing
        rw [LintConfig.rule_setEnabled, if_pos List.mem_cons_self]
        cases config.rule rule <;> simp
      · rw [LintConfig.rule_setEnabled_of_ne config hname]
        simp [hname]

/-- What one severity does to the entry of its rule. -/
def giveSeverity (rule : String) (entry : Option LintRule) (sev : RuleSeverity) :
    Option LintRule :=
  some (entry.elim ⟨rule, sev != .off, sev⟩ fun r => { r with severity := sev })

/-- The entry of a rule after the loop over the severities. -/
theorem rule_foldlM_overrideSeverity (rule : String) : ∀ {args : List String}
    {config config' : LintConfig}, args.foldlM (overrideSeverity t) config = .ok config' →
    config'.rule rule = (args.filterMap fun s =>
      match parseSeverityOverride t s with
      | .ok (name, sev) => if name = rule then some sev else none
      | .error _ => none).foldl (giveSeverity rule) (config.rule rule)
  | [], _, _, h => by
      rw [Except.ok.inj h]
      rfl
  | s :: args, config, config', h => by
      rw [List.foldlM_cons] at h
      cases hparse : parseSeverityOverride t s with
      | error cause =>
          rw [overrideSeverity, hparse] at h
          cases h
      | ok parsed =>
          obtain ⟨name, sev⟩ := parsed
          rw [overrideSeverity, hparse] at h
          have htail : args.foldlM (overrideSeverity t) (config.setSeverity name sev) =
              .ok config' := h
          rw [rule_foldlM_overrideSeverity rule htail]
          by_cases hname : name = rule
          · subst hname
            rw [LintConfig.rule_setSeverity]
            simp [hparse, giveSeverity]
          · rw [LintConfig.rule_setSeverity_of_ne config (Ne.symm hname)]
            simp [hparse, hname]

theorem foldl_giveSeverity {rule : String} : ∀ (sevs : List RuleSeverity) (entry : Option LintRule),
    sevs ≠ [] → ∃ r, sevs.foldl (giveSeverity rule) entry = some r ∧
      r.enabled = (entry.map (·.enabled)).getD (decide (sevs.head? ≠ some .off)) ∧
      some r.severity = sevs.getLast? := by
  intro sevs entry
  induction sevs using List.reverseRecOn with
  | nil => exact fun h => absurd rfl h
  | append_singleton sevs sev ih =>
      intro _
      rw [List.foldl_append, List.foldl_cons, List.foldl_nil, List.getLast?_append,
        List.getLast?_singleton]
      by_cases hnil : sevs = []
      · subst hnil
        cases entry with
        | none => exact ⟨_, rfl, by cases sev <;> rfl, rfl⟩
        | some r => exact ⟨_, rfl, rfl, rfl⟩
      · obtain ⟨r, hr, henabled, -⟩ := ih hnil
        refine ⟨{ r with severity := sev }, by rw [hr]; rfl, ?_, rfl⟩
        rw [List.head?_append_of_ne_nil _ hnil]
        exact henabled

/-- The entry that lets a rule run, if any: of the arguments, `--enable-rule` counts before
`--disable-rule`, and the first severity where nothing else says so. -/
def Allows (t : CaseTable) (cli : CheckArgs) (loaded : LintConfig) (rule : String) : Prop :=
  rule ∈ cli.enableRules ∨ rule ∉ cli.disableRules ∧
    match loaded.rule rule with
    | some r => r.enabled = true
    | none => (cli.severitiesOf t rule).head? ≠ some .off

/-- The severity given last, or the one that was loaded. -/
def lastSeverity (t : CaseTable) (cli : CheckArgs) (loaded : LintConfig) (rule : String) :
    RuleSeverity :=
  (cli.severitiesOf t rule).getLast?.getD
    (((loaded.rule rule).map (·.severity)).getD .warning)

/-- The entry of a rule after the loops over the rules to turn off and on. -/
def switched (cli : CheckArgs) (loaded : LintConfig) (rule : String) : Option LintRule :=
  if rule ∈ cli.enableRules then
    some ((loaded.rule rule).elim ⟨rule, true, .warning⟩ fun r => { r with enabled := true })
  else if rule ∈ cli.disableRules then
    some ((loaded.rule rule).elim ⟨rule, false, .warning⟩ fun r => { r with enabled := false })
  else loaded.rule rule

theorem rule_configure (h : cli.configure t loaded = .ok config) (rule : String) :
    config.rule rule =
      (cli.severitiesOf t rule).foldl (giveSeverity rule) (cli.switched loaded rule) := by
  rw [configure] at h
  rw [rule_foldlM_overrideSeverity rule h, rule_foldl_setEnabled, rule_foldl_setEnabled]
  refine congrArg (fun entry => (cli.severitiesOf t rule).foldl (giveSeverity rule) entry) ?_
  rw [switched]
  split
  · split
    · cases loaded.rule rule <;> rfl
    · rfl
  · rfl

theorem allows_iff (rule : String) : cli.Allows t loaded rule ↔
    ((cli.switched loaded rule).map (·.enabled)).getD
      (decide ((cli.severitiesOf t rule).head? ≠ some .off)) = true := by
  by_cases henable : rule ∈ cli.enableRules
  · cases hloaded : loaded.rule rule <;> simp [Allows, switched, henable, hloaded]
  · by_cases hdisable : rule ∈ cli.disableRules
    · cases hloaded : loaded.rule rule <;> simp [Allows, switched, henable, hdisable, hloaded]
    · cases hloaded : loaded.rule rule <;> simp [Allows, switched, henable, hdisable, hloaded]

theorem severity_switched (rule : String) :
    ((cli.switched loaded rule).map (·.severity)).getD .warning =
      ((loaded.rule rule).map (·.severity)).getD .warning := by
  rw [switched]
  split
  · cases loaded.rule rule <;> rfl
  · split
    · cases loaded.rule rule <;> rfl
    · rfl

/-- **Which rules run, and how severe they are**, whatever the arguments: a rule runs if it is
allowed to and is not off in the end. A rule without an entry stays off if its first severity is
`off`, while any other is put back by a later severity. -/
theorem isEnabled_configure_iff (h : cli.configure t loaded = .ok config) (rule : String) :
    (config.isEnabled rule = true ↔
      cli.Allows t loaded rule ∧ cli.lastSeverity t loaded rule ≠ .off) ∧
    (config.severity rule = .error ↔ cli.lastSeverity t loaded rule = .error) := by
  rw [LintConfig.isEnabled, LintConfig.severity_eq, rule_configure h, allows_iff, lastSeverity,
    ← severity_switched]
  generalize cli.switched loaded rule = entry
  by_cases hnil : cli.severitiesOf t rule = []
  · rw [hnil]
    cases entry with
    | none => simp
    | some r =>
        constructor
        · simp
        · obtain ⟨name, enabled, severity⟩ := r
          cases severity <;> simp
  · obtain ⟨r, hr, henabled, hlast⟩ := @foldl_giveSeverity rule _ entry hnil
    rw [hr, ← hlast, ← henabled]
    constructor
    · simp
    · obtain ⟨name, enabled, severity⟩ := r
      cases severity <;> simp

/-- `unused-schema` is turned off and then made an error. -/
def reconsidered : CheckArgs :=
  ⟨false, [], [], ["unused-schema:off", "unused-schema:error"]⟩

theorem configure_reconsidered (loaded : LintConfig) : reconsidered.configure .ascii loaded =
    .ok ((loaded.setSeverity "unused-schema" .off).setSeverity "unused-schema" .error) := by
  rfl

/-- The rule runs if the configuration that was loaded has it, and does not otherwise. -/
theorem isEnabled_configure_reconsidered : ∃ known unknown,
    reconsidered.configure .ascii LintConfig.default = .ok known ∧
    reconsidered.configure .ascii ⟨[]⟩ = .ok unknown ∧
    known.isEnabled "unused-schema" = true ∧ ¬unknown.isEnabled "unused-schema" = true := by
  have hsevs : reconsidered.severitiesOf .ascii "unused-schema" = [.off, .error] := by rfl
  refine ⟨_, _, configure_reconsidered _, configure_reconsidered _, ?_, ?_⟩
  · rw [(isEnabled_configure_iff (configure_reconsidered _) "unused-schema").1, Allows,
      lastSeverity, hsevs]
    exact ⟨Or.inr ⟨List.not_mem_nil, rfl⟩, nofun⟩
  · rw [(isEnabled_configure_iff (configure_reconsidered _) "unused-schema").1, Allows,
      lastSeverity, hsevs]
    rintro ⟨henabled | ⟨-, hfirst⟩, -⟩
    · exact List.not_mem_nil henabled
    · exact hfirst rfl

end CheckArgs

end SpecForge
