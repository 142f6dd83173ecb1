import SpecForge.Rust.Retry
import Mathlib.Data.Finset.Card

/-!
# Telemetry of the Rust client

What a call of `request_json` that is not de-duplicated reports, and what the metrics collector
makes of it (§1). The end and the error of a request are reported attempt by attempt; §2 says
when one of them is reported, once.
-/

namespace SpecForge.Rust

open Lib.Attempts

/-! ## §1  Reports -/

/-- A call from its start on: what the rate limiter returns, if there is one, whether the cache,
if there is one, has an entry, and what comes of the attempts. -/
structure RequestJson where
  baseUrl : String
  method : String
  path : String
  query : List (String × String)
  retry : RetryOptions
  limiter : Option (Except Error Unit)
  lookup : Option Bool
  answers : ℕ → Answer

namespace RequestJson

def call (r : RequestJson) : Call := ⟨r.method, r.baseUrl ++ r.path, r.query, r.answers⟩

/-- The cache is asked for a `GET`. -/
def cacheHooks (r : RequestJson) : List Hook :=
  if r.method = "GET" then
    match r.lookup with
    | none => []
    | some true => [.cacheHit r.method r.path]
    | some false => [.cacheMiss r.method r.path]
  else []

/-- All that is reported. What follows the attempts, the cache and the body, is not. -/
def hooks (r : RequestJson) : List Hook :=
  .requestStart r.method r.path ::
    match r.limiter with
    | some (.error _) => []
    | _ => r.cacheHooks ++ (doWithRetry r.retry r.call).1.flatten

end RequestJson

/-- The counters of the `MetricsCollector`; durations are left out. -/
structure MetricsInner where
  requestCount : ℕ
  errorCount : ℕ
  retryCount : ℕ

def MetricsInner.collect (m : MetricsInner) : Hook → MetricsInner
  | .requestStart .. => { m with requestCount := m.requestCount + 1 }
  | .requestEnd _ _ status =>
      if 400 ≤ status then { m with errorCount := m.errorCount + 1 } else m
  | .requestError .. => { m with errorCount := m.errorCount + 1 }
  | .retry .. => { m with retryCount := m.retryCount + 1 }
  | _ => m

/-- Each hook starts a task that counts; the tasks run in any order. -/
def metrics (hooks : List Hook) : MetricsInner := hooks.foldl MetricsInner.collect ⟨0, 0, 0⟩

/-! ## §2  Balance -/

/-- The end or the error of a request. -/
def Hook.isOutcome : Hook → Bool
  | .requestEnd .. => true
  | .requestError .. => true
  | _ => false

def Hook.isStart : Hook → Bool
  | .requestStart .. => true
  | _ => false

/-- Exactly one end or error is reported. -/
def RequestJson.Balanced (r : RequestJson) : Prop := r.hooks.countP Hook.isOutcome = 1

/-- The attempt is answered, and not with a `304`. -/
def Answer.Reported : Answer → Prop
  | .response r => r.status ≠ 304
  | _ => False

instance : DecidablePred Answer.Reported
  | .refused _ => inferInstanceAs (Decidable False)
  | .failed _ => inferInstanceAs (Decidable False)
  | .response r => inferInstanceAs (Decidable (r.status ≠ 304))

/-- Another attempt follows, if there is one left. -/
def Answer.Retried (method : String) (retry : RetryOptions) : Answer → Prop
  | .refused _ => False
  | .failed err => isErrorRetriable method err retry = true
  | .response r =>
      r.isSuccess = false ∧ r.status ≠ 304 ∧
        (isRetriableMethod method && retry.retryOnStatuses.contains r.status) = true

/-- The attempt is made: all before it are retried. -/
structure RequestJson.Reaches (r : RequestJson) (attempt : ℕ) : Prop where
  le_max : attempt ≤ r.retry.maxRetries
  retried : ∀ j < attempt, (r.answers j).Retried r.method r.retry

section Attempts

variable {retry : RetryOptions} {call : Call} {attempt : ℕ}

theorem attempt_result_eq_none_iff_retried :
    (call.attempt retry attempt).result = none ↔
      (call.answers attempt).Retried call.method retry ∧ attempt ≠ retry.maxRetries := by
  rw [attempt_result_eq_none_iff]
  rcases call.answers attempt with text | err | r
  · exact iff_of_false (fun ⟨_, herr, hretry, _⟩ => by cases herr; cases hretry) And.left
  · simp [Call.doOnce, Answer.Retried]
  · rw [Answer.Retried]
    rcases hs : r.isSuccess with _ | _
    · by_cases hmodified : r.status = 304
      · simp [doOnce_of_notModified hmodified, hmodified]
      · rw [doOnce_of_failure hs hmodified]
        simp [hmodified, isErrorRetriable, and_assoc]
    · simp [doOnce_of_isSuccess hs]

variable (call) in
/-- An attempt reports one end or error if it is answered, and not with a `304`. -/
theorem countP_doOnce (a : Answer) :
    (call.doOnce a).1.countP Hook.isOutcome = if a.Reported then 1 else 0 := by
  rcases a with text | err | r
  · rfl
  · rfl
  · rcases hs : r.isSuccess with _ | _
    · by_cases hmodified : r.status = 304
      · have hnot : ¬(Answer.response r).Reported := fun h => h hmodified
        rw [doOnce_of_notModified hmodified, if_neg hnot]
        rfl
      · have hreported : (Answer.response r).Reported := hmodified
        rw [doOnce_of_failure hs hmodified, if_pos hreported]
        rfl
    · have hreported : (Answer.response r).Reported := by
        rw [Response.isSuccess, decide_eq_true_eq] at hs
        show r.status ≠ 304
        omega
      rw [doOnce_of_isSuccess hs, if_pos hreported]
      rfl

theorem countP_attempt : ∃ hooks, (call.attempt retry attempt).sent = some hooks ∧
    hooks.countP Hook.isOutcome = if (call.answers attempt).Reported then 1 else 0 := by
  rw [← countP_doOnce call]
  rcases h : call.doOnce (call.answers attempt) with ⟨hooks, err | r⟩
  · rw [attempt_of_error h]
    split
    · refine ⟨_, rfl, ?_⟩
      rw [List.countP_append]
      rfl
    · exact ⟨_, rfl, rfl⟩
  · rw [attempt_of_ok h]
    exact ⟨_, rfl, rfl⟩

end Attempts

section Balance

variable {r : RequestJson}

/-- The last attempt. -/
theorem exists_last_reaches (r : RequestJson) : ∃ k,
    (doWithRetry r.retry r.call).1 = (List.range (k + 1)).filterMap
      (fun j => (r.call.attempt r.retry j).sent) ∧ ∀ j, r.Reaches j ↔ j ≤ k := by
  have hlast : (r.call.attempt r.retry r.retry.maxRetries).result ≠ none :=
    fun hnone => (attempt_result_eq_none_iff_retried.mp hnone).2 rfl
  obtain ⟨k, hk, hreached, hends⟩ := exists_reached_of_result hlast
  obtain ⟨b, hb⟩ := Option.ne_none_iff_exists'.mp hends
  refine ⟨k, ?_, fun j => ?_⟩
  · have hrun : doWithRetry r.retry r.call = ((List.range (k + 1)).filterMap fun j =>
        (r.call.attempt r.retry (0 + j)).sent, b) := by
      refine run_eq_of_result (by omega) ?_ ?_
      · intro j hj
        rw [Nat.zero_add]
        exact hreached j hj
      · rw [Nat.zero_add]
        exact hb
    rw [hrun]
    simp only [Nat.zero_add]
  · rw [← reached_iff_le hreached hends]
    constructor
    · rintro ⟨hle, hretried⟩ i hi
      exact attempt_result_eq_none_iff_retried.mpr ⟨hretried i hi, by omega⟩
    · intro hj
      refine ⟨((reached_iff_le hreached hends).mp hj).trans hk, fun i hi => ?_⟩
      exact (attempt_result_eq_none_iff_retried.mp (hj i hi)).1

/-- One number below a bound, and no other, has the property. -/
theorem count_eq_one_iff {q : ℕ → Prop} [DecidablePred q] {n : ℕ} :
    Nat.count q n = 1 ↔ ∃! j, j < n ∧ q j := by
  rw [Nat.count_eq_card_filter_range, Finset.card_eq_one]
  constructor
  · rintro ⟨j, hj⟩
    rw [Finset.eq_singleton_iff_unique_mem] at hj
    simp only [Finset.mem_filter, Finset.mem_range] at hj
    exact ⟨j, hj.1, fun i hi => hj.2 i hi⟩
  · rintro ⟨j, hj, hunique⟩
    refine ⟨j, Finset.eq_singleton_iff_unique_mem.mpr ?_⟩
    simp only [Finset.mem_filter, Finset.mem_range]
    exact ⟨hj, hunique⟩

theorem countP_cacheHooks (r : RequestJson) : r.cacheHooks.countP Hook.isOutcome = 0 := by
  rw [RequestJson.cacheHooks]
  split
  · rcases r.lookup with _ | _ | _ <;> rfl
  · rfl

/-- The rate limiter lets the call through, and of the attempts that are made exactly one is
answered with something else than a `304`. -/
structure RequestJson.AnsweredOnce (r : RequestJson) : Prop where
  limiter : ∀ err, r.limiter ≠ some (.error err)
  answered : ∃! i, r.Reaches i ∧ (r.answers i).Reported

theorem hooks_of_limiter (h : ∀ err, r.limiter ≠ some (.error err)) :
    r.hooks = .requestStart r.method r.path ::
      (r.cacheHooks ++ (doWithRetry r.retry r.call).1.flatten) := by
  rw [RequestJson.hooks]
  split
  · next err hlimiter => exact absurd hlimiter (h err)
  · rfl

theorem balanced_iff_answeredOnce : r.Balanced ↔ r.AnsweredOnce := by
  by_cases hlimiter : ∀ err, r.limiter ≠ some (.error err)
  · obtain ⟨k, hrun, hreaches⟩ := exists_last_reaches r
    rw [RequestJson.Balanced, hooks_of_limiter hlimiter, List.countP_cons, List.countP_append,
      countP_cacheHooks, hrun, countP_flatten_filterMap fun j => countP_attempt, Nat.zero_add]
    show Nat.count (fun j => (r.answers j).Reported) (k + 1) + 0 = 1 ↔ _
    rw [Nat.add_zero, count_eq_one_iff]
    simp only [Nat.lt_succ_iff, ← hreaches]
    exact ⟨fun h => ⟨hlimiter, h⟩, RequestJson.AnsweredOnce.answered⟩
  · refine iff_of_false (fun h => ?_) fun h => hlimiter h.limiter
    obtain ⟨err, herr⟩ := not_forall.mp hlimiter
    rw [not_not] at herr
    rw [RequestJson.Balanced, RequestJson.hooks, herr] at h
    cases h

/-- What the collector counts: every start, and as errors at most the ends and the errors. -/
theorem foldl_collect (hooks : List Hook) (m : MetricsInner) :
    (hooks.foldl MetricsInner.collect m).requestCount =
        m.requestCount + hooks.countP Hook.isStart ∧
      (hooks.foldl MetricsInner.collect m).errorCount ≤
        m.errorCount + hooks.countP Hook.isOutcome := by
  induction hooks generalizing m with
  | nil => exact ⟨rfl, le_rfl⟩
  | cons hook hooks ih =>
      obtain ⟨hrequests, herrors⟩ := ih (m.collect hook)
      have hstart : (m.collect hook).requestCount =
          m.requestCount + if hook.isStart = true then 1 else 0 := by
        rcases hook with _ | _ | _ | _ | _ | _ <;> try rfl
        rw [MetricsInner.collect]
        split <;> rfl
      have houtcome : (m.collect hook).errorCount ≤
          m.errorCount + if hook.isOutcome = true then 1 else 0 := by
        rcases hook with _ | _ | _ | _ | _ | _ <;> try exact le_rfl
        rw [MetricsInner.collect]
        split
        · exact le_rfl
        · exact Nat.le_succ _
      rw [List.foldl_cons, List.countP_cons, List.countP_cons]
      constructor
      · omega
      · omega

/-- A call reports its start. -/
theorem countP_isStart_hooks (r : RequestJson) : 1 ≤ r.hooks.countP Hook.isStart := by
  rw [RequestJson.hooks, List.countP_cons_of_pos rfl]
  exact Nat.le_add_left 1 _

theorem countP_flatMap_hooks : ∀ {runs : List RequestJson}, (∀ r ∈ runs, r.Balanced) →
    (runs.flatMap RequestJson.hooks).countP Hook.isOutcome ≤
      (runs.flatMap RequestJson.hooks).countP Hook.isStart
  | [], _ => le_rfl
  | r :: runs, h => by
      have ih := countP_flatMap_hooks fun r' hr' => h r' (List.mem_cons_of_mem r hr')
      have hone := h r List.mem_cons_self
      have hstart := countP_isStart_hooks r
      rw [RequestJson.Balanced] at hone
      rw [List.flatMap_cons, List.countP_append, List.countP_append]
      omega

end Balance

/-- What the telemetry of some calls promises: each of them reports one end or error, and the
metrics, in whatever order the reports are counted, have no more errors than requests. -/
def TelemetryBalanced (runs : List RequestJson) : Prop :=
  (∀ r ∈ runs, r.Balanced) ∧ ∀ hooks : List Hook,
    hooks.Perm (runs.flatMap RequestJson.hooks) →
      (metrics hooks).errorCount ≤ (metrics hooks).requestCount

/-- **The telemetry is balanced exactly if each call passes its rate limiter and exactly one of
its attempts is answered with something else than a `304`.** -/
theorem telemetryBalanced_iff (runs : List RequestJson) :
    TelemetryBalanced runs ↔ ∀ r ∈ runs, r.AnsweredOnce := by
  constructor
  · intro h r hr
    exact balanced_iff_answeredOnce.mp (h.1 r hr)
  · intro h
    have hbalanced : ∀ r ∈ runs, r.Balanced := fun r hr => balanced_iff_answeredOnce.mpr (h r hr)
    refine ⟨hbalanced, fun hooks hperm => ?_⟩
    obtain ⟨hrequests, herrors⟩ := foldl_collect hooks ⟨0, 0, 0⟩
    have hle := countP_flatMap_hooks hbalanced
    rw [← hperm.countP_eq, ← hperm.countP_eq] at hle
    rw [metrics, hrequests]
    exact herrors.trans (Nat.add_le_add_left hle 0)

/-- A request that is answered `503` each time. -/
def unavailable : RequestJson where
  baseUrl := "http://localhost"
  method := "GET"
  path := "/pets"
  query := []
  retry := ⟨2, [408, 429, 502, 503, 504]⟩
  limiter := none
  lookup := none
  answers _ := .response ⟨503, "", []⟩

theorem errors_exceed_requests : ¬∀ runs : List RequestJson, TelemetryBalanced runs := by
  intro h
  have hmetrics := (h [unavailable]).2 _ (List.Perm.refl _)
  revert hmetrics
  decide +kernel

end SpecForge.Rust
