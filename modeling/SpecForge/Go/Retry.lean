import SpecForge.Lib.Attempts
import Mathlib.Data.List.Infix

/-!
# Retries of the Go client

The errors of a call and what they say (§1), which of them are retried (§2), and the loop of
`doWithRetry` (§3). An attempt is known by what comes of it. Texts that are searched are lists
of bytes, as they are in Go.
-/

namespace SpecForge.Go

open Lib.Attempts

/-! ## §1  Errors -/

abbrev Bytes := List UInt8

def bytes (s : String) : Bytes := s.toUTF8.data.toList

/-- Why a context has ended. -/
inductive ContextError where
  | canceled
  | deadlineExceeded
deriving DecidableEq

def ContextError.text : ContextError → Bytes
  | .canceled => bytes "context canceled"
  | .deadlineExceeded => bytes "context deadline exceeded"

/-- What a request that failed was ended by: the context of the caller, the time limit of the
attempt, or the network. -/
inductive Cause where
  | context (e : ContextError)
  | timeLimit
  | network
deriving DecidableEq

inductive GoError where
  /-- The error of a context, as it is. -/
  | context (e : ContextError)
  /-- `*url.Error`, which is a `net.Error`. -/
  | url (cause : Cause) (text : Bytes)
  /-- `*APIError`. -/
  | api (statusCode : ℕ) (body u : Bytes)
  | other (text : Bytes)
deriving DecidableEq

def truncate (s : Bytes) (n : ℕ) : Bytes :=
  if s.length ≤ n then s else s.take n ++ bytes "…"

/-- `err.Error()`. -/
def GoError.text : GoError → Bytes
  | .context e => e.text
  | .url _ text => text
  | .api statusCode body u =>
      bytes s!"HTTP {statusCode} from " ++ u ++ bytes ": " ++ truncate body 200
  | .other text => text

/-- Is it a `net.Error`? Of the errors of a context, the one of a deadline is. -/
def GoError.isNet : GoError → Bool
  | .context .deadlineExceeded => true
  | .url .. => true
  | _ => false

/-! ## §2  Which errors are retried -/

/-- Durations are in nanoseconds. -/
structure RetryOptions where
  maxRetries : ℤ
  baseDelay : ℤ
  maxDelay : ℤ
  retryOnStatuses : List ℕ

def defaultRetryOptions : RetryOptions where
  maxRetries := 2
  baseDelay := 500000000
  maxDelay := 8000000000
  retryOnStatuses := [408, 429, 502, 503, 504]

/-- `strings.ToUpper` of a method. -/
def toUpper (s : String) : String := String.ofList (s.toList.map Char.toUpper)

def isRetriableMethod (method : String) : Bool :=
  ["GET", "HEAD", "PUT", "DELETE", "OPTIONS"].contains (toUpper method)

def contains (s part : Bytes) : Bool := decide (part <:+: s)

/-- The text of the error speaks of a timeout or a reset. -/
def GoError.saysTimeout (err : GoError) : Bool :=
  contains err.text (bytes "timeout") || contains err.text (bytes "connection reset")

def isRetriable (method : String) (err : GoError) (opts : RetryOptions) : Bool :=
  if err.isNet then true
  else if err.saysTimeout then true
  else
    match err with
    | .api statusCode _ _ => isRetriableMethod method && opts.retryOnStatuses.contains statusCode
    | _ => false

theorem isRetriable_api {method : String} {status : ℕ} {body u : Bytes} {opts : RetryOptions} :
    isRetriable method (.api status body u) opts =
      (GoError.saysTimeout (.api status body u) ||
        isRetriableMethod method && opts.retryOnStatuses.contains status) := by
  rw [isRetriable, if_neg (by simp [GoError.isNet])]
  split
  · next h => rw [h, Bool.true_or]
  · next h =>
      rw [Bool.not_eq_true] at h
      rw [h, Bool.false_or]

/-- The options that `doWithRetry` goes by. -/
def RetryOptions.effective (opts : RetryOptions) : RetryOptions :=
  if opts.maxRetries = 0 ∧ opts.baseDelay = 0 ∧ opts.retryOnStatuses = [] then
    defaultRetryOptions
  else opts

/-! ## §3  The loop -/

structure Response where
  statusCode : ℕ
  etag : String
  body : Bytes

def Response.isSuccess (r : Response) : Bool := decide (200 ≤ r.statusCode ∧ r.statusCode < 300)

/-- What comes of an attempt: it fails before a request is sent, or after, or there is a
response. -/
inductive Answer where
  | refused (err : GoError)
  | failed (err : GoError)
  | response (r : Response)

def Answer.isDispatched : Answer → Bool
  | .refused _ => false
  | _ => true

/-- `doOnce`: a `304` is passed through. -/
def doOnce (u : Bytes) : Answer → Except GoError Response
  | .refused err => .error err
  | .failed err => .error err
  | .response r =>
      if r.isSuccess || r.statusCode == 304 then .ok r
      else .error (.api r.statusCode r.body u)

/-- What an attempt is the end with, unless there is another one. -/
def settle (retry : RetryOptions) (method : String) (u : Bytes) (attempt : ℕ) (a : Answer) :
    Option (Except GoError Response) :=
  match doOnce u a with
  | .ok r => some (.ok r)
  | .error err =>
      if !isRetriable method err retry || (attempt : ℤ) == retry.maxRetries then
        some (.error err)
      else none

/-- A call of `doWithRetry`: what comes of its attempts, and which of the waits before them are
ended by the context. -/
structure Call where
  method : String
  url : Bytes
  answers : ℕ → Answer
  interrupted : ℕ → Option ContextError

/-- One pass through the loop. -/
def Call.attempt (call : Call) (retry : RetryOptions) (attempt : ℕ) :
    Pass Answer (Except GoError (Option Response)) :=
  match if 0 < attempt then call.interrupted attempt else none with
  | some e => .refused (.error (.context e))
  | none =>
      match settle retry call.method call.url attempt (call.answers attempt) with
      | some result => .final (call.answers attempt) (result.map some)
      | none => .again (call.answers attempt)

/-- The attempts that are made, and what the call comes to. If none is made, there is no
response, and no last error either. -/
def doWithRetry (opts : RetryOptions) (call : Call) :
    List Answer × Except GoError (Option Response) :=
  let retry := opts.effective
  run (call.attempt retry) (.ok none) (retry.maxRetries + 1).toNat 0

/-! ## §4  Attempts that are made -/

theorem doOnce_eq_ok_iff {u : Bytes} {a : Answer} {r : Response} :
    doOnce u a = .ok r ↔ a = .response r ∧ (r.isSuccess = true ∨ r.statusCode = 304) := by
  rcases a with err | err | r'
  · simp [doOnce]
  · simp [doOnce]
  · by_cases h : r'.isSuccess = true ∨ r'.statusCode = 304
    · have hpass : (r'.isSuccess || r'.statusCode == 304) = true := by simpa using h
      rw [doOnce, if_pos hpass, Except.ok.injEq, Answer.response.injEq]
      constructor
      · rintro rfl
        exact ⟨rfl, h⟩
      · exact And.left
    · have hpass : ¬(r'.isSuccess || r'.statusCode == 304) = true := by simpa using h
      rw [doOnce, if_neg hpass, Answer.response.injEq]
      refine iff_of_false (by simp) ?_
      rintro ⟨rfl, hr⟩
      exact h hr

section Attempts

variable {retry : RetryOptions} {method : String} {u : Bytes} {call : Call}

theorem settle_eq_none_iff {attempt : ℕ} {a : Answer} :
    settle retry method u attempt a = none ↔
      ∃ err, doOnce u a = .error err ∧ isRetriable method err retry = true ∧
        (attempt : ℤ) ≠ retry.maxRetries := by
  rw [settle]
  rcases doOnce u a with err | r
  · simp
  · simp

theorem settle_eq_ok_iff {attempt : ℕ} {a : Answer} {r : Response} :
    settle retry method u attempt a = some (.ok r) ↔ doOnce u a = .ok r := by
  rw [settle]
  rcases doOnce u a with err | r'
  · simp
  · simp

/-- The wait before an attempt is not ended by the context. -/
def Call.Waited (call : Call) (attempt : ℕ) : Prop :=
  0 < attempt → call.interrupted attempt = none

variable (retry) in
theorem attempt_of_waited {attempt : ℕ} (h : call.Waited attempt) :
    (call.attempt retry attempt).sent = some (call.answers attempt) ∧
      (call.attempt retry attempt).result =
        (settle retry call.method call.url attempt (call.answers attempt)).map
          fun result => result.map some := by
  have hwait : (if 0 < attempt then call.interrupted attempt else none) = none := by
    split
    · next hpos => exact h hpos
    · rfl
  rw [Call.attempt, hwait]
  dsimp only
  rcases settle retry call.method call.url attempt (call.answers attempt) with _ | result
  · exact ⟨rfl, rfl⟩
  · exact ⟨rfl, rfl⟩

variable (retry) in
theorem attempt_of_interrupted {attempt : ℕ} (h : ¬call.Waited attempt) :
    ∃ e, call.attempt retry attempt = .refused (.error (.context e)) := by
  rw [Call.Waited, Classical.not_imp] at h
  obtain ⟨e, he⟩ := Option.ne_none_iff_exists'.mp h.2
  refine ⟨e, ?_⟩
  rw [Call.attempt, if_pos h.1, he]

theorem attempt_result_eq_none_iff {attempt : ℕ} :
    (call.attempt retry attempt).result = none ↔
      call.Waited attempt ∧
        settle retry call.method call.url attempt (call.answers attempt) = none := by
  by_cases h : call.Waited attempt
  · rw [(attempt_of_waited retry h).2, Option.map_eq_none_iff]
    exact (and_iff_right h).symm
  · obtain ⟨e, he⟩ := attempt_of_interrupted retry h
    rw [he]
    exact iff_of_false (fun hresult => by cases hresult) fun hand => h hand.1

/-- The attempt is made: all before it failed in a way that is retried, and the context has
not ended a wait. -/
structure Call.Reaches (call : Call) (retry : RetryOptions) (attempt : ℕ) : Prop where
  le_max : (attempt : ℤ) ≤ retry.maxRetries
  waited : ∀ j ≤ attempt, call.Waited j
  retried : ∀ j < attempt, ∃ err, doOnce call.url (call.answers j) = .error err ∧
    isRetriable call.method err retry = true

theorem reaches_iff {attempt : ℕ} :
    call.Reaches retry attempt ↔ (attempt : ℤ) ≤ retry.maxRetries ∧
      Reached (call.attempt retry) attempt ∧ call.Waited attempt := by
  constructor
  · rintro ⟨hle, hwaited, hretried⟩
    refine ⟨hle, ?_, hwaited attempt (Nat.le_refl attempt)⟩
    intro j hj
    obtain ⟨err, hdo, hretry⟩ := hretried j hj
    rw [attempt_result_eq_none_iff, settle_eq_none_iff]
    exact ⟨hwaited j (Nat.le_of_lt hj), err, hdo, hretry, by omega⟩
  · rintro ⟨hle, hreached, hwaited⟩
    refine ⟨hle, ?_, ?_⟩
    · intro j hj
      rcases Nat.lt_or_eq_of_le hj with hlt | rfl
      · exact (attempt_result_eq_none_iff.mp (hreached j hlt)).1
      · exact hwaited
    · intro j hj
      obtain ⟨-, hsettle⟩ := attempt_result_eq_none_iff.mp (hreached j hj)
      obtain ⟨err, hdo, hretry, -⟩ := settle_eq_none_iff.mp hsettle
      exact ⟨err, hdo, hretry⟩

/-- An attempt with a good response ends the loop. -/
theorem attempt_result_ne_none {attempt : ℕ} {r : Response}
    (hdo : doOnce call.url (call.answers attempt) = .ok r) :
    (call.attempt retry attempt).result ≠ none := by
  intro hnone
  obtain ⟨-, hsettle⟩ := attempt_result_eq_none_iff.mp hnone
  rw [settle_eq_ok_iff.mpr hdo] at hsettle
  cases hsettle

variable (call) in
/-- The loop is left, with the last attempt at the latest. -/
theorem exists_last_attempt (hmax : 0 ≤ retry.maxRetries) :
    ∃ k : ℕ, (k : ℤ) ≤ retry.maxRetries ∧ Reached (call.attempt retry) k ∧
      (call.attempt retry k).result ≠ none := by
  have hlast : (call.attempt retry retry.maxRetries.toNat).result ≠ none := by
    intro hnone
    obtain ⟨-, hsettle⟩ := attempt_result_eq_none_iff.mp hnone
    obtain ⟨err, -, -, hne⟩ := settle_eq_none_iff.mp hsettle
    exact hne (Int.toNat_of_nonneg hmax)
  obtain ⟨k, hk, hreached, hends⟩ := exists_reached_of_result hlast
  exact ⟨k, by omega, hreached, hends⟩

end Attempts

/-- A call that may make attempts ends with one of them, or in the wait before one. -/
theorem doWithRetry_cases (opts : RetryOptions) (call : Call)
    (hmax : 0 ≤ opts.effective.maxRetries) :
    (∃ e, (doWithRetry opts call).2 = .error (.context e) ∧
      ∀ n, call.Reaches opts.effective n → ∃ err, doOnce call.url (call.answers n) = .error err) ∨
    ∃ k result, call.Reaches opts.effective k ∧
      settle opts.effective call.method call.url k (call.answers k) = some result ∧
      (doWithRetry opts call).2 = result.map some ∧
      (∃ before, (doWithRetry opts call).1 = before ++ [call.answers k]) ∧
      ∀ n r, call.Reaches opts.effective n → doOnce call.url (call.answers n) = .ok r → n = k := by
  obtain ⟨k, hk, hreached, hends⟩ := exists_last_attempt call hmax
  obtain ⟨b, hb⟩ := Option.ne_none_iff_exists'.mp hends
  have hrun : doWithRetry opts call = ((List.range (k + 1)).filterMap fun j =>
      (call.attempt opts.effective (0 + j)).sent, b) := by
    refine run_eq_of_result (by omega) ?_ ?_
    · intro j hj
      rw [Nat.zero_add]
      exact hreached j hj
    · rw [Nat.zero_add]
      exact hb
  have hunique : ∀ n r, call.Reaches opts.effective n →
      doOnce call.url (call.answers n) = .ok r → n = k := by
    intro n r hn hdo
    exact (reaches_iff.mp hn).2.1.unique hreached (attempt_result_ne_none hdo) hends
  by_cases hwaited : call.Waited k
  · right
    obtain ⟨hsent, hresult⟩ := attempt_of_waited opts.effective hwaited
    rw [hb] at hresult
    obtain ⟨result, hsettle, rfl⟩ := Option.map_eq_some_iff.mp hresult.symm
    refine ⟨k, result, reaches_iff.mpr ⟨hk, hreached, hwaited⟩, hsettle, ?_, ?_, hunique⟩
    · rw [hrun]
    · rw [hrun]
      refine ⟨(List.range k).filterMap fun j => (call.attempt opts.effective (0 + j)).sent, ?_⟩
      rw [List.range_succ, List.filterMap_append]
      simp [hsent]
  · left
    obtain ⟨e, he⟩ := attempt_of_interrupted opts.effective hwaited
    refine ⟨e, ?_, ?_⟩
    · rw [he] at hb
      rw [hrun]
      exact (Option.some.inj hb).symm
    · intro n hn
      rcases hdo : doOnce call.url (call.answers n) with err | r
      · exact ⟨err, rfl⟩
      · obtain rfl := hunique n r hn hdo
        exact absurd (hn.waited n (Nat.le_refl n)) hwaited

end SpecForge.Go
