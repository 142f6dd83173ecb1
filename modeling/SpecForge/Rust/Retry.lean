import SpecForge.Lib.Attempts
import SpecForge.Lib.Text

/-!
# Retries of the Rust client

The errors of a call and which of them are retried (§1), and the loop of `do_with_retry`, which
reports each attempt to the telemetry (§2). An attempt is known by what comes of it; the times
that the telemetry is told are left out.
-/

namespace SpecForge.Rust

open Lib Lib.Attempts

/-! ## §1  Errors -/

abbrev Bytes := List UInt8

/-- `reqwest::Error`. -/
structure TransportError where
  isTimeout : Bool
  isConnect : Bool
  isRequest : Bool
  text : String
deriving DecidableEq

inductive Error where
  /-- What is no UTF-8 in the body is replaced where it is shown. -/
  | http (status : ℕ) (body : Bytes) (url : String)
  | timeout (timeoutMs : ℕ)
  | transport (e : TransportError)
  | serde (text : String)
  | message (text : String)
deriving DecidableEq

structure RetryOptions where
  maxRetries : ℕ
  retryOnStatuses : List ℕ

/-- Methods are compared as they are: a method in lower case is another one. -/
def isRetriableMethod (method : String) : Bool :=
  ["GET", "HEAD", "PUT", "DELETE", "OPTIONS"].contains method

def isErrorRetriable (method : String) (err : Error) (opts : RetryOptions) : Bool :=
  match err with
  | .timeout _ => true
  | .transport e => e.isTimeout || e.isConnect || e.isRequest
  | .http status _ _ => isRetriableMethod method && opts.retryOnStatuses.contains status
  | .serde _ => false
  | .message _ => false

/-! ## §2  The loop -/

inductive Hook where
  | requestStart (method path : String)
  | requestEnd (method path : String) (status : ℕ)
  | requestError (method path : String) (error : Error)
  | retry (method path : String) (attempt : ℕ) (error : Error)
  | cacheHit (method path : String)
  | cacheMiss (method path : String)
deriving DecidableEq

/-- What the middleware chain returns; the `ETag` is empty if there is none. -/
structure Response where
  status : ℕ
  etag : String
  body : Bytes
deriving DecidableEq

def Response.isSuccess (r : Response) : Bool := decide (200 ≤ r.status ∧ r.status < 300)

/-- What comes of an attempt: its headers cannot be made, the middleware chain fails, or there
is a response. -/
inductive Answer where
  | refused (text : String)
  | failed (err : Error)
  | response (r : Response)

/-- `{:02X}`. -/
def hexByte (b : UInt8) : String :=
  let digit := fun n : ℕ => (Nat.digitChar n).toUpper
  String.ofList [digit (b.toNat / 16), digit (b.toNat % 16)]

def urlencodingLite (s : String) : String :=
  Text.join "" (s.toUTF8.data.toList.map fun b =>
    let c := Char.ofNat b.toNat
    if ('A' ≤ c && c ≤ 'Z') || ('a' ≤ c && c ≤ 'z') || ('0' ≤ c && c ≤ '9') ||
        ['-', '_', '.', '~'].contains c then String.ofList [c]
    else "%" ++ hexByte b)

/-- A call of `do_with_retry`, with what comes of its attempts. -/
structure Call where
  method : String
  url : String
  query : List (String × String)
  answers : ℕ → Answer

def Call.fullUrl (call : Call) : String :=
  if call.query = [] then call.url
  else call.url ++ "?" ++
    Text.join "&" (call.query.map fun e => e.1 ++ "=" ++ urlencodingLite e.2)

/-- `do_once`, with what it reports: a `304` is passed through, and a failure of the chain is
not reported. -/
def Call.doOnce (call : Call) : Answer → List Hook × Except Error Response
  | .refused text => ([], .error (.message text))
  | .failed err => ([], .error err)
  | .response r =>
      if r.isSuccess then ([.requestEnd call.method call.url r.status], .ok r)
      else if r.status = 304 then ([], .ok r)
      else
        let err := Error.http r.status r.body call.fullUrl
        ([.requestError call.method call.url err], .error err)

/-- One pass through the loop, and what it reports. -/
def Call.attempt (call : Call) (retry : RetryOptions) (attempt : ℕ) :
    Attempts.Pass (List Hook) (Except Error Response) :=
  let (hooks, result) := call.doOnce (call.answers attempt)
  match result with
  | .ok r => .final hooks (.ok r)
  | .error err =>
      if !isErrorRetriable call.method err retry || attempt == retry.maxRetries then
        .final hooks (.error err)
      else .again (hooks ++ [.retry call.method call.url (attempt + 1) err])

/-- What the attempts report, and what the call comes to. -/
def doWithRetry (retry : RetryOptions) (call : Call) : List (List Hook) × Except Error Response :=
  run (call.attempt retry) (.error (.message "request failed")) (retry.maxRetries + 1) 0

section Response

variable {call : Call} {r : Response}

theorem doOnce_of_isSuccess (h : r.isSuccess = true) :
    call.doOnce (.response r) = ([.requestEnd call.method call.url r.status], .ok r) := if_pos h

theorem doOnce_of_notModified (h : r.status = 304) : call.doOnce (.response r) = ([], .ok r) := by
  have hfail : ¬r.isSuccess = true := by
    rw [Response.isSuccess, decide_eq_true_eq]
    omega
  exact (if_neg hfail).trans (if_pos h)

theorem doOnce_of_failure (h : r.isSuccess = false) (hmodified : r.status ≠ 304) :
    call.doOnce (.response r) =
      ([.requestError call.method call.url (.http r.status r.body call.fullUrl)],
        .error (.http r.status r.body call.fullUrl)) :=
  (if_neg (Bool.eq_false_iff.mp h)).trans (if_neg hmodified)

end Response

section Attempts

variable {retry : RetryOptions} {call : Call} {attempt : ℕ}

theorem attempt_of_ok {r : Response} {hooks : List Hook}
    (h : call.doOnce (call.answers attempt) = (hooks, .ok r)) :
    call.attempt retry attempt = .final hooks (.ok r) := by
  rw [Call.attempt, h]

theorem attempt_of_error {err : Error} {hooks : List Hook}
    (h : call.doOnce (call.answers attempt) = (hooks, .error err)) :
    call.attempt retry attempt =
      if isErrorRetriable call.method err retry = true ∧ attempt ≠ retry.maxRetries then
        .again (hooks ++ [.retry call.method call.url (attempt + 1) err])
      else .final hooks (.error err) := by
  rw [Call.attempt, h]
  dsimp only
  by_cases hretry : isErrorRetriable call.method err retry = true ∧ attempt ≠ retry.maxRetries
  · rw [if_pos hretry, if_neg (by simp [hretry.1, hretry.2])]
  · rw [if_neg hretry, if_pos]
    rw [not_and_or, Bool.not_eq_true, not_not] at hretry
    rcases hretry with hretry | hretry
    · simp [hretry]
    · simp [hretry]

variable (retry call attempt) in
/-- Every attempt that is made reports something, if only an empty list. -/
theorem exists_sent : ∃ hooks, (call.attempt retry attempt).sent = some hooks := by
  rcases h : call.doOnce (call.answers attempt) with ⟨hooks, err | r⟩
  · rw [attempt_of_error h]
    split
    · exact ⟨_, rfl⟩
    · exact ⟨_, rfl⟩
  · rw [attempt_of_ok h]
    exact ⟨_, rfl⟩

theorem attempt_result_eq_none_iff :
    (call.attempt retry attempt).result = none ↔
      ∃ err, (call.doOnce (call.answers attempt)).2 = .error err ∧
        isErrorRetriable call.method err retry = true ∧ attempt ≠ retry.maxRetries := by
  rcases h : call.doOnce (call.answers attempt) with ⟨hooks, err | r⟩
  · rw [attempt_of_error h]
    split
    · next hretry => exact iff_of_true rfl ⟨err, rfl, hretry⟩
    · next hretry =>
        refine iff_of_false (fun hnone => by cases hnone) ?_
        rintro ⟨err', heq, hretry'⟩
        cases heq
        exact hretry hretry'
  · rw [attempt_of_ok h]
    exact iff_of_false (fun hnone => by cases hnone) (by simp)

end Attempts

end SpecForge.Rust
