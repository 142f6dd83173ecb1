import SpecForge.Lib.Attempts
import SpecForge.Lib.Js

/-!
# Client at run time

The generated `ApiClient`: its headers and errors (§1), what its constructor makes of the
options (§2), and the loop of `dispatchWithRetry` (§3). The middleware chain around `fetch`
is known by its answers only, one for each attempt; which attempts are made, and what they
come to, is then a run of the loop (§4).
-/

namespace SpecForge.Ts

open Lib Lib.Attempts

universe u

/-! ## §1  Headers, responses, errors -/

/-- `Record<string, string>`; a spread of two is `extend`. -/
abbrev Headers := IndexMap String String

/-- A header value without the white space around it. -/
def normalizeValue (s : String) : String :=
  let blank := fun c : Char => c == ' ' || c == '\t' || c == '\n' || c == '\r'
  String.ofList ((s.toList.dropWhile blank).reverse.dropWhile blank).reverse

/-- The values of the entries with one name, whatever its case. -/
def valuesOf (name : String) (h : Headers) : List String :=
  (h.entries.filter fun e => Text.eqIgnoreAsciiCase e.1 name).map fun e => normalizeValue e.2

/-- `new Headers(h).get(name)`, which is also what is sent. -/
def wireValue (name : String) (h : Headers) : Option String :=
  match valuesOf name h with
  | [] => none
  | values => some (Text.join ", " values)

/-- What is thrown that is no `ApiError`: an abort, the refusal of `new Response` to give a
body to a status without one, or anything else. -/
inductive Exception where
  | abortError
  | bodyRefused
  | other (message : Option String)
  deriving DecidableEq

/-- `e?.message ?? "network error"`. -/
def Exception.message : Exception → String
  | .other (some message) => message
  | _ => "network error"

/-- The statuses of responses that cannot have a body. -/
def nullBodyStatuses : List ℕ := [101, 103, 204, 205, 304]

structure Response where
  status : ℕ
  statusText : String
  headers : Headers
  text : Except Exception String
  nullBody : status ∈ nullBodyStatuses → text = .ok ""

def Response.isOk (r : Response) : Bool := decide (200 ≤ r.status ∧ r.status ≤ 299)

/-- The host's `JSON`, with the texts among its values. -/
structure HostJson (δ : Type u) where
  parse : String → Option δ
  stringify : δ → String
  ofText : String → δ

/-- Values by their JSON texts. -/
def HostJson.ofTexts : HostJson String := ⟨some, id, Text.debugStr⟩

variable {δ : Type u}

inductive ApiError (δ : Type u) where
  | http (status : ℕ) (body : Option δ) (url message : String)
  | network (cause : Exception) (message : String)
  | timeout
  | configuration (message : String)

inductive Thrown (δ : Type u) where
  | api (e : ApiError δ)
  | exception (e : Exception)

/-- `JSON.parse` of a text, or the text itself. -/
def HostJson.parseOr (json : HostJson δ) (text : String) : δ :=
  (json.parse text).getD (json.ofText text)

/-- `parseBody`: an empty text is `undefined`. -/
def parseBody (json : HostJson δ) (r : Response) : Except Exception (Option δ) :=
  r.text.map fun text => if text = "" then none else some (json.parseOr text)

/-! ## §2  Options -/

/-- A provider is asked once for each attempt. -/
inductive AuthProvider (δ : Type u) where
  | anonymous
  | bearer (getToken : ℕ → Except (Thrown δ) String)
  | apikey (header : String) (getApiKey : ℕ → Except (Thrown δ) String)

def applyAuth (headers : Headers) (attempt : ℕ) : AuthProvider δ → Except (Thrown δ) Headers
  | .anonymous => .ok headers
  | .bearer getToken =>
      (getToken attempt).map fun token => headers.insert "Authorization" ("Bearer " ++ token)
  | .apikey header getApiKey =>
      (getApiKey attempt).map fun key => headers.insert header key

structure RetryOptions where
  maxRetries : ℤ := 2
  retryOnStatuses : List ℕ := [408, 429, 502, 503, 504]

structure ApiClientOptions (δ : Type u) where
  baseUrl : Option String := none
  auth : Option (AuthProvider δ) := none
  retry : RetryOptions := {}
  dedupe : Option Bool := none
  idempotency : Option Bool := none
  defaultHeaders : Headers := .empty

structure ApiClient (δ : Type u) where
  baseUrl : String
  auth : AuthProvider δ
  retry : RetryOptions
  defaultHeaders : Headers
  useDedupe : Bool
  useIdempotency : Bool

/-- `replace(/\/$/, "")`. -/
def withoutTrailingSlash (s : String) : String :=
  match s.toList.reverse with
  | '/' :: rest => String.ofList rest.reverse
  | _ => s

/-- The constructor, in a package whose description has the base URL. -/
def ApiClient.new (defaultBase : String) (opts : ApiClientOptions δ) : ApiClient δ :=
  let defaultHeaders :=
    (IndexMap.empty.insert "content-type" "application/json").extend opts.defaultHeaders
  { baseUrl := withoutTrailingSlash (opts.baseUrl.getD defaultBase)
    auth := opts.auth.getD .anonymous
    retry := opts.retry
    defaultHeaders :=
      if defaultHeaders.containsKey "accept" then defaultHeaders
      else defaultHeaders.insert "accept" "application/json"
    useDedupe := opts.dedupe.getD true
    useIdempotency := opts.idempotency.getD true }

/-- The options of a call; the query is encoded and the body is serialized. -/
structure RequestOptions where
  query : Option String := none
  headers : Headers := .empty
  body : Option String := none
  maxRetries : Option ℤ := none
  retryable : Option Bool := none

def ApiClient.url (c : ApiClient δ) (path : String) (opts : RequestOptions) : String :=
  c.baseUrl ++ path ++ (match opts.query with
    | some query => "?" ++ query
    | none => "")

structure MiddlewareRequest where
  method : String
  url : String
  headers : Headers
  body : Option String

def isRetriableMethod (method : String) : Bool :=
  let m := Js.toUpperCase method
  m == "GET" || m == "HEAD" || m == "PUT" || m == "DELETE"

def isIdempotencyCandidate (method : String) : Bool :=
  let m := Js.toUpperCase method
  m == "POST" || m == "PUT" || m == "PATCH" || m == "DELETE"

def isSafeMethod (method : String) : Bool :=
  let m := Js.toUpperCase method
  m == "GET" || m == "HEAD" || m == "OPTIONS"

def IDEMPOTENCY_HEADER : String := "Idempotency-Key"

/-! ## §3  One attempt -/

/-- What the middleware chain answers to an attempt, and whether the caller has aborted by
the time an error is caught. -/
structure Answer (δ : Type u) where
  handler : Except (Thrown δ) Response
  callerAborted : Bool := false

/-- A call of `dispatchWithRetry`, with the key that `newIdempotencyKey` would make and the
answers to its attempts. -/
structure Call (δ : Type u) where
  method : String
  url : String
  opts : RequestOptions
  newIdempotencyKey : String
  answers : ℕ → Answer δ

section Attempt

variable (json : HostJson δ) (c : ApiClient δ) (call : Call δ)

def Call.maxRetries : ℤ := call.opts.maxRetries.getD c.retry.maxRetries

def Call.retryable : Bool := call.opts.retryable.getD (isRetriableMethod call.method)

/-- There is another attempt left, and the method may be repeated. -/
def Call.mayRetry (attempt : ℕ) : Bool :=
  decide ((attempt : ℤ) < call.maxRetries c) && call.retryable

/-- The headers that the application and its provider give to an attempt. -/
def Call.suppliedHeaders (attempt : ℕ) : Except (Thrown δ) Headers :=
  applyAuth (c.defaultHeaders.extend call.opts.headers) attempt c.auth

def attachKey (newKey : String) (headers : Headers) : Headers :=
  if headers.containsKey IDEMPOTENCY_HEADER then headers
  else headers.insert IDEMPOTENCY_HEADER newKey

/-- The key is attached on the first attempt only. -/
def Call.attemptHeaders (attempt : ℕ) (supplied : Headers) : Headers :=
  if attempt = 0 ∧ c.useIdempotency = true ∧ isIdempotencyCandidate call.method = true then
    attachKey call.newIdempotencyKey supplied
  else supplied

/-- The body of the `try`: the response, another attempt, or an error. -/
def Call.tryBlock (attempt : ℕ) : Except (Thrown δ) (Option Response) :=
  match (call.answers attempt).handler with
  | .error e => .error e
  | .ok response =>
      if response.isOk then .ok (some response)
      else if call.mayRetry c attempt && c.retry.retryOnStatuses.contains response.status then
        .ok none
      else
        match parseBody json response with
        | .error e => .error (.exception e)
        | .ok body =>
            let message := if response.statusText = "" then s!"HTTP {response.status}"
              else response.statusText
            .error (.api (.http response.status body call.url message))

/-- The `catch`: what it throws, or another attempt. -/
def Call.catchBlock (attempt : ℕ) : Thrown δ → Option (ApiError δ)
  | .api e => some e
  | .exception e =>
      if (call.answers attempt).callerAborted then
        some (.network e "request aborted by caller")
      else if e = .abortError then some .timeout
      else if call.mayRetry c attempt then none
      else some (.network e e.message)

/-- What the `try` statement comes to, unless there is another attempt. -/
def Call.settle (attempt : ℕ) : Option (Except (Thrown δ) Response) :=
  match call.tryBlock json c attempt with
  | .ok (some response) => some (.ok response)
  | .ok none => none
  | .error e => (call.catchBlock c attempt e).map fun err => .error (.api err)

/-- What an attempt hands to the middleware chain. -/
def Call.request (attempt : ℕ) (supplied : Headers) : MiddlewareRequest :=
  { method := call.method
    url := call.url
    headers := call.attemptHeaders c attempt supplied
    body := call.opts.body }

/-- One pass through the loop. -/
def Call.attempt (attempt : ℕ) :
    Pass MiddlewareRequest (Except (Thrown δ) Response) :=
  match call.suppliedHeaders c attempt with
  | .error e => .refused (.error e)
  | .ok supplied =>
      match call.settle json c attempt with
      | some result => .final (call.request c attempt supplied) result
      | none => .again (call.request c attempt supplied)

/-- The requests that are handed to the middleware chain, and what the call comes to. -/
def dispatchWithRetry : List MiddlewareRequest × Except (Thrown δ) Response :=
  run (call.attempt json c)
    (.error (.api (.configuration "exhausted retries without a response")))
    (call.maxRetries c + 1).toNat 0

/-! ## §4  Runs of the loop -/

/-- An exception that is neither an abort of the caller nor one of the time limit. -/
def Call.repeatable (attempt : ℕ) (e : Exception) : Bool :=
  !(call.answers attempt).callerAborted && decide (e ≠ .abortError)

/-- The answers after which another attempt is made. -/
def Call.retries (attempt : ℕ) : Bool :=
  call.mayRetry c attempt &&
    match (call.answers attempt).handler with
    | .ok response =>
        !response.isOk && (c.retry.retryOnStatuses.contains response.status ||
          match response.text with
          | .ok _ => false
          | .error e => call.repeatable attempt e)
    | .error (.api _) => false
    | .error (.exception e) => call.repeatable attempt e

/-- The attempts that are made if the provider answers: each one before was answered in a
way that another one is made after. -/
def Call.Attempted (attempt : ℕ) : Prop :=
  (attempt : ℤ) ≤ call.maxRetries c ∧
    ∀ i < attempt, (∃ supplied, call.suppliedHeaders c i = .ok supplied) ∧
      call.retries c i = true

variable {json c call}

theorem catchBlock_eq_none_iff {attempt : ℕ} {e : Exception} :
    call.catchBlock c attempt (.exception e) = none ↔
      call.mayRetry c attempt = true ∧ call.repeatable attempt e = true := by
  rw [Call.catchBlock, Call.repeatable]
  rcases (call.answers attempt).callerAborted with _ | _
  · by_cases habort : e = .abortError
    · simp [habort]
    · rcases call.mayRetry c attempt with _ | _ <;> simp [habort]
  · simp

section Response

variable {attempt : ℕ} {response : Response}
  (hanswer : (call.answers attempt).handler = .ok response)
include hanswer

theorem settle_of_isOk (hok : response.isOk = true) :
    call.settle json c attempt = some (.ok response) := by
  rw [Call.settle, Call.tryBlock, hanswer]
  simp [hok]

theorem settle_of_status (hok : response.isOk = false)
    (hretry : (call.mayRetry c attempt && c.retry.retryOnStatuses.contains response.status) = true) :
    call.settle json c attempt = none := by
  rw [Call.settle, Call.tryBlock, hanswer]
  simp only [hok, hretry, Bool.false_eq_true, if_false, if_true]

/-- A response that fails for good is thrown, or what reading its body throws is caught. -/
theorem settle_of_failure (hok : response.isOk = false)
    (hretry : (call.mayRetry c attempt && c.retry.retryOnStatuses.contains response.status) = false) :
    call.settle json c attempt =
      match parseBody json response with
      | .error e => (call.catchBlock c attempt (.exception e)).map fun err => .error (.api err)
      | .ok body => some (.error (.api (.http response.status body call.url
          (if response.statusText = "" then s!"HTTP {response.status}"
            else response.statusText)))) := by
  rw [Call.settle, Call.tryBlock, hanswer]
  simp only [hok, hretry, Bool.false_eq_true, if_false]
  rcases parseBody json response with e | body
  · rfl
  · rfl

end Response

theorem settle_eq_none_iff {attempt : ℕ} :
    call.settle json c attempt = none ↔ call.retries c attempt = true := by
  rw [Call.retries, Bool.and_eq_true]
  rcases hanswer : (call.answers attempt).handler with (e | e) | response
  · rw [Call.settle, Call.tryBlock, hanswer]
    simp [Call.catchBlock]
  · rw [Call.settle, Call.tryBlock, hanswer]
    exact Option.map_eq_none_iff.trans catchBlock_eq_none_iff
  · dsimp only
    rcases hok : response.isOk with _ | _
    · rw [Bool.not_false, Bool.true_and]
      rcases hretry : call.mayRetry c attempt &&
        c.retry.retryOnStatuses.contains response.status with _ | _
      · rw [settle_of_failure hanswer hok hretry, parseBody]
        rw [Bool.and_eq_false_iff] at hretry
        rcases response.text with e | text
        · refine Option.map_eq_none_iff.trans (catchBlock_eq_none_iff.trans ?_)
          refine and_congr_right fun hmay => ?_
          rw [hretry.resolve_left (by simp [hmay]), Bool.false_or]
        · refine iff_of_false (by simp [Except.map]) fun h => ?_
          rw [hretry.resolve_left (by simp [h.1])] at h
          cases h.2
      · rw [settle_of_status hanswer hok hretry]
        rw [Bool.and_eq_true] at hretry
        exact iff_of_true rfl ⟨hretry.1, by rw [hretry.2, Bool.true_or]⟩
    · rw [settle_of_isOk hanswer hok]
      exact iff_of_false (by simp) fun h => by cases h.2

theorem settle_eq_ok_iff {attempt : ℕ} {response : Response} :
    call.settle json c attempt = some (.ok response) ↔
      (call.answers attempt).handler = .ok response ∧ response.isOk = true := by
  constructor
  · intro h
    rcases hanswer : (call.answers attempt).handler with e | r
    · rw [Call.settle, Call.tryBlock, hanswer] at h
      obtain ⟨err, -, heq⟩ := Option.map_eq_some_iff.mp h
      cases heq
    · rcases hok : r.isOk with _ | _
      · rcases hretry : call.mayRetry c attempt &&
          c.retry.retryOnStatuses.contains r.status with _ | _
        · rw [settle_of_failure hanswer hok hretry] at h
          split at h
          · obtain ⟨err, -, heq⟩ := Option.map_eq_some_iff.mp h
            cases heq
          · cases h
        · rw [settle_of_status hanswer hok hretry] at h
          cases h
      · rw [settle_of_isOk hanswer hok] at h
        cases h
        exact ⟨rfl, hok⟩
  · rintro ⟨hanswer, hok⟩
    exact settle_of_isOk hanswer hok

theorem attempt_of_ok {attempt : ℕ} {supplied : Headers}
    (h : call.suppliedHeaders c attempt = .ok supplied) :
    (call.attempt json c attempt).sent = some (call.request c attempt supplied) ∧
      (call.attempt json c attempt).result = call.settle json c attempt := by
  rw [Call.attempt, h]
  rcases hsettle : call.settle json c attempt with _ | result
  · exact ⟨rfl, rfl⟩
  · exact ⟨rfl, rfl⟩

theorem attempt_of_error {attempt : ℕ} {e : Thrown δ}
    (h : call.suppliedHeaders c attempt = .error e) :
    call.attempt json c attempt = .refused (.error e) := by
  rw [Call.attempt, h]

theorem attempt_result_eq_none_iff {attempt : ℕ} :
    (call.attempt json c attempt).result = none ↔
      (∃ supplied, call.suppliedHeaders c attempt = .ok supplied) ∧
        call.retries c attempt = true := by
  rcases hsupplied : call.suppliedHeaders c attempt with e | supplied
  · rw [attempt_of_error hsupplied]
    simp [Pass.result]
  · rw [(attempt_of_ok hsupplied).2, settle_eq_none_iff]
    simp

theorem reached_iff (json : HostJson δ) {attempt : ℕ} :
    attempt < (call.maxRetries c + 1).toNat ∧ Reached (call.attempt json c) attempt ↔
      call.Attempted c attempt := by
  rw [Call.Attempted]
  refine and_congr (by omega) ?_
  exact forall₂_congr fun i _ => attempt_result_eq_none_iff

theorem Call.Attempted.mono {i j : ℕ} (h : call.Attempted c i) (hj : j ≤ i) :
    call.Attempted c j :=
  ⟨by have := h.1; omega, fun m hm => h.2 m (by omega)⟩

/-- The requests of a run. -/
theorem getElem?_dispatchWithRetry {i : ℕ} {req : MiddlewareRequest} :
    (dispatchWithRetry json c call).1[i]? = some req ↔
      call.Attempted c i ∧ ∃ supplied, call.suppliedHeaders c i = .ok supplied ∧
        req = call.request c i supplied := by
  rw [dispatchWithRetry, getElem?_run (fun j hj => absurd hj (Nat.not_lt_zero j)), Nat.zero_add,
    ← reached_iff json, and_assoc]
  refine and_congr_right fun _ => and_congr_right fun _ => ?_
  rcases hsupplied : call.suppliedHeaders c i with e | supplied
  · rw [attempt_of_error hsupplied]
    simp [Pass.sent]
  · rw [(attempt_of_ok hsupplied).1]
    simp [eq_comm]

/-- The response of a run is the first good answer. -/
theorem dispatchWithRetry_eq_ok_iff {response : Response} :
    (dispatchWithRetry json c call).2 = .ok response ↔
      ∃ i, call.Attempted c i ∧ (∃ supplied, call.suppliedHeaders c i = .ok supplied) ∧
        (call.answers i).handler = .ok response ∧ response.isOk = true := by
  rw [dispatchWithRetry, run_snd_eq_iff (fun j hj => absurd hj (Nat.not_lt_zero j)),
    or_iff_left (by simp)]
  simp only [Nat.zero_add]
  refine exists_congr fun i => ?_
  rw [← reached_iff json, and_assoc]
  refine and_congr_right fun _ => and_congr_right fun _ => ?_
  rcases hsupplied : call.suppliedHeaders c i with e | supplied
  · rw [attempt_of_error hsupplied]
    simp [Pass.result]
  · rw [(attempt_of_ok hsupplied).2, settle_eq_ok_iff]
    simp

end Attempt

end SpecForge.Ts
