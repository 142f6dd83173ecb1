import SpecForge.Go.Retry
import SpecForge.Rust.Retry
import SpecForge.Ts.Client

/-!
# The retries of the three clients

The same outcomes of the attempts as each client sees them (§1), what each loop makes of one
(§2), and when the three loops take the same course (§3).
-/

namespace SpecForge

open Lib.Attempts

/-! ## §1  Outcomes -/

/-- What comes of an attempt. No response comes of the last two; a network that fails may say
so. -/
inductive Outcome where
  | response (status : ℕ) (body : Go.Bytes)
  | transport (text : String) (isConnect : Bool)
  | timeout

/-- Delays are in nanoseconds. -/
structure Policy where
  maxRetries : ℕ
  baseDelay : ℕ
  maxDelay : ℕ
  statuses : List ℕ

/-- How a call ends. -/
inductive Ending where
  | response (status : ℕ)
  | http (status : ℕ)
  | transport
  | timeout
  | other
deriving DecidableEq

def succeeds (status : ℕ) : Bool := decide (200 ≤ status ∧ status < 300)

section Clients

variable {δ : Type} (decode : Go.Bytes → String) (method : String) (url : String)
  (outcomes : ℕ → Outcome)

namespace Ts

/-- A client that has the policy, and is otherwise as it comes. -/
def Policy.client (p : Policy) : ApiClient δ :=
  .new "" { retry := { maxRetries := p.maxRetries, retryOnStatuses := p.statuses } }

/-- The text of a body, which some statuses do not have. -/
def bodyText (status : ℕ) (body : Go.Bytes) : String :=
  if status ∈ nullBodyStatuses then "" else decode body

def received (status : ℕ) (body : Go.Bytes) : Response where
  status := status
  statusText := ""
  headers := .empty
  text := .ok (bodyText decode status body)
  nullBody h := congrArg Except.ok (if_pos h)

/-- A transport error is whatever `fetch` throws, a timeout is the abort of its signal. -/
def Outcome.answer : Outcome → Answer δ
  | .response status body => { handler := .ok (received decode status body) }
  | .transport text _ => { handler := .error (.exception (.other (some text))) }
  | .timeout => { handler := .error (.exception .abortError) }

def retried (key : String) : Call δ where
  method := method
  url := url
  opts := {}
  newIdempotencyKey := key
  answers i := Outcome.answer decode (outcomes i)

def ending : Except (Thrown δ) Response → Ending
  | .ok r => .response r.status
  | .error (.api (.http status _ _ _)) => .http status
  | .error (.api (.network _ _)) => .transport
  | .error (.api .timeout) => .timeout
  | .error (.api (.configuration _)) => .other
  | .error (.exception _) => .other

end Ts

namespace Go

def Policy.options (p : Policy) : RetryOptions where
  maxRetries := p.maxRetries
  baseDelay := p.baseDelay
  maxDelay := p.maxDelay
  retryOnStatuses := p.statuses

/-- The client wraps a transport error and a timeout in a `*url.Error`. -/
def Outcome.answer : Outcome → Answer
  | .response status body => .response ⟨status, "", body⟩
  | .transport text _ => .failed (.url .network (bytes text))
  | .timeout => .failed (.url .timeLimit (bytes "Client.Timeout exceeded while awaiting headers"))

/-- No wait is ended by a context. -/
def retried : Call where
  method := method
  url := bytes url
  answers i := Outcome.answer (outcomes i)
  interrupted _ := none

def ending : Except GoError (Option Response) → Ending
  | .ok (some r) => .response r.statusCode
  | .ok none => .other
  | .error (.api status _ _) => .http status
  | .error (.url .network _) => .transport
  | .error (.url .timeLimit _) => .timeout
  | .error _ => .other

end Go

namespace Rust

def Policy.options (p : Policy) : RetryOptions := ⟨p.maxRetries, p.statuses⟩

/-- An error of a request that was sent is one of the request, also where no connection was
made. -/
def Outcome.answer : Outcome → Answer
  | .response status body => .response ⟨status, "", body⟩
  | .transport text isConnect => .failed (.transport ⟨false, isConnect, true, text⟩)
  | .timeout => .failed (.timeout 0)

def retried : Call where
  method := method
  url := url
  query := []
  answers i := Outcome.answer (outcomes i)

def ending : Except Error Response → Ending
  | .ok r => .response r.status
  | .error (.http status _ _) => .http status
  | .error (.transport _) => .transport
  | .error (.timeout _) => .timeout
  | .error _ => .other

end Rust

end Clients

/-! ## §2  Decisions -/

section Decisions

variable (p : Policy) (method url : String)

/-- What each client tries again, if there is an attempt left. -/
def Ts.retries : Outcome → Bool
  | .response status _ =>
      !succeeds status && Ts.isRetriableMethod method && p.statuses.contains status
  | .transport .. => Ts.isRetriableMethod method
  | .timeout => false

def Go.retries : Outcome → Bool
  | .response status body =>
      !(succeeds status || status == 304) &&
        (GoError.saysTimeout (.api status body (bytes url)) ||
          Go.isRetriableMethod method && p.statuses.contains status)
  | .transport .. => true
  | .timeout => true

def Rust.retries : Outcome → Bool
  | .response status _ =>
      !(succeeds status || status == 304) &&
        (Rust.isRetriableMethod method && p.statuses.contains status)
  | .transport .. => true
  | .timeout => true

/-- How a call ends with the outcome of its last attempt, where a `304` is passed through or
not. -/
def Outcome.ending (passed : Bool) : Outcome → Ending
  | .response status _ =>
      if succeeds status || passed && status == 304 then .response status else .http status
  | .transport .. => .transport
  | .timeout => .timeout

variable {p method url} {δ : Type} {json : Ts.HostJson δ} {decode : Go.Bytes → String}
  {key : String} {outcomes : ℕ → Outcome} {i : ℕ}

theorem Ts.mayRetry_retried : (Ts.retried (δ := δ) decode method url outcomes key).mayRetry
    (Ts.Policy.client p) i = (decide (i < p.maxRetries) && Ts.isRetriableMethod method) := by
  have hlt : ((i : ℤ) < p.maxRetries) ↔ i < p.maxRetries := Int.ofNat_lt
  show (decide ((i : ℤ) < p.maxRetries) && Ts.isRetriableMethod method) = _
  rw [decide_eq_decide.mpr hlt]

variable (decode) in
theorem Ts.isOk_received (status : ℕ) (body : Go.Bytes) :
    (Ts.received decode status body).isOk = succeeds status := by
  refine decide_eq_decide.mpr ?_
  show 200 ≤ status ∧ status ≤ 299 ↔ 200 ≤ status ∧ status < 300
  omega

theorem Ts.settle_retried :
    ((Ts.retried (δ := δ) decode method url outcomes key).settle json (Ts.Policy.client p)
        i).map Ts.ending =
      if i < p.maxRetries ∧ Ts.retries p method (outcomes i) = true then none
      else some ((outcomes i).ending false) := by
  have hretry : (Ts.retried (δ := δ) decode method url outcomes key).mayRetry
    (Ts.Policy.client p) i = _ := Ts.mayRetry_retried
  have hanswer : (Ts.retried (δ := δ) decode method url outcomes key).answers i =
    Ts.Outcome.answer decode (outcomes i) := rfl
  generalize Ts.retried (δ := δ) decode method url outcomes key = call at *
  generalize outcomes i = o at *
  have hcaller : (call.answers i).callerAborted = false := by
    rw [hanswer]
    cases o <;> rfl
  rcases o with ⟨status, body⟩ | ⟨text, isConnect⟩ | _
  · have hhandler : (call.answers i).handler = .ok (Ts.received decode status body) := by
      rw [hanswer]
      rfl
    have hok := Ts.isOk_received decode status body
    rw [Ts.retries]
    rcases hs : succeeds status with _ | _
    · rw [hs] at hok
      rw [Bool.not_false, Bool.true_and]
      rcases hagain : call.mayRetry (Ts.Policy.client p) i && p.statuses.contains status with _ | _
      · have hnot : ¬(i < p.maxRetries ∧
            (Ts.isRetriableMethod method && p.statuses.contains status) = true) := by
          rintro ⟨hi, hr⟩
          rw [hretry, decide_eq_true hi, Bool.true_and, hr] at hagain
          cases hagain
        rw [Ts.settle_of_failure hhandler hok hagain, if_neg hnot]
        simp [Ts.parseBody, Ts.received, Except.map, Ts.ending, Outcome.ending, hs]
      · rw [Ts.settle_of_status hhandler hok hagain, if_pos]
        · rfl
        · rwa [hretry, Bool.and_assoc, Bool.and_eq_true, decide_eq_true_eq] at hagain
    · rw [hs] at hok
      rw [Ts.settle_of_isOk hhandler hok, if_neg (by simp)]
      simp [Ts.ending, Ts.received, Outcome.ending, hs]
  · rw [Ts.Call.settle, Ts.Call.tryBlock, hanswer]
    dsimp only [Ts.Outcome.answer, Ts.Call.catchBlock]
    rw [hcaller, if_neg Bool.false_ne_true, if_neg (by simp), hretry]
    by_cases hagain : i < p.maxRetries ∧ Ts.isRetriableMethod method = true
    · rw [if_pos (by simp [hagain]), if_pos (by simpa [Ts.retries] using hagain)]
      rfl
    · rw [if_neg (by simpa using hagain), if_neg (by simpa [Ts.retries] using hagain)]
      rfl
  · rw [Ts.Call.settle, Ts.Call.tryBlock, hanswer]
    dsimp only [Ts.Outcome.answer, Ts.Call.catchBlock]
    rw [hcaller, if_neg Bool.false_ne_true, if_pos rfl,
      if_neg (fun hand => Bool.false_ne_true hand.2)]
    rfl

theorem Ts.ending_attempt :
    ((Ts.retried (δ := δ) decode method url outcomes key).attempt json (Ts.Policy.client p)
        i).result.map Ts.ending =
      if i < p.maxRetries ∧ Ts.retries p method (outcomes i) = true then none
      else some ((outcomes i).ending false) := by
  have hsupplied : ∃ supplied, (Ts.retried (δ := δ) decode method url outcomes key).suppliedHeaders
      (Ts.Policy.client p) i = .ok supplied := ⟨_, rfl⟩
  obtain ⟨supplied, hsupplied⟩ := hsupplied
  rw [(Ts.attempt_of_ok hsupplied).2]
  exact Ts.settle_retried

/-- What is not the end is tried again, unless there is no attempt left. -/
theorem Go.settle_of_error {retry : Go.RetryOptions} {u : Go.Bytes} {a : Go.Answer}
    {err : Go.GoError} (hmax : retry.maxRetries = p.maxRetries)
    (h : Go.doOnce u a = .error err) :
    Go.settle retry method u i a =
      if i ≠ p.maxRetries ∧ Go.isRetriable method err retry = true then none
      else some (.error err) := by
  have hlast : ((i : ℤ) == retry.maxRetries) = (i == p.maxRetries) := by
    rw [hmax, Bool.eq_iff_iff, beq_iff_eq, beq_iff_eq]
    exact Int.ofNat_inj
  rw [Go.settle, h]
  dsimp only
  rw [hlast]
  by_cases hi : i = p.maxRetries
  · simp [hi]
  · rcases Go.isRetriable method err retry with _ | _
    · simp
    · simp [hi]

theorem Go.ending_attempt :
    ((Go.retried method url outcomes).attempt (Go.Policy.options p) i).result.map Go.ending =
      if i ≠ p.maxRetries ∧ Go.retries p method url (outcomes i) = true then none
      else some ((outcomes i).ending true) := by
  have hwaited : (Go.retried method url outcomes).Waited i := fun _ => rfl
  rw [(Go.attempt_of_waited _ hwaited).2]
  show (Option.map _ (Go.settle (Go.Policy.options p) method (Go.bytes url) i
    (Go.Outcome.answer (outcomes i)))).map Go.ending = _
  rcases outcomes i with ⟨status, body⟩ | ⟨text, isConnect⟩ | _
  · rw [Go.retries, Outcome.ending, Go.Outcome.answer, Bool.true_and]
    by_cases hpass : (succeeds status || status == 304) = true
    · have hdo : Go.doOnce (Go.bytes url) (.response ⟨status, "", body⟩) =
          .ok ⟨status, "", body⟩ := if_pos hpass
      rw [Go.settle_eq_ok_iff.mpr hdo, if_pos hpass, if_neg (by simp [hpass])]
      rfl
    · have hdo : Go.doOnce (Go.bytes url) (.response ⟨status, "", body⟩) =
          .error (.api status body (Go.bytes url)) := if_neg hpass
      rw [Go.settle_of_error (p := p) rfl hdo, if_neg hpass, Go.isRetriable_api,
        Bool.eq_false_iff.mpr hpass, Bool.not_false, Bool.true_and]
      show (Option.map _ (if i ≠ p.maxRetries ∧ (_ || _ && p.statuses.contains status) = true
        then none else _)).map Go.ending = _
      split
      · rfl
      · rfl
  · rw [Go.settle_of_error (p := p) rfl rfl]
    show (Option.map _ (if i ≠ p.maxRetries ∧ true = true then none else _)).map Go.ending =
      if i ≠ p.maxRetries ∧ true = true then none else _
    split
    · rfl
    · rfl
  · rw [Go.settle_of_error (p := p) rfl rfl]
    show (Option.map _ (if i ≠ p.maxRetries ∧ true = true then none else _)).map Go.ending =
      if i ≠ p.maxRetries ∧ true = true then none else _
    split
    · rfl
    · rfl

theorem Rust.ending_of_error {err : Rust.Error} {hooks : List Rust.Hook} {o : Outcome}
    (h : (Rust.retried method url outcomes).doOnce (Rust.Outcome.answer (outcomes i)) =
      (hooks, .error err)) (hending : Rust.ending (.error err) = o.ending true)
    (hretries : Rust.isErrorRetriable method err (Rust.Policy.options p) =
      Rust.retries p method o) :
    ((Rust.retried method url outcomes).attempt (Rust.Policy.options p) i).result.map
        Rust.ending =
      if i ≠ p.maxRetries ∧ Rust.retries p method o = true then none
      else some (o.ending true) := by
  rw [Rust.attempt_of_error h, ← hretries, ← hending]
  show (Lib.Attempts.Pass.result (if Rust.isErrorRetriable method err _ = true ∧
    i ≠ p.maxRetries then _ else _)).map Rust.ending = _
  by_cases hagain : i ≠ p.maxRetries ∧
      Rust.isErrorRetriable method err (Rust.Policy.options p) = true
  · rw [if_pos hagain, if_pos hagain.symm]
    rfl
  · rw [if_neg hagain, if_neg fun hand => hagain hand.symm]
    rfl

theorem Rust.ending_attempt :
    ((Rust.retried method url outcomes).attempt (Rust.Policy.options p) i).result.map
        Rust.ending =
      if i ≠ p.maxRetries ∧ Rust.retries p method (outcomes i) = true then none
      else some ((outcomes i).ending true) := by
  rcases ho : outcomes i with ⟨status, body⟩ | ⟨text, isConnect⟩ | _
  · by_cases hpass : (succeeds status || status == 304) = true
    · obtain ⟨hooks, hdo⟩ : ∃ hooks, (Rust.retried method url outcomes).doOnce
          (Rust.Outcome.answer (outcomes i)) = (hooks, .ok ⟨status, "", body⟩) := by
        rw [ho]
        rw [Bool.or_eq_true, beq_iff_eq] at hpass
        rcases hpass with hs | hmodified
        · exact ⟨_, Rust.doOnce_of_isSuccess hs⟩
        · exact ⟨_, Rust.doOnce_of_notModified hmodified⟩
      rw [Rust.attempt_of_ok hdo, Rust.retries, Outcome.ending, Bool.true_and, hpass,
        if_neg (by simp), if_pos rfl]
      rfl
    · have hdo : (Rust.retried method url outcomes).doOnce (Rust.Outcome.answer (outcomes i)) =
          ([.requestError method url (.http status body url)], .error (.http status body url)) := by
        rw [Bool.or_eq_true, not_or, beq_iff_eq] at hpass
        rw [ho]
        exact Rust.doOnce_of_failure (Bool.eq_false_iff.mpr hpass.1) hpass.2
      refine Rust.ending_of_error hdo ?_ ?_
      · rw [Outcome.ending, Bool.true_and, if_neg hpass]
        rfl
      · rw [Rust.retries, Bool.eq_false_iff.mpr hpass]
        rfl
  · have hdo : (Rust.retried method url outcomes).doOnce (Rust.Outcome.answer (outcomes i)) =
        ([], .error (.transport ⟨false, isConnect, true, text⟩)) := by
      rw [ho]
      rfl
    refine Rust.ending_of_error hdo rfl ?_
    rw [Rust.retries, Rust.isErrorRetriable, Bool.or_true]
  · have hdo : (Rust.retried method url outcomes).doOnce (Rust.Outcome.answer (outcomes i)) =
        ([], .error (.timeout 0)) := by
      rw [ho]
      rfl
    exact Rust.ending_of_error hdo rfl rfl

end Decisions

/-! ## §3  The three loops -/

section Course

variable {δ : Type} (json : Ts.HostJson δ) (decode : Go.Bytes → String) (key : String)
  (p : Policy) (method url : String) (outcomes : ℕ → Outcome)

/-- The clients dispatch as many requests and end alike. -/
def SameRetries : Prop :=
  let ts := Ts.dispatchWithRetry json (Ts.Policy.client p)
    (Ts.retried decode method url outcomes key)
  let go := Go.doWithRetry (Go.Policy.options p) (Go.retried method url outcomes)
  let rust := Rust.doWithRetry (Rust.Policy.options p) (Rust.retried method url outcomes)
  (ts.1.length = go.1.length ∧ go.1.length = rust.1.length) ∧
    Ts.ending ts.2 = Go.ending go.2 ∧ Go.ending go.2 = Rust.ending rust.2

/-- All clients try the outcome again. -/
def RetriedByAll (o : Outcome) : Prop :=
  Ts.retries p method o = true ∧ Go.retries p method url o = true ∧
    Rust.retries p method o = true

/-- The outcome of the attempt is treated alike: it is no `304`, and all clients try it again or
none does, unless it is the last. -/
def TreatedAlike (i : ℕ) (o : Outcome) : Prop :=
  (∀ body, o ≠ .response 304 body) ∧
    (i < p.maxRetries → Ts.retries p method o = Go.retries p method url o ∧
      Go.retries p method url o = Rust.retries p method o)

inductive Sdk where
  | ts
  | go
  | rust

def Sdk.Sent : Sdk → Type
  | .ts => Ts.MiddlewareRequest
  | .go => Go.Answer
  | .rust => List Rust.Hook

def Sdk.Result (δ : Type) : Sdk → Type
  | .ts => Except (Ts.Thrown δ) Ts.Response
  | .go => Except Go.GoError (Option Go.Response)
  | .rust => Except Rust.Error Rust.Response

def Sdk.pass : ∀ a : Sdk, ℕ → Pass a.Sent (a.Result δ)
  | .ts => (Ts.retried decode method url outcomes key).attempt json (Ts.Policy.client p)
  | .go => (Go.retried method url outcomes).attempt (Go.Policy.options p)
  | .rust => (Rust.retried method url outcomes).attempt (Rust.Policy.options p)

def Sdk.exhausted : ∀ a : Sdk, a.Result δ
  | .ts => .error (.api (.configuration "exhausted retries without a response"))
  | .go => .ok none
  | .rust => .error (.message "request failed")

def Sdk.ending : ∀ a : Sdk, a.Result δ → Ending
  | .ts => Ts.ending
  | .go => Go.ending
  | .rust => Rust.ending

def Sdk.retries : Sdk → Outcome → Bool
  | .ts => Ts.retries p method
  | .go => Go.retries p method url
  | .rust => Rust.retries p method

/-- Does the client pass a `304` through? -/
def Sdk.passes : Sdk → Bool
  | .ts => false
  | _ => true

variable {json decode key p method url outcomes}

theorem Sdk.exists_sent (a : Sdk) (i : ℕ) :
    ∃ e, (a.pass json decode key p method url outcomes i).sent = some e := by
  cases a with
  | ts =>
      obtain ⟨supplied, hsupplied⟩ : ∃ supplied, (Ts.retried (δ := δ) decode method url outcomes
          key).suppliedHeaders (Ts.Policy.client p) i = .ok supplied := ⟨_, rfl⟩
      exact ⟨_, (Ts.attempt_of_ok hsupplied).1⟩
  | go => exact ⟨_, (Go.attempt_of_waited _ fun _ => rfl).1⟩
  | rust => exact Rust.exists_sent _ _ _

theorem Sdk.ending_pass (a : Sdk) {i : ℕ} (hi : i ≤ p.maxRetries) :
    (a.pass json decode key p method url outcomes i).result.map a.ending =
      if i < p.maxRetries ∧ a.retries p method url (outcomes i) = true then none
      else some ((outcomes i).ending a.passes) := by
  have hlt : i ≠ p.maxRetries ↔ i < p.maxRetries := hi.lt_iff_ne.symm
  cases a with
  | ts => exact Ts.ending_attempt
  | go =>
      simp only [← hlt]
      exact Go.ending_attempt
  | rust =>
      simp only [← hlt]
      exact Rust.ending_attempt

theorem Sdk.result_pass_eq_none_iff (a : Sdk) {i : ℕ} (hi : i ≤ p.maxRetries) :
    (a.pass json decode key p method url outcomes i).result = none ↔
      i < p.maxRetries ∧ a.retries p method url (outcomes i) = true := by
  rw [← Option.map_eq_none_iff (f := a.ending), Sdk.ending_pass a hi]
  split
  · next h => exact iff_of_true rfl h
  · next h => exact iff_of_false (by simp) h

theorem sameRetries_iff_sameCourse (hmax : 1 ≤ p.maxRetries) :
    SameRetries json decode key p method url outcomes ↔
      SameCourse (fun a : Sdk => a.pass json decode key p method url outcomes)
        (fun a => a.exhausted) (fun a => a.ending) (p.maxRetries + 1) 0 := by
  have heffective : (Go.Policy.options p).effective = Go.Policy.options p := by
    refine if_neg fun h => ?_
    have hzero : (p.maxRetries : ℤ) = 0 := h.1
    omega
  have hcount : ((p.maxRetries : ℤ) + 1).toNat = p.maxRetries + 1 := by omega
  have hts : Ts.dispatchWithRetry json (Ts.Policy.client p)
      (Ts.retried decode method url outcomes key) =
        run (Sdk.ts.pass json decode key p method url outcomes) Sdk.ts.exhausted
          (p.maxRetries + 1) 0 := by
    rw [← hcount]
    rfl
  have hgo : Go.doWithRetry (Go.Policy.options p) (Go.retried method url outcomes) =
        run (Sdk.go.pass json decode key p method url outcomes) (Sdk.go.exhausted (δ := δ))
          (p.maxRetries + 1) 0 := by
    rw [Go.doWithRetry, heffective, ← hcount]
    rfl
  have hrust : Rust.doWithRetry (Rust.Policy.options p) (Rust.retried method url outcomes) =
        run (Sdk.rust.pass json decode key p method url outcomes) (Sdk.rust.exhausted (δ := δ))
          (p.maxRetries + 1) 0 := rfl
  rw [SameRetries, hts, hgo, hrust]
  constructor
  · rintro ⟨⟨hfirst, hsecond⟩, hfirst', hsecond'⟩
    have hall : ∀ a : Sdk,
        (run (a.pass json decode key p method url outcomes) a.exhausted (p.maxRetries + 1)
          0).1.length = (run (Sdk.go.pass json decode key p method url outcomes)
            (Sdk.go.exhausted (δ := δ)) (p.maxRetries + 1) 0).1.length ∧
        a.ending (run (a.pass json decode key p method url outcomes) a.exhausted
          (p.maxRetries + 1) 0).2 = Sdk.go.ending (run (Sdk.go.pass json decode key p method url
            outcomes) (Sdk.go.exhausted (δ := δ)) (p.maxRetries + 1) 0).2 := by
      intro a
      cases a with
      | ts => exact ⟨hfirst, hfirst'⟩
      | go => exact ⟨rfl, rfl⟩
      | rust => exact ⟨hsecond.symm, hsecond'.symm⟩
    exact fun a b => ⟨(hall a).1.trans (hall b).1.symm, (hall a).2.trans (hall b).2.symm⟩
  · intro h
    exact ⟨⟨(h .ts .go).1, (h .go .rust).1⟩, (h .ts .go).2, (h .go .rust).2⟩

/-- Whether a `304` is passed through matters for a `304` only. -/
theorem Outcome.ending_eq {o : Outcome} (h : ∀ body, o ≠ .response 304 body) (passed : Bool) :
    o.ending passed = o.ending true := by
  rcases o with ⟨status, body⟩ | _ | _
  · have hstatus : (status == 304) = false := by
      rw [beq_eq_false_iff_ne]
      rintro rfl
      exact h body rfl
    rw [Outcome.ending, Outcome.ending, hstatus, Bool.and_false, Bool.and_false]
  · rfl
  · rfl

theorem treatedAlike_iff {i : ℕ} {o : Outcome} :
    (∀ a b : Sdk, (if i < p.maxRetries ∧ a.retries p method url o = true then none
        else some (o.ending a.passes)) =
      if i < p.maxRetries ∧ b.retries p method url o = true then none
        else some (o.ending b.passes)) ↔ TreatedAlike p method url i o := by
  constructor
  · intro h
    constructor
    · rintro body rfl
      have hgo : ¬(i < p.maxRetries ∧ Sdk.go.retries p method url (.response 304 body) = true) :=
        fun hand => Bool.false_ne_true hand.2
      have hends := h .ts .go
      rw [if_neg hgo] at hends
      split at hends
      · cases hends
      · cases hends
    · intro hi
      have hsame : ∀ a b : Sdk, a.retries p method url o = b.retries p method url o := by
        intro a b
        have hab := h a b
        rcases ha : a.retries p method url o with _ | _ <;>
          rcases hb : b.retries p method url o with _ | _ <;> simp [hi, ha, hb] at hab ⊢
      exact ⟨hsame .ts .go, hsame .go .rust⟩
  · rintro ⟨hmodified, hsame⟩ a b
    rw [Outcome.ending_eq hmodified a.passes, Outcome.ending_eq hmodified b.passes]
    have hall : ∀ a : Sdk, i < p.maxRetries →
        a.retries p method url o = Go.retries p method url o := by
      intro a hi
      cases a with
      | ts => exact (hsame hi).1
      | go => rfl
      | rust => exact (hsame hi).2.symm
    by_cases hi : i < p.maxRetries
    · rw [hall a hi, hall b hi]
    · rw [if_neg fun hand => hi hand.1, if_neg fun hand => hi hand.1]

end Course

/-- **The clients dispatch as many requests and end alike exactly if each attempt that they all
reach is treated alike.** -/
theorem sameRetries_iff {δ : Type} (json : Ts.HostJson δ) (decode : Go.Bytes → String)
    (key : String) (p : Policy) (method url : String) (outcomes : ℕ → Outcome)
    (hmax : 1 ≤ p.maxRetries) :
    SameRetries json decode key p method url outcomes ↔
      ∀ i ≤ p.maxRetries, (∀ j < i, RetriedByAll p method url (outcomes j)) →
        TreatedAlike p method url i (outcomes i) := by
  have hlast : ∀ a : Sdk, (a.pass json decode key p method url outcomes
      (0 + p.maxRetries)).result ≠ none := by
    intro a hnone
    rw [Nat.zero_add, Sdk.result_pass_eq_none_iff a le_rfl] at hnone
    exact Nat.lt_irrefl _ hnone.1
  rw [sameRetries_iff_sameCourse hmax, sameCourse_iff Sdk.exists_sent hlast]
  refine forall₂_congr fun i hi => ?_
  refine imp_congr (forall₂_congr fun j hj => ?_) ?_
  · rw [Nat.zero_add]
    have hlt : j < p.maxRetries := Nat.lt_of_lt_of_le hj hi
    constructor
    · intro h
      have hretries : ∀ a : Sdk, a.retries p method url (outcomes j) = true := fun a =>
        ((Sdk.result_pass_eq_none_iff a hlt.le).mp (h a)).2
      exact ⟨hretries .ts, hretries .go, hretries .rust⟩
    · rintro ⟨hts, hgo, hrust⟩ a
      refine (Sdk.result_pass_eq_none_iff a hlt.le).mpr ⟨hlt, ?_⟩
      cases a with
      | ts => exact hts
      | go => exact hgo
      | rust => exact hrust
  · rw [← treatedAlike_iff, Nat.zero_add]
    refine forall₂_congr fun a b => ?_
    rw [Sdk.ending_pass a hi, Sdk.ending_pass b hi]

/-- The defaults of the clients. -/
def defaultPolicy : Policy := ⟨2, 500000000, 8000000000, [408, 429, 502, 503, 504]⟩

theorem timeout_not_retried_alike : ¬∀ (json : Ts.HostJson String) (decode : Go.Bytes → String)
    (key : String) (p : Policy) (method url : String) (outcomes : ℕ → Outcome),
      1 ≤ p.maxRetries → p.statuses ≠ [] → SameRetries json decode key p method url outcomes := by
  intro h
  obtain ⟨⟨hlength, -⟩, -⟩ := h .ofTexts (fun _ => "") "" defaultPolicy "GET" "http://localhost/pets"
    (fun _ => .timeout) (by decide) (by decide)
  have hts : (Ts.dispatchWithRetry .ofTexts (Ts.Policy.client defaultPolicy)
    (Ts.retried (δ := String) (fun _ => "") "GET" "http://localhost/pets" (fun _ => .timeout)
      "")).1.length = 1 := rfl
  have hgo : (Go.doWithRetry (Go.Policy.options defaultPolicy)
    (Go.retried "GET" "http://localhost/pets" fun _ => .timeout)).1.length = 3 := rfl
  rw [hts, hgo] at hlength
  exact absurd hlength (by decide)

/-- Busy at first, and then there. -/
def busyOnce : ℕ → Outcome
  | 0 => .response 503 []
  | _ + 1 => .response 200 []

theorem sameRetries_iff_busyOnce :
    SameRetries .ofTexts (fun _ => "") "" defaultPolicy "GET" "http://localhost/pets" busyOnce ∧
      RetriedByAll defaultPolicy "GET" "http://localhost/pets" (busyOnce 0) := by
  refine ⟨(sameRetries_iff .ofTexts (fun _ => "") "" defaultPolicy "GET" "http://localhost/pets"
    busyOnce (by decide)).mpr fun i _ _ => ?_, rfl, rfl, rfl⟩
  cases i with
  | zero =>
      refine ⟨fun body h => ?_, fun _ => ⟨rfl, rfl⟩⟩
      cases h
  | succ i =>
      refine ⟨fun body h => ?_, fun _ => ⟨rfl, rfl⟩⟩
      cases h

end SpecForge
