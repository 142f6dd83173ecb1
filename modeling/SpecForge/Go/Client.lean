import SpecForge.Go.Retry
import SpecForge.Lib.IndexMap

/-!
# Calls of the Go client

The cache of responses (§1), what `DoJSON` does with the response of a call (§2), and a whole
call that shares no run with another (§3). Such a call may succeed without a response, and §4
says when.
-/

namespace SpecForge.Go

open Lib Lib.Attempts

/-! ## §1  The cache -/

/-- Times are in nanoseconds. -/
structure CacheEntry where
  etag : String
  data : Bytes
  timestamp : ℤ

structure ResponseCache where
  entries : IndexMap Bytes CacheEntry
  ttl : ℤ

namespace ResponseCache

def new (ttl : ℤ) : ResponseCache := ⟨.empty, ttl⟩

/-- The entry for a URL, unless it has expired. -/
def find (c : ResponseCache) (now : ℤ) (u : Bytes) : Option CacheEntry :=
  (c.entries.get u).filter fun e => decide (now - e.timestamp < c.ttl)

/-- What `Get` leaves: an expired entry is evicted. -/
def evict (c : ResponseCache) (now : ℤ) (u : Bytes) : ResponseCache :=
  match c.entries.get u with
  | some e => if c.ttl ≤ now - e.timestamp then { c with entries := c.entries.erase u } else c
  | none => c

def set (c : ResponseCache) (now : ℤ) (u : Bytes) (etag : String) (data : Bytes) :
    ResponseCache :=
  { c with entries := c.entries.insert u ⟨etag, data, now⟩ }

end ResponseCache

/-! ## §2  After the response -/

structure Client where
  retry : RetryOptions
  cache : Option ResponseCache
  dedupe : Bool

def isGet (method : String) : Bool := toUpper method == "GET"

def isDedupeMethod (method : String) : Bool :=
  ["GET", "HEAD", "OPTIONS"].contains (toUpper method)

/-- Where the data of a response goes: through the transformers and interceptors of the client,
and into `out`, if that is not `nil`. -/
structure Target where
  hasOut : Bool
  transform : Bytes → Bytes
  /-- `json.Unmarshal`, with its error. -/
  unmarshal : Bytes → Option GoError

/-- What a call returns, and whether it has filled `out`. -/
structure Returned where
  err : Option GoError
  filled : Bool
deriving DecidableEq

/-- `204` is `http.StatusNoContent`. -/
def Target.deliver (out : Target) (status : ℕ) (data : Bytes) : Returned :=
  if out.hasOut = false ∨ status = 204 ∨ data = [] then ⟨none, false⟩
  else
    match out.unmarshal (out.transform data) with
    | some err => ⟨some err, false⟩
    | none => ⟨none, true⟩

/-- A `304` is answered from the entry that the call found. The status and the data of a call
without a response are zero. -/
def answered (found : Option CacheEntry) (result : Option Response) : ℕ × Bytes :=
  match result with
  | none => (0, [])
  | some r =>
      match found with
      | some e => if r.statusCode = 304 then (200, e.data) else (r.statusCode, r.body)
      | none => (r.statusCode, r.body)

/-- The end of `DoJSON`. -/
def finish (found : Option CacheEntry) (out : Target) :
    Except GoError (Option Response) → Returned
  | .error err => ⟨some err, false⟩
  | .ok result => out.deliver (answered found result).1 (answered found result).2

/-- A good response with an `ETag` is stored. -/
def ResponseCache.remember (cache : ResponseCache) (now : ℤ) (u : Bytes) :
    Except GoError (Option Response) → ResponseCache
  | .ok (some r) => if r.isSuccess = true ∧ r.etag ≠ "" then cache.set now u r.etag r.body else cache
  | _ => cache

/-! ## §3  A whole call -/

/-- A call of `DoJSON`: what it waits for before it starts may fail. The clock is read when the
cache is asked, and when the response has come. -/
structure Exchange where
  call : Call
  out : Target
  marshal : Option GoError
  gate : Option GoError
  limiter : Option GoError
  asked : ℤ
  answered : ℤ

/-- The error of a call that does not get as far as its attempts. -/
def Exchange.early (x : Exchange) : Option GoError :=
  x.marshal.or (x.gate.or x.limiter)

/-- The entry that a call finds in the cache. -/
def Client.lookup (c : Client) (x : Exchange) : Option CacheEntry :=
  if isGet x.call.method then c.cache.bind fun cache => cache.find x.asked x.call.url else none

/-- The cache after a call. -/
def Client.cacheAfter (c : Client) (x : Exchange) (result : Except GoError (Option Response)) :
    Option ResponseCache :=
  if isGet x.call.method then
    c.cache.map fun cache =>
      (cache.evict x.asked x.call.url).remember x.answered x.call.url result
  else c.cache

/-- `DoJSON` without a deduper: the attempts it makes, what it returns, and the cache. -/
def doJSON (c : Client) (x : Exchange) : List Answer × Returned × Option ResponseCache :=
  match x.early with
  | some err => ([], ⟨some err, false⟩, c.cache)
  | none =>
      let (made, result) := doWithRetry c.retry x.call
      (made, finish (c.lookup x) x.out result, c.cacheAfter x result)

/-! ## §4  Success without a response -/

/-- The last request that was sent was answered, by a good response or by a `304` for an entry
that the call found. -/
def Received (c : Client) (x : Exchange) : Prop :=
  (doJSON c x).2.1.err = none →
    ∃ r, ((doJSON c x).1.filter Answer.isDispatched).getLast? = some (.response r) ∧
      (r.isSuccess = true ∨ r.statusCode = 304 ∧ (c.lookup x).isSome = true)

theorem effective_nonneg_iff {opts : RetryOptions} :
    0 ≤ opts.effective.maxRetries ↔ 0 ≤ opts.maxRetries := by
  rw [RetryOptions.effective]
  split
  · next h =>
      rw [h.1]
      exact iff_of_true (by decide) (Int.le_refl 0)
  · exact Iff.rfl

theorem deliver_err_eq_none_iff {out : Target} {status : ℕ} {data : Bytes} :
    (out.deliver status data).err = none ↔
      out.hasOut = false ∨ status = 204 ∨ data = [] ∨
        out.unmarshal (out.transform data) = none := by
  rw [Target.deliver]
  split
  · next h =>
      refine iff_of_true rfl ?_
      rcases h with h | h | h
      · exact Or.inl h
      · exact Or.inr (Or.inl h)
      · exact Or.inr (Or.inr (Or.inl h))
  · next h =>
      rw [not_or, not_or] at h
      rcases out.unmarshal (out.transform data) with _ | err
      · simp
      · simp [h.1, h.2.1, h.2.2]

/-- Without an attempt a call succeeds. -/
theorem doJSON_of_no_attempt {c : Client} {x : Exchange} (hearly : x.early = none)
    (hmax : c.retry.maxRetries < 0) :
    (doJSON c x).1 = [] ∧ (doJSON c x).2.1 = ⟨none, false⟩ := by
  have hnone : (c.retry.effective.maxRetries + 1).toNat = 0 := by
    have hneg : ¬0 ≤ c.retry.effective.maxRetries := by
      rw [effective_nonneg_iff]
      omega
    omega
  have hrun : doWithRetry c.retry x.call = ([], .ok none) := by
    rw [doWithRetry, hnone, run]
  rw [doJSON, hearly, hrun]
  refine ⟨rfl, ?_⟩
  show x.out.deliver 0 [] = _
  rw [Target.deliver, if_pos (Or.inr (Or.inr rfl))]

theorem doJSON_of_early {c : Client} {x : Exchange} {err : GoError}
    (hearly : x.early = some err) : (doJSON c x).2.1.err = some err := by
  rw [doJSON, hearly]

theorem doJSON_eq {c : Client} {x : Exchange} (hearly : x.early = none) :
    (doJSON c x).1 = (doWithRetry c.retry x.call).1 ∧
      (doJSON c x).2.1 = finish (c.lookup x) x.out (doWithRetry c.retry x.call).2 := by
  rw [doJSON, hearly]
  exact ⟨rfl, rfl⟩

/-- A body that cannot be decoded into the target. -/
def Target.Undecodable (out : Target) (data : Bytes) : Prop :=
  out.hasOut = true ∧ data ≠ [] ∧ out.unmarshal (out.transform data) ≠ none

theorem received_of_error {c : Client} {x : Exchange} {err : GoError}
    (h : (doJSON c x).2.1.err = some err) : Received c x := by
  intro hnone
  rw [h] at hnone
  cases hnone

/-- A call that ends with a response. -/
theorem received_iff_of_response {c : Client} {x : Exchange} (hearly : x.early = none)
    {before : List Answer} {r : Response}
    (hmade : (doWithRetry c.retry x.call).1 = before ++ [.response r])
    (hresult : (doWithRetry c.retry x.call).2 = .ok (some r))
    (hgood : r.isSuccess = true ∨ r.statusCode = 304) :
    Received c x ↔
      (r.statusCode = 304 → c.lookup x = none → x.out.Undecodable r.body) := by
  obtain ⟨hmade', hreturned⟩ := doJSON_eq (c := c) hearly
  have hlast : ((doJSON c x).1.filter Answer.isDispatched).getLast? = some (.response r) := by
    rw [hmade', hmade, List.filter_append]
    simp [Answer.isDispatched]
  by_cases hfound : r.statusCode = 304 ∧ c.lookup x = none
  · obtain ⟨h304, hnone⟩ := hfound
    have hbad : ¬r.isSuccess = true := by
      rw [Response.isSuccess, h304]
      decide
    have herr : (doJSON c x).2.1.err = none ↔ ¬x.out.Undecodable r.body := by
      rw [hreturned, hresult, hnone]
      show (x.out.deliver r.statusCode r.body).err = none ↔ _
      rw [deliver_err_eq_none_iff, Target.Undecodable, h304]
      simp only [Bool.not_eq_true, not_and_or, ne_eq, not_not]
      simp
    constructor
    · intro h _ _
      by_contra hdecodable
      obtain ⟨r', hr', hsuccess | ⟨-, hsome⟩⟩ := h (herr.mpr hdecodable)
      · rw [hlast, Option.some.injEq, Answer.response.injEq] at hr'
        exact hbad (hr' ▸ hsuccess)
      · rw [hnone] at hsome
        cases hsome
    · intro h hnil
      exact absurd (h h304 hnone) (herr.mp hnil)
  · refine iff_of_true (fun _ => ⟨r, hlast, ?_⟩) fun h304 hnone => absurd ⟨h304, hnone⟩ hfound
    rcases hgood with hsuccess | h304
    · exact Or.inl hsuccess
    · refine Or.inr ⟨h304, ?_⟩
      exact Option.isSome_iff_ne_none.mpr fun hnone => hfound ⟨h304, hnone⟩

/-- **When success means that a response was received**: the number of retries is not negative,
and no attempt is answered by a `304` for which the call has no entry, unless its body cannot be
decoded. -/
theorem received_iff (c : Client) (x : Exchange) :
    Received c x ↔ (x.early = none → 0 ≤ c.retry.maxRetries ∧
      ∀ n r, x.call.Reaches c.retry.effective n → x.call.answers n = .response r →
        r.statusCode = 304 → c.lookup x = none → x.out.Undecodable r.body) := by
  rcases hearly : x.early with _ | err
  · rw [forall_prop_of_true rfl]
    by_cases hnonneg : 0 ≤ c.retry.maxRetries
    · rw [and_iff_right hnonneg]
      rcases doWithRetry_cases c.retry x.call (effective_nonneg_iff.mpr hnonneg) with
        ⟨e, hresult, hnone⟩ | ⟨k, result, hk, hsettle, hresult, ⟨before, hmade⟩, hunique⟩
      · refine iff_of_true (received_of_error (by rw [(doJSON_eq hearly).2, hresult]; rfl)) ?_
        intro n r hn hanswer h304
        obtain ⟨err, herr⟩ := hnone n hn
        rw [doOnce_eq_ok_iff.mpr ⟨hanswer, Or.inr h304⟩] at herr
        cases herr
      · -- the only attempt that a `304` can have answered is the last one
        have hlast : ∀ n r, x.call.Reaches c.retry.effective n → x.call.answers n = .response r →
            r.statusCode = 304 → result = .ok r := by
          intro n r hn hanswer h304
          have hdo : doOnce x.call.url (x.call.answers n) = .ok r :=
            doOnce_eq_ok_iff.mpr ⟨hanswer, Or.inr h304⟩
          obtain rfl := hunique n r hn hdo
          exact Option.some.inj (hsettle.symm.trans (settle_eq_ok_iff.mpr hdo))
        rcases result with err | r
        · refine iff_of_true (received_of_error (by rw [(doJSON_eq hearly).2, hresult]; rfl)) ?_
          intro n r hn hanswer h304
          cases hlast n r hn hanswer h304
        · obtain ⟨hanswer, hgood⟩ := doOnce_eq_ok_iff.mp (settle_eq_ok_iff.mp hsettle)
          rw [hanswer] at hmade
          rw [received_iff_of_response hearly hmade hresult hgood]
          constructor
          · intro h n r' hn hanswer' h304
            obtain rfl := Except.ok.inj (hlast n r' hn hanswer' h304)
            exact h h304
          · intro h h304
            exact h k r hk hanswer h304
    · refine iff_of_false ?_ fun h => hnonneg h.1
      obtain ⟨hmade, hreturned⟩ := doJSON_of_no_attempt (c := c) hearly (by omega)
      intro h
      obtain ⟨r, hr, -⟩ := h (by rw [hreturned])
      rw [hmade] at hr
      cases hr
  · exact iff_of_true (received_of_error (doJSON_of_early hearly)) fun h => by cases h

/-- A client that does not want retries, and says so with a negative number. -/
def noRetries : Client where
  retry := { defaultRetryOptions with maxRetries := -1 }
  cache := none
  dedupe := false

def getPets : Exchange where
  call := ⟨"GET", bytes "http://localhost/pets", fun _ => .failed (.url .network []), fun _ => none⟩
  out := ⟨true, id, fun _ => none⟩
  marshal := none
  gate := none
  limiter := none
  asked := 0
  answered := 0

theorem succeeds_without_request : ¬∀ (c : Client) (x : Exchange), Received c x := by
  intro h
  obtain ⟨hmade, hreturned⟩ := doJSON_of_no_attempt (c := noRetries) (x := getPets) rfl (by decide)
  obtain ⟨r, hr, -⟩ := h noRetries getPets (by rw [hreturned])
  rw [hmade] at hr
  cases hr

end SpecForge.Go
