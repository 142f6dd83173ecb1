import SpecForge.Ts.Client

/-!
# Conditional requests

What `request` makes of a cached response whose ETag the server confirms. The cache (§1) is
asked before the call, the deduper may hand over the run of a call that is in the air
already (§2), and what comes back decides about the cache again (§3). Only a response with
a good status comes back from the retry loop, so a 304 never reaches the branch that is
written for it (§4). Other calls of the client matter through the runs they share only.
-/

namespace SpecForge.Ts

open Lib

universe u

variable {δ : Type u}

/-! ## §1  Cache -/

structure CacheEntry (δ : Type u) where
  etag : String
  data : δ
  timestamp : ℤ

structure ResponseCache (δ : Type u) where
  cache : IndexMap String (CacheEntry δ)
  ttl : ℤ

namespace ResponseCache

def new (ttlMs : ℤ) : ResponseCache δ := ⟨.empty, ttlMs⟩

/-- The entry has not expired. -/
def isFresh (k : ResponseCache δ) (now : ℤ) (entry : CacheEntry δ) : Bool :=
  decide (now - entry.timestamp < k.ttl)

/-- An entry that has expired is evicted. -/
def get (k : ResponseCache δ) (now : ℤ) (url : String) :
    Option (CacheEntry δ) × ResponseCache δ :=
  match (k.cache.get url).filter (k.isFresh now) with
  | some entry => (some entry, k)
  | none => (none, { k with cache := k.cache.erase url })

def set (k : ResponseCache δ) (now : ℤ) (url etag : String) (data : δ) : ResponseCache δ :=
  { k with cache := k.cache.insert url ⟨etag, data, now⟩ }

end ResponseCache

/-! ## §2  Deduplication -/

/-- The runs in the air, by method and URL. -/
abbrev InFlight (δ : Type u) := IndexMap String (Call δ)

section Request

variable (json : HostJson δ) (c : ApiClient δ)

/-- The call whose run a request waits for. -/
def sharedCall (inFlight : InFlight δ) (call : Call δ) : Call δ :=
  if c.useDedupe && isSafeMethod call.method then
    (inFlight.get (call.method ++ " " ++ call.url)).getD call
  else call

/-- The fresh `Response` that a waiter is given of a buffered one. -/
def rebuild (response : Response) : Except (Thrown δ) Response :=
  match response.text with
  | .error e => .error (.exception e)
  | .ok _ =>
      if response.status ∈ nullBodyStatuses then .error (.exception .bodyRefused)
      else .ok response

/-- The call through the deduper. -/
def send (inFlight : InFlight δ) (call : Call δ) : Except (Thrown δ) Response :=
  match (dispatchWithRetry json c (sharedCall c inFlight call)).2 with
  | .error e => .error e
  | .ok response =>
      if c.useDedupe && isSafeMethod call.method then rebuild response else .ok response

/-! ## §3  Requests -/

/-- A call of `request`, with the answers to its attempts, the time at which it is made and
the time at which its response arrives. -/
structure Request (δ : Type u) where
  method : String
  path : String
  opts : RequestOptions
  newIdempotencyKey : String
  answers : ℕ → Answer δ
  madeAt : ℤ
  arrivedAt : ℤ

def Request.isGet (r : Request δ) : Bool := Js.toUpperCase r.method == "GET"

def Request.url (r : Request δ) : String := c.url r.path r.opts

/-- The entry that is found, and the cache after the look. -/
def Request.look (r : Request δ) (cache : Option (ResponseCache δ)) :
    Option (CacheEntry δ) × Option (ResponseCache δ) :=
  match cache with
  | none => (none, none)
  | some k =>
      if r.isGet then
        let (entry, k') := k.get r.madeAt (r.url c)
        (entry, some k')
      else (none, some k)

/-- The call, which is conditional if an entry is found. -/
def Request.call (r : Request δ) (cachedEntry : Option (CacheEntry δ)) : Call δ :=
  { method := r.method
    url := r.url c
    opts := { r.opts with
      headers := match cachedEntry with
        | some entry => r.opts.headers.insert "If-None-Match" entry.etag
        | none => r.opts.headers }
    newIdempotencyKey := r.newIdempotencyKey
    answers := r.answers }

/-- The response that is made of an entry. -/
def cachedResponse (entry : CacheEntry δ) : Response :=
  { status := 200
    statusText := "OK (cached)"
    headers := (IndexMap.empty.insert "content-type" "application/json").insert "x-cache" "HIT"
    text := .ok (json.stringify entry.data)
    nullBody := fun h => absurd h (by decide) }

/-- The value of a header that is not empty. -/
def truthyHeader (name : String) (response : Response) : Option String :=
  (wireValue name response.headers).filter fun value => value != ""

/-- What is made of the response, and of the cache, when a `GET` returns. -/
def Request.receive (r : Request δ) (cachedEntry : Option (CacheEntry δ))
    (k : ResponseCache δ) (response : Response) :
    Except (Thrown δ) Response × ResponseCache δ :=
  match cachedEntry.filter fun _ => response.status == 304 with
  | some entry => (.ok (cachedResponse json entry), k)
  | none =>
      match (truthyHeader "etag" response).filter fun _ => response.isOk with
      | none => (.ok response, k)
      | some etag =>
          match response.text with
          | .error e => (.error (.exception e), k)
          | .ok body =>
              (.ok response, k.set r.arrivedAt (r.url c) etag (json.parseOr body))

def request (cache : Option (ResponseCache δ)) (inFlight : InFlight δ) (r : Request δ) :
    Except (Thrown δ) Response × Option (ResponseCache δ) :=
  if !Text.startsWith "/" r.path then
    (.error (.api (.configuration
      ("path must start with \"/\", got " ++ json.stringify (json.ofText r.path)))), cache)
  else
    let (cachedEntry, cache) := r.look c cache
    match send json c inFlight (r.call c cachedEntry), cache with
    | .error e, _ => (.error e, cache)
    | .ok response, none => (.ok response, none)
    | .ok response, some k =>
        if r.isGet then
          let (result, k') := r.receive json c cachedEntry k response
          (result, some k')
        else (.ok response, some k)

/-! ## §4  Confirmed entries -/

/-- The request resolves to the cached data, and the entry is still there. -/
structure ServedFromCache (url : String) (entry : CacheEntry δ)
    (result : Except (Thrown δ) Response × Option (ResponseCache δ)) : Prop where
  response : ∃ response text, result.1 = .ok response ∧ response.status = 200 ∧
    response.text = .ok text ∧ json.parse text = some entry.data
  kept : ∃ k entry', result.2 = some k ∧ k.cache.get url = some entry' ∧
    entry'.etag = entry.etag ∧ entry'.data = entry.data

/-- The attempt is made and answered with the response. -/
def Call.AnsweredWith (call : Call δ) (attempt : ℕ) (response : Response) : Prop :=
  call.Attempted c attempt ∧ (∃ supplied, call.suppliedHeaders c attempt = .ok supplied) ∧
    (call.answers attempt).handler = .ok response

/-- A response that says the same as the entry: the data again, and no other ETag. -/
def Repeats (entry : CacheEntry δ) (response : Response) : Prop :=
  response.status = 200 ∧
    (∃ text, response.text = .ok text ∧ json.parse text = some entry.data) ∧
    ∀ etag ∈ truthyHeader "etag" response, etag = entry.etag

variable {json c}

/-- What comes back from the deduper is a good answer to an attempt. -/
theorem send_eq_ok {inFlight : InFlight δ} {call : Call δ} {response : Response}
    (h : send json c inFlight call = .ok response) :
    ∃ i, (sharedCall c inFlight call).AnsweredWith c i response ∧ response.isOk = true := by
  rw [send] at h
  split at h
  · cases h
  · next response' hrun =>
      obtain ⟨i, hattempted, hsupplied, hanswer, hok⟩ := dispatchWithRetry_eq_ok_iff.mp hrun
      have hsame : response' = response := by
        split at h
        · rw [rebuild] at h
          split at h
          · cases h
          · split at h
            · cases h
            · exact Except.ok.inj h
        · exact Except.ok.inj h
      subst hsame
      exact ⟨i, ⟨hattempted, hsupplied, hanswer⟩, hok⟩

/-- A readable 200 comes back from the deduper as it is. -/
theorem send_of_answeredWith {inFlight : InFlight δ} {call : Call δ} {response : Response}
    {i : ℕ} {text : String} (h : (sharedCall c inFlight call).AnsweredWith c i response)
    (hstatus : response.status = 200) (htext : response.text = .ok text) :
    send json c inFlight call = .ok response := by
  have hok : response.isOk = true := by
    rw [Response.isOk, hstatus]
    rfl
  have hrun : (dispatchWithRetry json c (sharedCall c inFlight call)).2 = .ok response :=
    dispatchWithRetry_eq_ok_iff.mpr ⟨i, h.1, h.2.1, h.2.2, hok⟩
  have hrebuild : rebuild response = (.ok response : Except (Thrown δ) Response) := by
    rw [rebuild, htext]
    exact if_neg (by rw [hstatus]; decide)
  rw [send, hrun]
  show (if c.useDedupe && isSafeMethod call.method then rebuild response else .ok response) = _
  rw [hrebuild, ite_self]

section Hit

variable {r : Request δ} {k : ResponseCache δ} {entry : CacheEntry δ}

theorem get_of_isFresh {now : ℤ} {url : String} (hentry : k.cache.get url = some entry)
    (hfresh : k.isFresh now entry = true) : k.get now url = (some entry, k) := by
  rw [ResponseCache.get, hentry, Option.filter_some, if_pos hfresh]

/-- A request that finds an entry comes to what it makes of the response. -/
theorem request_of_hit (inFlight : InFlight δ) (hpath : Text.startsWith "/" r.path = true)
    (hget : r.isGet = true) (hentry : k.cache.get (r.url c) = some entry)
    (hfresh : k.isFresh r.madeAt entry = true) :
    request json c (some k) inFlight r =
      match send json c inFlight (r.call c (some entry)) with
      | .error e => (.error e, some k)
      | .ok response =>
          ((r.receive json c (some entry) k response).1,
            some (r.receive json c (some entry) k response).2) := by
  have hlook : r.look c (some k) = (some entry, some k) := by
    simp only [Request.look, hget, if_true, get_of_isFresh hentry hfresh]
  rw [request, hpath, Bool.not_true, if_neg Bool.false_ne_true, hlook]
  dsimp only
  rcases send json c inFlight (r.call c (some entry)) with e | response
  · rfl
  · exact if_pos hget

/-- The branch for a 304 is not taken on a good response. -/
theorem receive_of_isOk {response : Response} (hok : response.isOk = true) :
    r.receive json c (some entry) k response =
      match truthyHeader "etag" response with
      | none => (.ok response, k)
      | some etag =>
          match response.text with
          | .error e => (.error (.exception e), k)
          | .ok body => (.ok response, k.set r.arrivedAt (r.url c) etag (json.parseOr body)) := by
  have hstatus : (response.status == 304) = false := by
    rw [Response.isOk, decide_eq_true_iff] at hok
    exact beq_eq_false_iff_ne.mpr (by omega)
  rw [Request.receive, hstatus, hok]
  rcases truthyHeader "etag" response with _ | etag
  · rfl
  · rfl

/-- A good response serves the cached data exactly if it repeats them. -/
theorem servedFromCache_receive_iff {response : Response} (hok : response.isOk = true)
    (hentry : k.cache.get (r.url c) = some entry) :
    ServedFromCache json (r.url c) entry
        ((r.receive json c (some entry) k response).1,
          some (r.receive json c (some entry) k response).2) ↔
      Repeats json entry response := by
  rw [receive_of_isOk hok]
  rcases hetag : truthyHeader "etag" response with _ | etag
  · constructor
    · rintro ⟨⟨response', text, heq, hstatus, htext, hparse⟩, -⟩
      obtain rfl : response = response' := Except.ok.inj heq
      exact ⟨hstatus, ⟨text, htext, hparse⟩, by simp [hetag]⟩
    · rintro ⟨hstatus, ⟨text, htext, hparse⟩, -⟩
      exact ⟨⟨response, text, rfl, hstatus, htext, hparse⟩, k, entry, rfl, hentry, rfl, rfl⟩
  · rcases htext : response.text with e | body
    · refine iff_of_false ?_ ?_
      · rintro ⟨⟨response', text, heq, -⟩, -⟩
        cases heq
      · rintro ⟨-, ⟨text, htext', -⟩, -⟩
        rw [htext] at htext'
        cases htext'
    · have hset : (k.set r.arrivedAt (r.url c) etag (json.parseOr body)).cache.get (r.url c) =
          some ⟨etag, json.parseOr body, r.arrivedAt⟩ := IndexMap.get_insert_self _ _ _
      constructor
      · rintro ⟨⟨response', text, heq, hstatus, htext', hparse⟩, k', entry', hk, hget, hsame, -⟩
        obtain rfl : response = response' := Except.ok.inj heq
        obtain rfl := Option.some.inj hk
        rw [hset] at hget
        obtain rfl := Option.some.inj hget
        refine ⟨hstatus, ⟨text, htext', hparse⟩, fun etag' hmem => ?_⟩
        rw [hetag] at hmem
        exact (Option.mem_some_iff.mp hmem).symm.trans hsame
      · rintro ⟨hstatus, ⟨text, htext', hparse⟩, hsame⟩
        obtain rfl : body = text := Except.ok.inj (htext.symm.trans htext')
        refine ⟨⟨response, body, rfl, hstatus, htext, hparse⟩, _, _, rfl, hset, ?_, ?_⟩
        · exact hsame etag (by rw [hetag]; exact rfl)
        · show json.parseOr body = entry.data
          rw [HostJson.parseOr, hparse]
          rfl

/-- The answer that a request comes to is the first good one. -/
theorem servedFromCache_iff_repeats (inFlight : InFlight δ)
    (hpath : Text.startsWith "/" r.path = true) (hget : r.isGet = true)
    (hentry : k.cache.get (r.url c) = some entry)
    (hfresh : k.isFresh r.madeAt entry = true) :
    ServedFromCache json (r.url c) entry (request json c (some k) inFlight r) ↔
      ∃ i response, (sharedCall c inFlight (r.call c (some entry))).AnsweredWith c i response ∧
        Repeats json entry response := by
  rw [request_of_hit inFlight hpath hget hentry hfresh]
  constructor
  · intro h
    rcases hsend : send json c inFlight (r.call c (some entry)) with e | response
    · rw [hsend] at h
      obtain ⟨response, text, heq, -⟩ := h.response
      cases heq
    · rw [hsend] at h
      obtain ⟨i, hanswer, hok⟩ := send_eq_ok hsend
      exact ⟨i, response, hanswer, (servedFromCache_receive_iff hok hentry).mp h⟩
  · rintro ⟨i, response, hanswer, hrepeats⟩
    obtain ⟨text, htext, -⟩ := hrepeats.2.1
    have hok : response.isOk = true := by
      rw [Response.isOk, hrepeats.1]
      rfl
    rw [send_of_answeredWith hanswer hrepeats.1 htext]
    exact (servedFromCache_receive_iff hok hentry).mpr hrepeats

/-- No attempt follows a good answer. -/
theorem lt_of_answeredWith {call : Call δ} {i j : ℕ} {response response' : Response}
    (hi : call.AnsweredWith c i response) (hbad : response.isOk = false)
    (hj : call.AnsweredWith c j response') (hgood : response'.isOk = true) : i < j := by
  rcases Nat.lt_trichotomy i j with hlt | rfl | hlt
  · exact hlt
  · have heq : response = response' := Except.ok.inj (hi.2.2.symm.trans hj.2.2)
    rw [heq, hgood] at hbad
    cases hbad
  · have hretries := (hi.1.2 j hlt).2
    rw [Call.retries, hj.2.2, Bool.and_eq_true] at hretries
    simp [hgood] at hretries

/-- A 304 has no body that could fail to be read, so only its status has it tried again. -/
theorem retries_iff_of_notModified {call : Call δ} {i : ℕ} {response : Response}
    (hanswer : (call.answers i).handler = .ok response) (hstatus : response.status = 304) :
    call.retries c i = true ↔
      call.mayRetry c i = true ∧ c.retry.retryOnStatuses.contains 304 = true := by
  have htext : response.text = .ok "" := response.nullBody (by rw [hstatus]; decide)
  have hok : response.isOk = false := by
    rw [Response.isOk, hstatus]
    rfl
  rw [Call.retries, hanswer, Bool.and_eq_true]
  dsimp only
  rw [hok, htext, hstatus, Bool.not_false, Bool.true_and, Bool.or_false]

/-- The 304 is tried again like a failure, and a later attempt is answered in full with what
is in the cache. -/
structure Overtaken (json : HostJson δ) (c : ApiClient δ) (call : Call δ) (attempt : ℕ)
    (entry : CacheEntry δ) : Prop where
  retried : call.mayRetry c attempt = true ∧ c.retry.retryOnStatuses.contains 304 = true
  repeated : ∃ i > attempt, ∃ response, call.AnsweredWith c i response ∧
    Repeats json entry response

/-- A request for a cached response is served from the cache not because of a 304, but in
spite of it. -/
theorem servedFromCache_iff_overtaken (inFlight : InFlight δ)
    (hpath : Text.startsWith "/" r.path = true) (hget : r.isGet = true)
    (hentry : k.cache.get (r.url c) = some entry)
    (hfresh : k.isFresh r.madeAt entry = true) {attempt : ℕ} {notModified : Response}
    (hanswer : (sharedCall c inFlight (r.call c (some entry))).AnsweredWith c attempt notModified)
    (hstatus : notModified.status = 304) :
    ServedFromCache json (r.url c) entry (request json c (some k) inFlight r) ↔
      Overtaken json c (sharedCall c inFlight (r.call c (some entry))) attempt entry := by
  rw [servedFromCache_iff_repeats inFlight hpath hget hentry hfresh]
  constructor
  · rintro ⟨i, response, hi, hrepeats⟩
    have hbad : notModified.isOk = false := by
      rw [Response.isOk, hstatus]
      rfl
    have hgood : response.isOk = true := by
      rw [Response.isOk, hrepeats.1]
      rfl
    have hlt := lt_of_answeredWith hanswer hbad hi hgood
    exact ⟨(retries_iff_of_notModified hanswer.2.2 hstatus).mp (hi.1.2 attempt hlt).2,
      i, hlt, response, hi, hrepeats⟩
  · rintro ⟨-, i, -, response, hi, hrepeats⟩
    exact ⟨i, response, hi, hrepeats⟩

end Hit

end Request

/-! ## §5  Pets in the cache -/

def petsEntry : CacheEntry String := ⟨"v1", "[\"Fido\"]", 0⟩

def petsCache : ResponseCache String :=
  (ResponseCache.new 60000).set 0 "https://example.com/pets" "v1" "[\"Fido\"]"

/-- The pets are asked for while they are in the cache. -/
def petsRequest (answers : ℕ → Answer String) : Request String :=
  { method := "GET"
    path := "/pets"
    opts := {}
    newIdempotencyKey := "key-1"
    answers := answers
    madeAt := 1000
    arrivedAt := 1200 }

def notModified : Response := ⟨304, "Not Modified", .empty, .ok "", fun _ => rfl⟩

/-- The pets in full. -/
def petsResponse : Response :=
  ⟨200, "OK", .empty, .ok "[\"Fido\"]", fun h => absurd h (by decide)⟩

def patientAnswers (attempt : ℕ) : Answer String :=
  { handler := .ok (if attempt = 0 then notModified else petsResponse) }

/-- A client that tries again after a 304. -/
def patientClient : ApiClient String :=
  ApiClient.new "https://example.com" { retry := { retryOnStatuses := [304] } }

theorem servedFromCache_iff_overtaken_patient :
    ServedFromCache .ofTexts "https://example.com/pets" petsEntry
      (request .ofTexts patientClient (some petsCache) .empty (petsRequest patientAnswers)) := by
  have hfirst : (sharedCall patientClient .empty ((petsRequest patientAnswers).call patientClient
      (some petsEntry))).AnsweredWith patientClient 0 notModified :=
    ⟨⟨by decide, fun i hi => absurd hi (Nat.not_lt_zero i)⟩, ⟨_, rfl⟩, rfl⟩
  refine (servedFromCache_iff_overtaken .empty (by decide) (by decide) rfl (by decide) hfirst
    rfl).mpr ⟨⟨by decide, by decide⟩, 1, Nat.one_pos, petsResponse, ⟨⟨by decide, ?_⟩, ⟨_, rfl⟩, rfl⟩,
      rfl, ⟨_, rfl, rfl⟩, ?_⟩
  · intro i hi
    obtain rfl : i = 0 := by omega
    exact ⟨⟨_, rfl⟩, by decide⟩
  · intro etag hetag
    cases hetag

/-- The entry is fresh and the server confirms it. -/
theorem petsRequest_rejected :
    let c : ApiClient String := ApiClient.new "https://example.com" {}
    let r := petsRequest fun _ => { handler := .ok notModified }
    petsCache.get r.madeAt (r.url c) = (some petsEntry, petsCache) ∧
      (sharedCall c .empty (r.call c (some petsEntry))).AnsweredWith c 0 notModified ∧
      ¬ ServedFromCache .ofTexts (r.url c) petsEntry
        (request .ofTexts c (some petsCache) .empty r) := by
  refine ⟨rfl, ⟨⟨by decide, fun i hi => absurd hi (Nat.not_lt_zero i)⟩, ⟨_, rfl⟩, rfl⟩, ?_⟩
  rintro ⟨⟨response, text, heq, -⟩, -⟩
  cases heq

end SpecForge.Ts
