import SpecForge.Rust.Dedupe

/-!
# The response cache of the Rust client

The cache keeps the last response to a path that had an `ETag` (§1). All `GET` calls of
`request_json` on one client ask it first, share the runs of the deduper or make their own, and
are answered from what they found if the server says `304` (§2). The key of the cache leaves the
query out, and the key of a run may be that of another request: §3 says when a call is answered
with data of its own.
-/

namespace SpecForge.Rust

open Lib Lib.Program

/-! ## §1  The cache -/

/-- What a call asks for. -/
structure Target where
  path : String
  query : List (String × String)
deriving DecidableEq

/-- Times are in nanoseconds. The target is that of the call that stored the entry. -/
structure CacheEntry where
  etag : String
  data : Bytes
  timestamp : ℤ
  storedFor : Target
deriving DecidableEq

structure ResponseCache where
  inner : IndexMap String CacheEntry
  ttl : ℕ

namespace ResponseCache

def new (ttl : ℕ) : ResponseCache := ⟨.empty, ttl⟩

def isFresh (c : ResponseCache) (now : ℤ) (e : CacheEntry) : Bool :=
  decide ((now - e.timestamp).toNat < c.ttl)

def get (c : ResponseCache) (now : ℤ) (url : String) : Option CacheEntry :=
  (c.inner.get url).filter (c.isFresh now)

/-- Entries that have expired are evicted. -/
def set (c : ResponseCache) (now : ℤ) (url : String) (e : CacheEntry) : ResponseCache :=
  { c with inner := (c.inner.retain fun _ e => c.isFresh now e).insert url e }

end ResponseCache

/-! ## §2  `GET` calls -/

structure Client where
  baseUrl : String
  dedupe : Bool
  retry : RetryOptions
  ttl : ℕ

def Client.url (c : Client) (t : Target) : String := c.baseUrl ++ t.path

/-- `{:?}` of the query. -/
def debugQuery (query : List (String × String)) : String :=
  "[" ++ Text.join ", " (query.map fun e =>
    "(" ++ Text.debugStr e.1 ++ ", " ++ Text.debugStr e.2 ++ ")") ++ "]"

def Client.dedupeKey (c : Client) (t : Target) : String :=
  if t.query = [] then "GET " ++ c.url t
  else "GET " ++ c.url t ++ "?" ++ debugQuery t.query

namespace Get

inductive Stage where
  | lookup
  /-- The run is the call's own. -/
  | sending
  | dedupe (stage : RequestDeduper.Stage Response)
  | answered (result : Except Error Response)
  | returned (result : Except Error Bytes) (cached : Bool)
  | dropped

/-- A call, with the entry that it has found. -/
structure Request where
  target : Target
  found : Option CacheEntry
  stage : Stage

/-- A response that the server sent for a target. -/
structure Received where
  target : Target
  response : Response
deriving DecidableEq

/-- What the calls share. On record are the responses, and the targets of the calls that opened
the channels. -/
structure Store where
  cache : ResponseCache
  deduper : RequestDeduper Response
  received : List Received
  opened : List Target

inductive Action where
  | lookup (now : ℤ)
  /-- A run is done; this came of its attempts. -/
  | complete (answers : ℕ → Answer)
  | enter
  | remove
  | receive
  | finish (now : ℤ)
  | drop

/-- What comes of a run. -/
def result (c : Client) (t : Target) (answers : ℕ → Answer) : Except Error Response :=
  (doWithRetry c.retry ⟨"GET", c.url t, t.query, answers⟩).2

def Store.log (s : Store) (t : Target) : Except Error Response → Store
  | .ok r => { s with received := s.received ++ [⟨t, r⟩] }
  | .error _ => s

/-- Who does not find its key will open a channel. -/
def Store.open (s : Store) (key : String) (t : Target) : Store :=
  if s.deduper.inflight.get key = none then { s with opened := s.opened ++ [t] } else s

/-- What a call has been answered with. -/
def Stage.answer : Stage → Option (Except Error Response)
  | .answered result => some result
  | .dedupe (.led _ result) => some result
  | .dedupe (.joined _ received) => some (RequestDeduper.outcome received)
  | _ => none

/-- From the answer of a call to what it returns, and whether that is cached data. -/
def finish (c : Client) (now : ℤ) (s : Store) (r : Request) :
    Except Error Response → Store × Stage
  | .error e => (s, .returned (.error e) false)
  | .ok response =>
      if response.status = 304 then
        match r.found with
        | some entry => (s, .returned (.ok entry.data) true)
        | none => (s, .returned (.ok response.body) false)
      else if response.isSuccess = true ∧ response.etag ≠ "" then
        ({ s with
            cache := s.cache.set now (c.url r.target)
              ⟨response.etag, response.body, now, r.target⟩ },
          .returned (.ok response.body) false)
      else (s, .returned (.ok response.body) false)

/-- An action of the deduper. -/
def dedupeStep (c : Client) (display : Error → String) (i : ℕ)
    (a : RequestDeduper.Action Response) (s : Store) (r : Request)
    (stage : RequestDeduper.Stage Response) : Option (Store × Request) :=
  (RequestDeduper.step display i (c.dedupeKey r.target) a s.deduper stage).map fun e =>
    ({ s with deduper := e.1 }, { r with stage := .dedupe e.2 })

def step (c : Client) (display : Error → String) (i : ℕ) (a : Action) (s : Store) (r : Request) :
    Option (Store × Request) :=
  match a, r.stage with
  | .lookup now, .lookup =>
      some (s,
        { r with
          found := s.cache.get now (c.url r.target)
          stage := if c.dedupe then .dedupe .entering else .sending })
  | .complete answers, .sending =>
      let result := result c r.target answers
      some (s.log r.target result, { r with stage := .answered result })
  | .complete answers, .dedupe stage =>
      let result := result c r.target answers
      dedupeStep c display i (.complete result) (s.log r.target result) r stage
  | .enter, .dedupe stage =>
      dedupeStep c display i .enter (s.open (c.dedupeKey r.target) r.target) r stage
  | .remove, .dedupe stage => dedupeStep c display i .remove s r stage
  | .receive, .dedupe stage => dedupeStep c display i .receive s r stage
  | .finish now, stage =>
      stage.answer.map fun answer =>
        let (s, stage) := finish c now s r answer
        (s, { r with stage })
  | .drop, .dedupe stage => dedupeStep c display i .drop s r stage
  | .drop, .lookup => some (s, { r with stage := .dropped })
  | .drop, .sending => some (s, { r with stage := .dropped })
  | .drop, .answered _ => some (s, { r with stage := .dropped })
  | _, _ => none

/-- All `GET` calls on one client. -/
def gets (c : Client) (display : Error → String) : Program Store Request Target Action where
  init := ⟨.new c.ttl, ⟨.empty, []⟩, [], []⟩
  start t := ⟨t, none, .lookup⟩
  step := step c display

/-! ## §3  Whose data is returned -/

/-- The data is the body of a good response to a call for the target. -/
def Sourced (s : Store) (t : Target) (data : Bytes) : Prop :=
  ∃ response, ⟨t, response⟩ ∈ s.received ∧ response.isSuccess = true ∧ response.body = data

/-- What is known of the outcome of a run. -/
def Stage.known : Stage → Option (Except Error Response)
  | .answered result => some result
  | .dedupe (.removing _ result) => some result
  | .dedupe (.led _ result) => some result
  | .dedupe (.joined _ received) => some (RequestDeduper.outcome received)
  | _ => none

/-- The channel that a call sends on, or listens to. -/
def Stage.channel : Stage → Option ℕ
  | .dedupe (.running c) => some c
  | .dedupe (.waiting c _) => some c
  | _ => none

/-- The entries come from calls for the path they are kept under, and what is sent on a channel
from one for the target that it was opened for. -/
structure StoreHolds (c : Client) (s : Store) : Prop where
  opened : s.opened.length = s.deduper.channels.length
  cached : ∀ url e, s.cache.inner.get url = some e →
    url = c.url e.storedFor ∧ Sourced s e.storedFor e.data
  sent : ∀ (ch : ℕ) (channel : Channel Response) (response : Response),
    s.deduper.channels[ch]? = some channel → .ok response ∈ channel.sent →
      ∃ t, s.opened[ch]? = some t ∧ ⟨t, response⟩ ∈ s.received

structure RequestHolds (s : Store) (r : Request) : Prop where
  found : ∀ e ∈ r.found, e.storedFor.path = r.target.path ∧ Sourced s e.storedFor e.data
  known : ∀ response, r.stage.known = some (.ok response) → ⟨r.target, response⟩ ∈ s.received
  channel : ∀ ch, r.stage.channel = some ch → s.opened[ch]? = some r.target
  cached : ∀ data, r.stage = .returned (.ok data) true → Sourced s r.target data

/-- More is on record. -/
structure Extends (s s' : Store) : Prop where
  received : ∀ x ∈ s.received, x ∈ s'.received
  opened : ∀ (ch : ℕ) (t : Target), s.opened[ch]? = some t → s'.opened[ch]? = some t

section Keeps

variable {c : Client} {s s' : Store} {r : Request} {t : Target}

theorem extends_refl (s : Store) : Extends s s := ⟨fun _ h => h, fun _ _ h => h⟩

theorem Extends.trans {s'' : Store} (h : Extends s s') (h' : Extends s' s'') : Extends s s'' :=
  ⟨fun x hx => h'.received x (h.received x hx), fun ch t ht => h'.opened ch t (h.opened ch t ht)⟩

theorem Sourced.extend {data : Bytes} (h : Sourced s t data) (hext : Extends s s') :
    Sourced s' t data := by
  obtain ⟨response, hmem, hrest⟩ := h
  exact ⟨response, hext.received _ hmem, hrest⟩

theorem RequestHolds.extend (h : RequestHolds s r) (hext : Extends s s') : RequestHolds s' r := by
  constructor
  · intro e he
    exact ⟨(h.found e he).1, (h.found e he).2.extend hext⟩
  · intro response hresponse
    exact hext.received _ (h.known response hresponse)
  · intro ch hch
    exact hext.opened ch _ (h.channel ch hch)
  · intro data hdata
    exact (h.cached data hdata).extend hext

theorem known_of_answer {stage : Stage} {result : Except Error Response}
    (h : stage.answer = some result) : stage.known = some result := by
  rcases stage with _ | _ | stage | _ | _ | _
  · cases h
  · cases h
  · cases stage <;> first | exact h | cases h
  · exact h
  · cases h
  · cases h

theorem extends_log (result : Except Error Response) : Extends s (s.log t result) := by
  rcases result with e | response
  · exact extends_refl s
  · exact ⟨fun x hx => List.mem_append_left _ hx, fun _ _ h => h⟩

theorem mem_log (s : Store) (t : Target) (response : Response) :
    ⟨t, response⟩ ∈ (s.log t (.ok response)).received :=
  List.mem_append_right _ List.mem_cons_self

theorem StoreHolds.log (h : StoreHolds c s) (t : Target) (result : Except Error Response) :
    StoreHolds c (s.log t result) := by
  have hext := extends_log (s := s) (t := t) result
  rcases result with e | response
  · exact h
  · refine ⟨h.opened, fun url e he => ?_, fun ch channel response' hch hsent => ?_⟩
    · exact ⟨(h.cached url e he).1, (h.cached url e he).2.extend hext⟩
    · obtain ⟨t', ht', hmem⟩ := h.sent ch channel response' hch hsent
      exact ⟨t', ht', hext.received _ hmem⟩

theorem path_of_url_eq {t t' : Target} (h : c.url t = c.url t') : t.path = t'.path :=
  Text.append_inj_left h

theorem found_of_get (h : StoreHolds c s) {now : ℤ} {e : CacheEntry}
    (he : s.cache.get now (c.url t) = some e) :
    e.storedFor.path = t.path ∧ Sourced s e.storedFor e.data := by
  obtain ⟨hget, -⟩ := Option.filter_eq_some_iff.mp he
  obtain ⟨hurl, hsourced⟩ := h.cached _ e hget
  exact ⟨path_of_url_eq hurl.symm, hsourced⟩

theorem StoreHolds.set (h : StoreHolds c s) {now : ℤ} {response : Response} (etag : String)
    (hmem : ⟨t, response⟩ ∈ s.received) (hsuccess : response.isSuccess = true) :
    StoreHolds c { s with
      cache := s.cache.set now (c.url t) ⟨etag, response.body, now, t⟩ } := by
  refine ⟨h.opened, fun url e he => ?_, h.sent⟩
  have hget := he
  rw [ResponseCache.set, IndexMap.get_insert] at hget
  split at hget
  · next hurl =>
      cases hget
      exact ⟨hurl, response, hmem, hsuccess, rfl⟩
  · exact h.cached url e (IndexMap.get_of_get_retain hget)

variable {display : Error → String} {i : ℕ} {stage stage' : RequestDeduper.Stage Response}
  {deduper' : RequestDeduper Response}

open RequestDeduper (Steps)

theorem deduper_open (s : Store) (key : String) (t : Target) :
    (s.open key t).deduper = s.deduper := by
  rw [Store.open]
  split
  · rfl
  · rfl

/-- What a call that joins a run, or opens a channel, keeps. -/
theorem enter_keeps (hstore : StoreHolds c s) (hr : RequestHolds s r)
    (hjoin : ∀ ch, s.deduper.inflight.get (c.dedupeKey r.target) = some ch →
      s.opened[ch]? = some r.target)
    (hsteps : Steps display i (c.dedupeKey r.target) s.deduper .enter stage deduper' stage')  :
    StoreHolds c { s.open (c.dedupeKey r.target) r.target with deduper := deduper' } ∧
      RequestHolds { s.open (c.dedupeKey r.target) r.target with deduper := deduper' }
        { r with stage := .dedupe stage' } ∧
      Extends s { s.open (c.dedupeKey r.target) r.target with deduper := deduper' } := by
  cases hsteps with
  | join hget =>
      rw [Store.open, if_neg (by rw [hget]; exact Option.some_ne_none _)]
      refine ⟨hstore, ⟨hr.found, nofun, fun ch hch => ?_, nofun⟩, extends_refl s⟩
      cases hch
      exact hjoin _ hget
  | lead hget =>
      have hext : Extends s { s with
          opened := s.opened ++ [r.target]
          deduper := ⟨s.deduper.inflight.insert (c.dedupeKey r.target) s.deduper.channels.length,
            s.deduper.channels ++ [⟨i, [], 2⟩]⟩ } :=
        ⟨fun x hx => hx, fun ch t ht => getElem?_concat_iff.mpr (Or.inr ht)⟩
      rw [Store.open, if_pos hget]
      refine ⟨⟨?_, ?_, ?_⟩, ⟨?_, nofun, fun ch hch => ?_, nofun⟩, hext⟩
      · show (s.opened ++ [r.target]).length = (s.deduper.channels ++ _).length
        rw [List.length_append, List.length_append, hstore.opened]
        rfl
      · intro url e he
        exact ⟨(hstore.cached url e he).1, (hstore.cached url e he).2.extend hext⟩
      · intro ch channel response hch hsent
        rcases getElem?_concat_iff.mp hch with ⟨-, rfl⟩ | hch
        · cases hsent
        · obtain ⟨t', ht', hmem⟩ := hstore.sent ch channel response hch hsent
          exact ⟨t', hext.opened ch t' ht', hmem⟩
      · exact (hr.extend hext).found
      · cases hch
        exact getElem?_concat_iff.mpr (Or.inl ⟨hstore.opened.symm, rfl⟩)

/-- What any other action of the deduper keeps. -/
theorem dedupe_keeps {a : RequestDeduper.Action Response}
    (hsteps : Steps display i (c.dedupeKey r.target) s.deduper a stage deduper' stage')
    (hstore : StoreHolds c s) (hr : RequestHolds s r) (hstage : r.stage = .dedupe stage)
    (ha : a ≠ .enter)
    (hlogged : ∀ response, a = .complete (.ok response) → ⟨r.target, response⟩ ∈ s.received) :
    StoreHolds c { s with deduper := deduper' } ∧
      RequestHolds { s with deduper := deduper' } { r with stage := .dedupe stage' } ∧
      Extends s { s with deduper := deduper' } := by
  have hext : ∀ deduper, Extends s { s with deduper := deduper } :=
    fun _ => ⟨fun _ hx => hx, fun _ _ ht => ht⟩
  have hdropped : ∀ ch n, StoreHolds c { s with deduper := s.deduper.dropSenders ch n } := by
    intro ch n
    refine ⟨?_, hstore.cached, fun ch' channel response hch' hsent => ?_⟩
    · show _ = (s.deduper.channels.modify ch _).length
      rw [List.length_modify]
      exact hstore.opened
    · obtain ⟨channel', hch, heq⟩ := RequestDeduper.sent_of_getElem?_dropSenders hch'
      exact hstore.sent ch' channel' response hch (heq ▸ hsent)
  cases hsteps with
  | join hget => exact absurd rfl ha
  | lead hget => exact absurd rfl ha
  | complete ch result =>
      have hopened := hr.channel ch (by rw [hstage]; rfl)
      refine ⟨⟨?_, hstore.cached, ?_⟩, ⟨hr.found, ?_, nofun, nofun⟩, hext _⟩
      · show _ = (s.deduper.channels.modify ch _).length
        rw [List.length_modify]
        exact hstore.opened
      · intro ch' channel response hch' hsent
        by_cases hne : ch' = ch
        · subst hne
          have hlt : ch' < s.deduper.channels.length := by
            rw [← hstore.opened]
            exact (List.getElem?_eq_some_iff.mp hopened).1
          rw [RequestDeduper.getElem?_send (List.getElem?_eq_getElem hlt)] at hch'
          cases hch'
          rcases List.mem_append.mp hsent with hsent | hsent
          · exact hstore.sent ch' _ response (List.getElem?_eq_getElem hlt) hsent
          · rw [List.mem_singleton] at hsent
            rcases result with e | response'
            · cases hsent
            · cases hsent
              exact ⟨r.target, hopened, hlogged response rfl⟩
        · rw [RequestDeduper.getElem?_send_of_ne hne] at hch'
          exact hstore.sent ch' channel response hch' hsent
      · intro response hresponse
        cases hresponse
        exact hlogged response rfl
  | remove ch result =>
      refine ⟨⟨(hdropped ch 2).opened, hstore.cached, (hdropped ch 2).sent⟩,
        ⟨hr.found, ?_, nofun, nofun⟩, hext _⟩
      intro response hresponse
      exact hr.known response (by rw [hstage]; exact hresponse)
  | @receive ch position received hreceive =>
      refine ⟨hstore, ⟨hr.found, ?_, nofun, nofun⟩, hext _⟩
      intro response hresponse
      rcases received with _ | (message | response')
      · cases hresponse
      · cases hresponse
      · cases hresponse
        obtain ⟨channel, hch, hmem⟩ := RequestDeduper.mem_of_receive hreceive
        obtain ⟨t', ht', hmem'⟩ := hstore.sent ch channel response hch hmem
        rw [hr.channel ch (by rw [hstage]; rfl), Option.some.injEq] at ht'
        exact ht' ▸ hmem'
  | leave hnot hjoined => exact ⟨hstore, ⟨hr.found, nofun, nofun, nofun⟩, hext _⟩
  | abandon hleads => exact ⟨hdropped _ 1, ⟨hr.found, nofun, nofun, nofun⟩, hext _⟩

/-- What the end of a call keeps. -/
theorem finish_keeps (hstore : StoreHolds c s) (hr : RequestHolds s r) (now : ℤ)
    {answer : Except Error Response} (hanswer : r.stage.answer = some answer)
    (hown : ∀ response, answer = .ok response → response.status = 304 →
      ∀ e ∈ r.found, e.storedFor = r.target) :
    StoreHolds c (finish c now s r answer).1 ∧
      RequestHolds (finish c now s r answer).1
        { r with stage := (finish c now s r answer).2 } ∧
      Extends s (finish c now s r answer).1 := by
  rcases answer with e | response
  · exact ⟨hstore, ⟨hr.found, nofun, nofun, nofun⟩, extends_refl s⟩
  · have hmem := hr.known response (known_of_answer hanswer)
    rw [finish]
    by_cases hmodified : response.status = 304
    · rw [if_pos hmodified]
      obtain ⟨target, found, stage⟩ := r
      rcases found with _ | entry
      · exact ⟨hstore, ⟨hr.found, nofun, nofun, nofun⟩, extends_refl s⟩
      · refine ⟨hstore, ⟨hr.found, nofun, nofun, fun data hdata => ?_⟩, extends_refl s⟩
        cases hdata
        have hsourced := (hr.found entry rfl).2
        rw [hown response rfl hmodified entry rfl] at hsourced
        exact hsourced
    · rw [if_neg hmodified]
      by_cases hset : response.isSuccess = true ∧ response.etag ≠ ""
      · rw [if_pos hset]
        have hext : Extends s { s with
            cache := s.cache.set now (c.url r.target)
              ⟨response.etag, response.body, now, r.target⟩ } :=
          ⟨fun _ hx => hx, fun _ _ ht => ht⟩
        exact ⟨hstore.set response.etag hmem hset.1,
          ⟨(hr.extend hext).found, nofun, nofun, nofun⟩, hext⟩
      · rw [if_neg hset]
        exact ⟨hstore, ⟨hr.found, nofun, nofun, nofun⟩, extends_refl s⟩

end Keeps

section Runs

variable {c : Client} {display : Error → String} {moves : List (Move Target Action)}
  {s : Threads Store Request}

/-- A call joins only a run that was started for its own target, and is answered with a `304` only
if what it has found was stored for its own target. -/
def Apart (c : Client) (s : Threads Store Request) : Move Target Action → Prop
  | .act i .enter => ∀ r : Request, s.threads[i]? = some r →
      ∀ ch, s.shared.deduper.inflight.get (c.dedupeKey r.target) = some ch →
        s.shared.opened[ch]? = some r.target
  | .act i (.finish _) => ∀ r : Request, s.threads[i]? = some r →
      ∀ response, r.stage.answer = some (.ok response) → response.status = 304 →
        ∀ e ∈ r.found, e.storedFor = r.target
  | _ => True

theorem step_keeps {i : ℕ} {a : Action} {r r' : Request} {shared : Store}
    (h : Holds (fun shared _ => StoreHolds c shared) (fun shared _ r => RequestHolds shared r) s)
    (happart : Apart c s (.act i a)) (hr : s.threads[i]? = some r)
    (hstep : step c display i a s.shared r = some (shared, r')) :
    StoreHolds c shared ∧ RequestHolds shared r' ∧ Extends s.shared shared := by
  have hstore := h.shared
  have hrequest := h.thread i r hr
  unfold step at hstep
  split at hstep
  · next now hstage =>
      cases hstep
      refine ⟨hstore, ⟨fun e he => found_of_get hstore he, ?_, ?_, ?_⟩, extends_refl _⟩
      · intro response hknown
        dsimp only at hknown
        split at hknown <;> cases hknown
      · intro ch hch
        dsimp only at hch
        split at hch <;> cases hch
      · intro data hdata
        dsimp only at hdata
        split at hdata <;> cases hdata
  · next answers hstage =>
      cases hstep
      have hext := extends_log (s := s.shared) (t := r.target) (result c r.target answers)
      refine ⟨hstore.log _ _, ⟨(hrequest.extend hext).found, ?_, nofun, nofun⟩, hext⟩
      intro response hknown
      rw [Option.some.inj hknown]
      exact mem_log _ _ _
  · next answers stage hstage =>
      obtain ⟨⟨deduper, stage'⟩, hstep', heq⟩ := Option.map_eq_some_iff.mp hstep
      cases heq
      have hext := extends_log (s := s.shared) (t := r.target) (result c r.target answers)
      obtain ⟨hstore', hrequest', hext'⟩ := dedupe_keeps (RequestDeduper.steps_of_step hstep')
        (hstore.log r.target _) (hrequest.extend hext) hstage nofun fun response hresponse => by
          rw [RequestDeduper.Action.complete.inj hresponse]
          exact mem_log _ _ _
      exact ⟨hstore', hrequest', hext.trans hext'⟩
  · next stage hstage =>
      obtain ⟨⟨deduper, stage'⟩, hstep', heq⟩ := Option.map_eq_some_iff.mp hstep
      cases heq
      rw [deduper_open] at hstep'
      exact enter_keeps hstore hrequest (happart r hr) (RequestDeduper.steps_of_step hstep')
  · next stage hstage =>
      obtain ⟨⟨deduper, stage'⟩, hstep', heq⟩ := Option.map_eq_some_iff.mp hstep
      cases heq
      exact dedupe_keeps (RequestDeduper.steps_of_step hstep') hstore hrequest hstage nofun nofun
  · next stage hstage =>
      obtain ⟨⟨deduper, stage'⟩, hstep', heq⟩ := Option.map_eq_some_iff.mp hstep
      cases heq
      exact dedupe_keeps (RequestDeduper.steps_of_step hstep') hstore hrequest hstage nofun nofun
  · next now =>
      obtain ⟨answer, hanswer, heq⟩ := Option.map_eq_some_iff.mp hstep
      cases heq
      exact finish_keeps hstore hrequest now hanswer fun response hresponse =>
        happart r hr response (hresponse ▸ hanswer)
  · next stage hstage =>
      obtain ⟨⟨deduper, stage'⟩, hstep', heq⟩ := Option.map_eq_some_iff.mp hstep
      cases heq
      exact dedupe_keeps (RequestDeduper.steps_of_step hstep') hstore hrequest hstage nofun nofun
  · next hstage =>
      cases hstep
      exact ⟨hstore, ⟨hrequest.found, nofun, nofun, nofun⟩, extends_refl _⟩
  · next hstage =>
      cases hstep
      exact ⟨hstore, ⟨hrequest.found, nofun, nofun, nofun⟩, extends_refl _⟩
  · next hstage =>
      cases hstep
      exact ⟨hstore, ⟨hrequest.found, nofun, nofun, nofun⟩, extends_refl _⟩
  · cases hstep

theorem holds_of_apart (hrun : (gets c display).machine.run moves = some s)
    (happart : (gets c display).machine.Throughout (Apart c) moves) :
    Holds (fun shared _ => StoreHolds c shared) (fun shared _ r => RequestHolds shared r) s := by
  refine holds_of_throughout ?_ ?_ ?_ hrun happart
  · exact ⟨rfl, nofun, nofun⟩
  · exact fun shared n t h => ⟨h, nofun, nofun, nofun, nofun⟩
  · intro s i a r shared r' h hcond hr hstep
    obtain ⟨hstore, hrequest, hext⟩ := step_keeps h hcond hr hstep
    exact ⟨hstore, hrequest, fun _ _ _ _ hu => hu.extend hext⟩

end Runs

/-- Every call that has returned cached data returned the body of a good response to a call for its
own path and query. -/
def OwnData (s : Threads Store Request) : Prop :=
  ∀ (i : ℕ) (r : Request) (data : Bytes), s.threads[i]? = some r →
    r.stage = .returned (.ok data) true → Sourced s.shared r.target data

/-- **Cached data belongs to the request that gets it**, as long as no call joins a run of another
target, and no `304` answers a call whose entry was stored for another target. -/
theorem ownData_of_apart (c : Client) (display : Error → String)
    (moves : List (Move Target Action)) (s : Threads Store Request)
    (hrun : (gets c display).machine.run moves = some s)
    (happart : (gets c display).machine.Throughout (Apart c) moves) : OwnData s :=
  fun i r data hr hdata => ((holds_of_apart hrun happart).thread i r hr).cached data hdata

/-- A client without a deduper. -/
def petsClient : Client := ⟨"http://localhost", false, ⟨2, [503]⟩, 1000⟩

def page (n : String) : Target := ⟨"/pets", [("page", n)]⟩

/-- A page is asked for and stored, and then a page, perhaps another, is asked for and has not been
modified. -/
def twoPages (n n' : String) : List (Move Target Action) :=
  [.spawn (page n), .act 0 (.lookup 0),
    .act 0 (.complete fun _ => .response ⟨200, "v1", [1]⟩), .act 0 (.finish 0),
    .spawn (page n'), .act 1 (.lookup 1),
    .act 1 (.complete fun _ => .response ⟨304, "v1", []⟩), .act 1 (.finish 1)]

theorem other_page_returned : ¬∀ (c : Client) (display : Error → String)
    (moves : List (Move Target Action)) (s : Threads Store Request),
      (gets c display).machine.run moves = some s → OwnData s := by
  intro h
  obtain ⟨s, hs, hr, hreceived⟩ : ∃ s, (gets petsClient fun _ => "").machine.run
      (twoPages "1" "2") = some s ∧
      s.threads[1]?.map (fun r => (r.target, r.stage)) =
        some (page "2", .returned (.ok [1]) true) ∧
      s.shared.received = [⟨page "1", ⟨200, "v1", [1]⟩⟩, ⟨page "2", ⟨304, "v1", []⟩⟩] :=
    ⟨_, rfl, rfl, rfl⟩
  obtain ⟨r, hthread, heq⟩ := Option.map_eq_some_iff.mp hr
  obtain ⟨htarget, hstage⟩ := Prod.ext_iff.mp heq
  obtain ⟨response, hmem, hsuccess, hbody⟩ := h _ _ _ s hs 1 r [1] hthread hstage
  rw [hreceived, show r.target = page "2" from htarget] at hmem
  simp [page] at hmem
  rw [hmem] at hbody
  cases hbody

theorem ownData_of_apart_same : ∃ s, (gets petsClient fun _ => "").machine.run
    (twoPages "1" "1") = some s ∧ OwnData s := by
  obtain ⟨s, hs⟩ : ∃ s, (gets petsClient fun _ => "").machine.run (twoPages "1" "1") = some s :=
    ⟨_, rfl⟩
  refine ⟨s, hs, ownData_of_apart _ _ _ s hs ?_⟩
  have hskip : ∀ {M : Machine (Threads Store Request) (Move Target Action)} {m rest},
      Apart petsClient M.init m →
        (∀ s, M.step M.init m = some s → (Machine.mk s M.step).Throughout (Apart petsClient) rest) →
          M.Throughout (Apart petsClient) (m :: rest) :=
    fun hfirst hrest => Machine.throughout_cons.mpr ⟨hfirst, hrest⟩
  refine hskip trivial fun s hs => hskip trivial fun s' hs' => hskip trivial fun s'' hs'' => ?_
  cases hs
  cases hs'
  cases hs''
  refine hskip ?_ fun s hs => hskip trivial fun s' hs' => hskip trivial fun s'' hs'' =>
    hskip trivial fun s₃ hs₃ => ?_
  · intro r hr response hresponse hmodified
    cases hr
    cases hresponse
    cases hmodified
  · cases hs
    cases hs'
    cases hs''
    cases hs₃
    refine hskip ?_ fun s _ => Machine.throughout_nil _
    intro r hr response hresponse hmodified e he
    cases hr
    cases he
    rfl

end Get

end SpecForge.Rust
