import SpecForge.Go.Client
import SpecForge.Lib.Threads

/-!
# Concurrent calls of the Go client

Calls of `DoJSON` on one client share its headers, its cache and its deduper. A call that finds
an entry in the cache puts its `ETag` into the headers of the client, makes its attempts or waits
for the run of another call, and takes the header out again (§1). What a single step can do is
said in §2, and §3 is about the runs: whoever makes attempts for a key is the leader of the run
that is in flight for it.

A step is what happens under one lock, or between two reads or writes of the headers. A call
starts here when it has passed the gate and the limiter.
-/

namespace SpecForge.Go

open Lib Lib.Program

/-! ## §1  Calls -/

/-- Was a request ended by the context of the caller? An attempt that has exceeded its own time
limit was not, also where the response was being read. -/
def GoError.ofContext : GoError → Option ContextError
  | .context e => some e
  | .url (.context e) _ => some e
  | _ => none

def Answer.ofContext : Answer → Option ContextError
  | .refused err => err.ofContext
  | .failed err => err.ofContext
  | .response _ => none

namespace Calls

abbrev Result := Except GoError (Option Response)

/-- The `If-None-Match` in the headers of the client. On record is the call that has set it, if
it was one. -/
structure Staged where
  setBy : Option ℕ
  etag : String

/-- A request that was sent. -/
structure Dispatch where
  caller : ℕ
  ifNoneMatch : Option String

/-- `dedupeCall`. On record are the call that leads the run, the entry that it has found, and
whether its context had ended when the run was done. -/
structure Run where
  leader : ℕ
  found : Option CacheEntry
  result : Option Result
  leaderEnded : Option ContextError

structure RequestDeduper where
  inflight : IndexMap Bytes ℕ
  runs : List Run

structure Shared where
  header : Option Staged
  cache : Option ResponseCache
  deduper : RequestDeduper
  dispatched : List Dispatch

/-- Where a call is. Attempts are made for a run, or for the call alone. -/
inductive Stage where
  | lookup
  | evicting
  | staging (etag : String)
  | entering
  | attempt (run : Option ℕ) (n : ℕ)
  /-- The headers of the request are built. -/
  | built (run : Option ℕ) (n : ℕ) (ifNoneMatch : Option String)
  | sent (run : Option ℕ) (n : ℕ) (ifNoneMatch : Option String)
  | removing (run : ℕ) (result : Result)
  | waiting (run : ℕ)
  /-- The result is that of the call's own attempts, or of another's. -/
  | cleanup (own : Bool) (result : Result)
  | finishing (own : Bool) (result : Result)
  | returned (result : Result) (ret : Returned)

structure Request where
  method : String
  url : Bytes
  out : Target

structure Caller where
  request : Request
  ended : Option ContextError
  found : Option CacheEntry
  stage : Stage

inductive Action where
  | lookup (now : ℤ)
  | evict
  | set
  | enter
  | build
  | send
  /-- An attempt is done, or the headers could not be built. -/
  | answer (a : Answer)
  /-- The context has ended a wait before another attempt. -/
  | interrupt
  | remove
  | wake
  | del
  | finish (now : ℤ)
  | cancel (e : ContextError)

def Request.key (r : Request) : Bytes := bytes r.method ++ bytes " " ++ r.url

/-- `c.Cache.Get`, for a `GET`. -/
def Shared.find (s : Shared) (now : ℤ) (r : Request) : Option CacheEntry :=
  if isGet r.method then s.cache.bind fun cache => cache.find now r.url else none

/-- Without an entry that is fresh: is there one that has expired? -/
def Shared.expired (s : Shared) (r : Request) : Bool :=
  isGet r.method && s.cache.any fun cache => (cache.entries.get r.url).isSome

def Shared.lookup (s : Shared) (now : ℤ) (t : Caller) : Caller :=
  match s.find now t.request with
  | some e => { t with found := some e, stage := .staging e.etag }
  | none => { t with stage := if s.expired t.request then .evicting else .entering }

/-- A new run, led by a call. -/
def RequestDeduper.open (d : RequestDeduper) (key : Bytes) (i : ℕ) (found : Option CacheEntry) :
    RequestDeduper :=
  ⟨d.inflight.insert key d.runs.length, d.runs ++ [⟨i, found, none, none⟩]⟩

/-- The result of a run. -/
def RequestDeduper.publish (d : RequestDeduper) (r : ℕ) (result : Result)
    (ended : Option ContextError) : RequestDeduper :=
  { d with
    runs := d.runs.modify r fun run =>
      { run with result := some result, leaderEnded := ended } }

def RequestDeduper.delete (d : RequestDeduper) (key : Bytes) : RequestDeduper :=
  { d with inflight := d.inflight.erase key }

def Shared.evict (s : Shared) (u : Bytes) : Shared :=
  { s with cache := s.cache.map fun cache => { cache with entries := cache.entries.erase u } }

/-- `Do`, up to the run. -/
def Shared.enter (s : Shared) (c : Client) (i : ℕ) (t : Caller) : Shared × Stage :=
  if c.dedupe && isDedupeMethod t.request.method then
    match s.deduper.inflight.get t.request.key with
    | some r => (s, .waiting r)
    | none =>
        ({ s with deduper := s.deduper.open t.request.key i t.found },
          .attempt (some s.deduper.runs.length) 0)
  else (s, .attempt none 0)

/-- The end of `doWithRetry`. A run wakes those who wait for it. -/
def Shared.settled (s : Shared) (t : Caller) (result : Result) : Option ℕ → Shared × Stage
  | some r => ({ s with deduper := s.deduper.publish r result t.ended }, .removing r result)
  | none => (s, .cleanup true result)

/-- What comes of an attempt. -/
def Shared.attempted (s : Shared) (retry : RetryOptions) (t : Caller) (run : Option ℕ) (n : ℕ)
    (a : Answer) : Shared × Stage :=
  match settle retry t.request.method t.request.url n a with
  | some result => s.settled t (result.map some) run
  | none => (s, .attempt run (n + 1))

/-- A response to a call's own attempts may be stored. -/
def Shared.remember (s : Shared) (now : ℤ) (own : Bool) (r : Request) (result : Result) : Shared :=
  if own && isGet r.method then
    { s with cache := s.cache.map fun cache => cache.remember now r.url result }
  else s

/-- An attempt fails with the error of a context only if the context of the caller has ended. -/
def Caller.mayGet (t : Caller) (a : Answer) : Bool :=
  match a.ofContext with
  | none => true
  | some e => t.ended == some e

def Caller.moved (t : Caller) (e : Shared × Stage) : Shared × Caller :=
  (e.1, { t with stage := e.2 })

def step (c : Client) (i : ℕ) (a : Action) (s : Shared) (t : Caller) : Option (Shared × Caller) :=
  match a, t.stage with
  | .lookup now, .lookup => some (s, s.lookup now t)
  | .evict, .evicting => some (t.moved (s.evict t.request.url, .entering))
  | .set, .staging etag => some (t.moved ({ s with header := some ⟨some i, etag⟩ }, .entering))
  | .enter, .entering => some (t.moved (s.enter c i t))
  | .build, .attempt run n =>
      if (n : ℤ) ≤ c.retry.effective.maxRetries then
        some (t.moved (s, .built run n (s.header.map Staged.etag)))
      else some (t.moved (s.settled t (.ok none) run))
  | .interrupt, .attempt run n =>
      match t.ended with
      | some e =>
          if 0 < n then some (t.moved (s.settled t (.error (.context e)) run)) else none
      | none => none
  | .send, .built run n ifNoneMatch =>
      some (t.moved ({ s with dispatched := s.dispatched ++ [⟨i, ifNoneMatch⟩] },
        .sent run n ifNoneMatch))
  | .answer a, .built run n _ =>
      if !a.isDispatched && t.mayGet a then
        some (t.moved (s.attempted c.retry.effective t run n a))
      else none
  | .answer a, .sent run n _ =>
      if a.isDispatched && t.mayGet a then
        some (t.moved (s.attempted c.retry.effective t run n a))
      else none
  | .remove, .removing _ result =>
      some (t.moved ({ s with deduper := s.deduper.delete t.request.key },
        .cleanup true result))
  | .wake, .waiting r =>
      (s.deduper.runs[r]?.bind Run.result).map fun result => t.moved (s, .cleanup false result)
  | .del, .cleanup own result =>
      some (t.moved (if t.found.isSome then { s with header := none } else s, .finishing own result))
  | .finish now, .finishing own result =>
      some (t.moved (s.remember now own t.request result,
        .returned result (finish t.found t.request.out result)))
  | .cancel e, _ => if t.ended = none then some (s, { t with ended := some e }) else none
  | _, _ => none

/-- All calls on one client; its headers may have an `If-None-Match` of their own. -/
def calls (c : Client) (header : Option String) : Program Shared Caller Request Action where
  init := ⟨header.map fun etag => ⟨none, etag⟩, c.cache, ⟨.empty, []⟩, []⟩
  start r := ⟨r, none, none, .lookup⟩
  step := step c

/-! ## §2  Steps -/

/-- The run that a call makes attempts for, or none, if they are for the call alone. -/
def Stage.sending : Stage → Option (Option ℕ)
  | .attempt run _ => some run
  | .built run _ _ => some run
  | .sent run _ _ => some run
  | _ => none

/-- The `If-None-Match` of a request that is about to be sent, or is under way. -/
def Stage.carries : Stage → Option String
  | .built _ _ ifNoneMatch => ifNoneMatch
  | .sent _ _ ifNoneMatch => ifNoneMatch
  | _ => none

/-- What a call has come to. -/
def Stage.result : Stage → Option Result
  | .removing _ result => some result
  | .cleanup _ result => some result
  | .finishing _ result => some result
  | .returned result _ => some result
  | _ => none

/-- Why a call may come to a result in a stage. -/
inductive Yields (t : Caller) : Action → Result → Prop where
  /-- Not one attempt is allowed. -/
  | noneMade : Yields t .build (.ok none)
  | interrupted {e : ContextError} : t.ended = some e →
      Yields t .interrupt (.error (.context e))
  | failed {a : Answer} {err : GoError} : (∀ e, err.ofContext = some e → t.ended = some e) →
      Yields t (.answer a) (.error err)
  | answered {r : Response} {run : Option ℕ} {n : ℕ} {ifNoneMatch : Option String} :
      t.stage = .sent run n ifNoneMatch → Yields t (.answer (.response r)) (.ok (some r))

section Steps

variable {c : Client} {i : ℕ} {s s' : Shared} {t t' : Caller}

/-- What a step does. -/
inductive Steps (c : Client) (i : ℕ) (s : Shared) (t : Caller) :
    Action → Shared → Caller → Prop where
  | hit {now : ℤ} {e : CacheEntry} : t.stage = .lookup → s.find now t.request = some e →
      Steps c i s t (.lookup now) s { t with found := some e, stage := .staging e.etag }
  | miss {now : ℤ} {stage : Stage} : t.stage = .lookup → stage = .entering ∨ stage = .evicting →
      Steps c i s t (.lookup now) s { t with stage := stage }
  | evict : t.stage = .evicting →
      Steps c i s t .evict (s.evict t.request.url) { t with stage := .entering }
  | set {etag : String} : t.stage = .staging etag →
      Steps c i s t .set { s with header := some ⟨some i, etag⟩ } { t with stage := .entering }
  | join {r : ℕ} : t.stage = .entering → s.deduper.inflight.get t.request.key = some r →
      Steps c i s t .enter s { t with stage := .waiting r }
  | lead : t.stage = .entering → s.deduper.inflight.get t.request.key = none →
      Steps c i s t .enter { s with deduper := s.deduper.open t.request.key i t.found }
        { t with stage := .attempt (some s.deduper.runs.length) 0 }
  | alone : t.stage = .entering → (c.dedupe && isDedupeMethod t.request.method) = false →
      Steps c i s t .enter s { t with stage := .attempt none 0 }
  | build {run : Option ℕ} {n : ℕ} : t.stage = .attempt run n →
      Steps c i s t .build s { t with stage := .built run n (s.header.map Staged.etag) }
  | send {run : Option ℕ} {n : ℕ} {ifNoneMatch : Option String} :
      t.stage = .built run n ifNoneMatch →
      Steps c i s t .send { s with dispatched := s.dispatched ++ [⟨i, ifNoneMatch⟩] }
        { t with stage := .sent run n ifNoneMatch }
  | retry {a : Answer} {run : Option ℕ} {n : ℕ} : t.stage.sending = some run →
      Steps c i s t (.answer a) s { t with stage := .attempt run (n + 1) }
  | finishRun {a : Action} {r : ℕ} {result : Result} : t.stage.sending = some (some r) →
      Yields t a result →
      Steps c i s t a { s with deduper := s.deduper.publish r result t.ended }
        { t with stage := .removing r result }
  | finishAlone {a : Action} {result : Result} : t.stage.sending = some none → Yields t a result →
      Steps c i s t a s { t with stage := .cleanup true result }
  | remove {r : ℕ} {result : Result} : t.stage = .removing r result →
      Steps c i s t .remove { s with deduper := s.deduper.delete t.request.key }
        { t with stage := .cleanup true result }
  | wake {r : ℕ} {run : Run} {result : Result} : t.stage = .waiting r →
      s.deduper.runs[r]? = some run → run.result = some result → Steps c i s t .wake s { t with stage := .cleanup false result }
  | del {own : Bool} {result : Result} {header : Option Staged} : t.stage = .cleanup own result →
      header = none ∨ header = s.header →
      Steps c i s t .del { s with header := header } { t with stage := .finishing own result }
  | finish {now : ℤ} {own : Bool} {result : Result} : t.stage = .finishing own result →
      Steps c i s t (.finish now) (s.remember now own t.request result)
        { t with stage := .returned result (finish t.found t.request.out result) }
  | cancel {e : ContextError} : Steps c i s t (.cancel e) s { t with ended := some e }

/-- The end of `doWithRetry`, in both ways. -/
theorem steps_of_settled {a : Action} {run : Option ℕ} {result : Result}
    (hsending : t.stage.sending = some run) (hcause : Yields t a result) :
    Steps c i s t a (t.moved (s.settled t result run)).1 (t.moved (s.settled t result run)).2 := by
  cases run with
  | none => exact .finishAlone hsending hcause
  | some r => exact .finishRun hsending hcause

theorem mayGet_iff {a : Answer} :
    t.mayGet a = true ↔ ∀ e, a.ofContext = some e → t.ended = some e := by
  rw [Caller.mayGet]
  rcases a.ofContext with _ | e
  · simp
  · simp

/-- An attempt that is done, in a stage where a response has been waited for, if there is one. -/
theorem steps_of_attempted {a : Answer} {run : Option ℕ} {n : ℕ}
    (hsending : t.stage.sending = some run) (hmay : t.mayGet a = true)
    (hsent : ∀ r, a = .response r → ∃ n' ifNoneMatch, t.stage = .sent run n' ifNoneMatch) :
    Steps c i s t (.answer a) (t.moved (s.attempted c.retry.effective t run n a)).1
      (t.moved (s.attempted c.retry.effective t run n a)).2 := by
  rw [Shared.attempted]
  rcases hsettle : settle c.retry.effective t.request.method t.request.url n a with _ | result
  · exact .retry hsending
  · refine steps_of_settled hsending ?_
    rcases result with err | r
    · refine .failed fun e he => mayGet_iff.mp hmay e ?_
      rw [settle] at hsettle
      split at hsettle
      · cases hsettle
      · next err' hdo =>
          split at hsettle
          · cases hsettle
            rcases a with err' | err' | r
            · cases hdo
              exact he
            · cases hdo
              exact he
            · rw [doOnce] at hdo
              split at hdo
              · cases hdo
              · cases hdo
                cases he
          · cases hsettle
    · obtain ⟨rfl, -⟩ := doOnce_eq_ok_iff.mp (settle_eq_ok_iff.mp hsettle)
      obtain ⟨n', ifNoneMatch, hstage⟩ := hsent r rfl
      exact .answered hstage

theorem steps_of_step {a : Action} (h : step c i a s t = some (s', t')) :
    Steps c i s t a s' t' := by
  unfold step at h
  split at h
  · next now hstage =>
      cases h
      rw [Shared.lookup]
      rcases hfind : s.find now t.request with _ | e
      · refine .miss hstage ?_
        split
        · exact Or.inr rfl
        · exact Or.inl rfl
      · exact .hit hstage hfind
  · next hstage =>
      cases h
      exact .evict hstage
  · next etag hstage =>
      cases h
      exact .set hstage
  · next hstage =>
      obtain rfl : (s.enter c i t).1 = s' := congrArg Prod.fst (Option.some.inj h)
      obtain rfl : { t with stage := (s.enter c i t).2 } = t' :=
        congrArg Prod.snd (Option.some.inj h)
      rw [Shared.enter]
      split
      · rcases hget : s.deduper.inflight.get t.request.key with _ | r
        · exact .lead hstage hget
        · exact .join hstage hget
      · next hdedupe => exact .alone hstage (Bool.not_eq_true _ ▸ hdedupe)
  · next run n hstage =>
      split at h
      · cases h
        exact .build hstage
      · cases h
        exact steps_of_settled (by rw [hstage]; rfl) .noneMade
  · next run n hstage =>
      split at h
      · next e hended =>
          split at h
          · cases h
            exact steps_of_settled (by rw [hstage]; rfl) (.interrupted hended)
          · cases h
      · cases h
  · next run n ifNoneMatch hstage =>
      cases h
      exact .send hstage
  · next a run n ifNoneMatch hstage =>
      split at h
      · next hmay =>
          cases h
          obtain ⟨hdispatched, hmay⟩ := Bool.and_eq_true_iff.mp hmay
          refine steps_of_attempted (by rw [hstage]; rfl) hmay ?_
          rintro r rfl
          cases hdispatched
      · cases h
  · next a run n ifNoneMatch hstage =>
      split at h
      · next hmay =>
          cases h
          exact steps_of_attempted (by rw [hstage]; rfl) (Bool.and_eq_true_iff.mp hmay).2
            fun r _ => ⟨n, ifNoneMatch, hstage⟩
      · cases h
  · next r result hstage =>
      cases h
      exact .remove hstage
  · next r hstage =>
      obtain ⟨result, hresult, heq⟩ := Option.map_eq_some_iff.mp h
      obtain ⟨run, hrun, hresult⟩ := Option.bind_eq_some_iff.mp hresult
      cases heq
      exact .wake hstage hrun hresult
  · next own result hstage =>
      cases h
      split
      · exact .del hstage (Or.inl rfl)
      · exact .del hstage (Or.inr rfl)
  · next now own result hstage =>
      cases h
      exact .finish hstage
  · next e =>
      split at h
      · cases h
        exact .cancel
      · cases h
  · cases h

end Steps

/-! ## §3  Runs and their leaders -/

/-- The run that a call leads: its attempts are made, or its key is about to be deleted. -/
def Stage.leads : Stage → Option ℕ
  | .attempt run _ => run
  | .built run _ _ => run
  | .sent run _ _ => run
  | .removing r _ => some r
  | _ => none

theorem Stage.leads_of_sending {stage : Stage} {run : Option ℕ} (h : stage.sending = some run) :
    stage.leads = run := by
  cases stage with
  | attempt run' n => exact Option.some.inj h
  | built run' n ifNoneMatch => exact Option.some.inj h
  | sent run' n ifNoneMatch => exact Option.some.inj h
  | lookup => cases h
  | evicting => cases h
  | staging etag => cases h
  | entering => cases h
  | removing r result => cases h
  | waiting r => cases h
  | cleanup own result => cases h
  | finishing own result => cases h
  | returned result ret => cases h

/-- A leader's run is in flight for its key. Attempts for a call alone are those of a call that
is not deduplicated. -/
structure Placed (c : Client) (d : RequestDeduper) (i : ℕ) (t : Caller) : Prop where
  leads : ∀ r, t.stage.leads = some r → d.inflight.get t.request.key = some r ∧
    ∃ run, d.runs[r]? = some run ∧ run.leader = i ∧ run.found = t.found
  alone : t.stage.sending = some none →
    (c.dedupe && isDedupeMethod t.request.method) = false

structure DeduperHolds (d : RequestDeduper) : Prop where
  lt : ∀ key r, d.inflight.get key = some r → r < d.runs.length

/-- The runs are still there, with the same leaders. -/
def Continues (d d' : RequestDeduper) : Prop :=
  ∀ (r : ℕ) (run : Run), d.runs[r]? = some run →
    ∃ run', d'.runs[r]? = some run' ∧ run'.leader = run.leader ∧ run'.found = run.found

section Keeps

variable {c : Client} {i : ℕ} {d d' : RequestDeduper} {s s' : Shared} {t t' : Caller}

theorem continues_refl (d : RequestDeduper) : Continues d d :=
  fun _ run hrun => ⟨run, hrun, rfl, rfl⟩

theorem continues_open (d : RequestDeduper) (key : Bytes) (i : ℕ) (found : Option CacheEntry) :
    Continues d (d.open key i found) :=
  fun _ run hrun => ⟨run, getElem?_concat_iff.mpr (Or.inr hrun), rfl, rfl⟩

theorem getElem?_publish {r : ℕ} {run : Run} (hrun : d.runs[r]? = some run) (result : Result)
    (ended : Option ContextError) :
    (d.publish r result ended).runs[r]? =
      some { run with result := some result, leaderEnded := ended } := by
  show (d.runs.modify r _)[r]? = _
  rw [List.getElem?_modify_eq, hrun]
  rfl

theorem getElem?_publish_of_ne {r r' : ℕ} (h : r' ≠ r) (result : Result)
    (ended : Option ContextError) : (d.publish r result ended).runs[r']? = d.runs[r']? :=
  List.getElem?_modify_ne _ _ (Ne.symm h)

theorem continues_publish (d : RequestDeduper) (r : ℕ) (result : Result)
    (ended : Option ContextError) : Continues d (d.publish r result ended) := by
  intro r' run hrun
  by_cases hr : r' = r
  · subst hr
    exact ⟨_, getElem?_publish hrun result ended, rfl, rfl⟩
  · exact ⟨run, (getElem?_publish_of_ne hr result ended).trans hrun, rfl, rfl⟩

/-- What is known of the run of a call outlasts a step that leaves the key of a leader in the
map. -/
theorem Placed.continue (h : Placed c d i t) (hruns : Continues d d')
    (hget : ∀ r, d.inflight.get t.request.key = some r → t.stage.leads = some r →
      d'.inflight.get t.request.key = some r) : Placed c d' i t := by
  refine ⟨fun r hr => ?_, h.alone⟩
  obtain ⟨hkey, run, hrun, hleader, hfound⟩ := h.leads r hr
  obtain ⟨run', hrun', hleader', hfound'⟩ := hruns r run hrun
  exact ⟨hget r hkey hr, run', hrun', hleader'.trans hleader, hfound'.trans hfound⟩

/-- A call that neither leads a run nor makes attempts. -/
theorem placed_of_idle (hleads : t.stage.leads = none) (hsending : t.stage.sending = none) :
    Placed c d i t := by
  constructor
  · intro r hr
    rw [hleads] at hr
    cases hr
  · intro h
    rw [hsending] at h
    cases h

/-- A call that goes on with its attempts. -/
theorem Placed.go_on (h : Placed c d i t) {stage : Stage}
    (hleads : stage.leads = t.stage.leads) (hsending : stage.sending = t.stage.sending) :
    Placed c d i { t with stage := stage } :=
  ⟨fun r hr => h.leads r (hleads ▸ hr), fun hnone => h.alone (hsending ▸ hnone)⟩

theorem DeduperHolds.publish (h : DeduperHolds d) (r : ℕ) (result : Result)
    (ended : Option ContextError) : DeduperHolds (d.publish r result ended) := by
  constructor
  intro key r' hr'
  show r' < (d.runs.modify r _).length
  rw [List.length_modify]
  exact h.lt key r' hr'

theorem remember_deduper (s : Shared) (now : ℤ) (own : Bool) (r : Request) (result : Result) :
    (s.remember now own r result).deduper = s.deduper := by
  rw [Shared.remember]
  split
  · rfl
  · rfl

theorem remember_header (s : Shared) (now : ℤ) (own : Bool) (r : Request) (result : Result) :
    (s.remember now own r result).header = s.header := by
  rw [Shared.remember]
  split
  · rfl
  · rfl

theorem remember_dispatched (s : Shared) (now : ℤ) (own : Bool) (r : Request) (result : Result) :
    (s.remember now own r result).dispatched = s.dispatched := by
  rw [Shared.remember]
  split
  · rfl
  · rfl

/-- What a step may change, of what is shared and of the call that takes it. -/
structure Changes (i : ℕ) (s : Shared) (t : Caller) (a : Action) (s' : Shared) (t' : Caller) :
    Prop where
  header : s'.header = none ∨ s'.header = s.header ∨ ∃ etag, s'.header = some ⟨some i, etag⟩
  dispatched : ∀ d ∈ s'.dispatched, d ∈ s.dispatched ∨ d.caller = i
  /-- A run that is done was done before, or its leader has come to the result. -/
  runs : ∀ (r : ℕ) (run : Run) (result : Result), s'.deduper.runs[r]? = some run →
    run.result = some result → s.deduper.runs[r]? = some run ∨
      t.stage.sending = some (some r) ∧ run.leaderEnded = t.ended ∧ Yields t a result ∧
        ∃ before, s.deduper.runs[r]? = some before ∧ before.found = run.found
  request : t'.request = t.request
  found : t'.found = t.found ∨
    ∃ now e, a = .lookup now ∧ s.find now t.request = some e ∧ t'.found = some e

theorem changes_of_steps {a : Action} (hsteps : Steps c i s t a s' t') :
    Changes i s t a s' t' := by
  -- a step that changes no more than the stage
  have hquiet : ∀ stage, Changes i s t a s { t with stage := stage } := fun stage =>
    ⟨Or.inr (Or.inl rfl), fun _ => Or.inl, fun _ _ _ hrun _ => Or.inl hrun, rfl, Or.inl rfl⟩
  cases hsteps with
  | @hit now e hstage hfind =>
      exact { hquiet t.stage with found := Or.inr ⟨now, e, rfl, hfind, rfl⟩ }
  | miss hstage hor => exact hquiet _
  | evict hstage => exact { hquiet .entering with }
  | set hstage => exact { hquiet .entering with header := Or.inr (Or.inr ⟨_, rfl⟩) }
  | join hstage hget => exact hquiet _
  | lead hstage hget =>
      refine { hquiet .entering with runs := fun r run result hrun hresult => ?_ }
      rcases getElem?_concat_iff.mp hrun with ⟨-, rfl⟩ | hrun
      · cases hresult
      · exact Or.inl hrun
  | alone hstage hdedupe => exact hquiet _
  | build hstage => exact hquiet _
  | send hstage =>
      refine { hquiet .entering with dispatched := fun d hd => ?_ }
      rcases List.mem_append.mp hd with hd | hd
      · exact Or.inl hd
      · rw [List.mem_singleton] at hd
        exact Or.inr (hd ▸ rfl)
  | retry hsending => exact hquiet _
  | @finishRun a r result hsending hyields =>
      refine { hquiet .entering with runs := fun r' run result' hrun hresult => ?_ }
      by_cases hr : r' = r
      · subst hr
        rcases hbefore : s.deduper.runs[r']? with _ | before
        · have hafter : (s.deduper.runs.modify r' _)[r']? = some run := hrun
          rw [List.getElem?_modify_eq, hbefore] at hafter
          cases hafter
        · rw [getElem?_publish hbefore] at hrun
          cases hrun
          cases hresult
          exact Or.inr ⟨hsending, rfl, hyields, before, rfl, rfl⟩
      · exact Or.inl ((getElem?_publish_of_ne hr _ _).symm.trans hrun)
  | finishAlone hsending hyields => exact hquiet _
  | remove hstage => exact { hquiet .entering with }
  | wake hstage hrun hresult => exact hquiet _
  | del hstage hheader => exact { hquiet .entering with header := hheader.imp_right Or.inl }
  | finish hstage =>
      refine ⟨Or.inr (Or.inl (remember_header _ _ _ _ _)), fun d hd => Or.inl ?_,
        fun r run result hrun _ => Or.inl ?_, rfl, Or.inl rfl⟩
      · rwa [remember_dispatched] at hd
      · rwa [remember_deduper] at hrun
  | cancel => exact { hquiet t.stage with }

/-- What a step keeps, of the deduper, of the call that takes it and of the others. -/
theorem steps_keeps {a : Action} (hsteps : Steps c i s t a s' t')
    (hshared : DeduperHolds s.deduper) (hplaced : Placed c s.deduper i t) :
    DeduperHolds s'.deduper ∧ Placed c s'.deduper i t' ∧ Continues s.deduper s'.deduper ∧
      ∀ j u, j ≠ i → Placed c s.deduper j u → Placed c s'.deduper j u := by
  have hquiet : ∀ {t' : Caller}, Placed c s.deduper i t' →
      DeduperHolds s.deduper ∧ Placed c s.deduper i t' ∧ Continues s.deduper s.deduper ∧
        ∀ j u, j ≠ i → Placed c s.deduper j u → Placed c s.deduper j u :=
    fun hown => ⟨hshared, hown, continues_refl _, fun _ _ _ hu => hu⟩
  cases hsteps with
  | hit hstage hfind => exact hquiet (placed_of_idle rfl rfl)
  | miss hstage hor =>
      rcases hor with rfl | rfl
      · exact hquiet (placed_of_idle rfl rfl)
      · exact hquiet (placed_of_idle rfl rfl)
  | evict hstage => exact hquiet (placed_of_idle rfl rfl)
  | set hstage => exact hquiet (placed_of_idle rfl rfl)
  | join hstage hget => exact hquiet (placed_of_idle rfl rfl)
  | lead hstage hget =>
      have hruns := continues_open s.deduper t.request.key i t.found
      refine ⟨⟨?_⟩, ⟨?_, fun hnone => by cases hnone⟩, hruns, ?_⟩
      · intro key r hr
        show r < (s.deduper.runs ++ [_]).length
        rw [List.length_append, List.length_singleton]
        rw [RequestDeduper.open, IndexMap.get_insert] at hr
        split at hr
        · cases hr
          exact Nat.lt_succ_self _
        · exact Nat.lt_succ_of_lt (hshared.lt key r hr)
      · intro r hr
        cases hr
        exact ⟨IndexMap.get_insert_self _ _ _, _, List.getElem?_concat_length, rfl, rfl⟩
      · intro j u _ hu
        refine hu.continue hruns fun r hr _ => ?_
        rw [RequestDeduper.open, IndexMap.get_insert, if_neg, hr]
        intro hkey
        rw [hkey, hget] at hr
        cases hr
  | alone hstage hdedupe => exact hquiet ⟨fun r hr => (by cases hr), fun _ => hdedupe⟩
  | build hstage => exact hquiet (hplaced.go_on (by rw [hstage]; rfl) (by rw [hstage]; rfl))
  | send hstage => exact hquiet (hplaced.go_on (by rw [hstage]; rfl) (by rw [hstage]; rfl))
  | retry hsending =>
      exact hquiet (hplaced.go_on (Stage.leads_of_sending hsending).symm hsending.symm)
  | @finishRun a r result hsending hyields =>
      have hruns := continues_publish s.deduper r result t.ended
      refine ⟨hshared.publish r result t.ended, ⟨?_, fun hnone => by cases hnone⟩, hruns, ?_⟩
      · intro r' hr'
        cases hr'
        obtain ⟨hget, run, hrun, hleader, hfound⟩ :=
          hplaced.leads r (Stage.leads_of_sending hsending)
        exact ⟨hget, _, getElem?_publish hrun result t.ended, hleader, hfound⟩
      · exact fun j u _ hu => hu.continue hruns fun r' hr' _ => hr'
  | finishAlone hsending hyields => exact hquiet (placed_of_idle rfl rfl)
  | @remove r result hstage =>
      obtain ⟨hget, run, hrun, hleader, -⟩ := hplaced.leads r (by rw [hstage]; rfl)
      refine ⟨⟨fun key r' hr' => ?_⟩, placed_of_idle rfl rfl, continues_refl s.deduper, ?_⟩
      · rw [RequestDeduper.delete, IndexMap.get_erase] at hr'
        split at hr'
        · cases hr'
        · exact hshared.lt key r' hr'
      · intro j u hji hu
        refine hu.continue (continues_refl s.deduper) fun r' hr' hleads => ?_
        rw [RequestDeduper.delete, IndexMap.get_erase, if_neg, hr']
        intro hkey
        obtain ⟨-, run', hrun', hleader', -⟩ := hu.leads r' hleads
        rw [hkey, hget, Option.some.injEq] at hr'
        subst hr'
        obtain rfl := Option.some.inj (hrun'.symm.trans hrun)
        exact hji (hleader'.symm.trans hleader)
  | wake hstage hrun hresult => exact hquiet (placed_of_idle rfl rfl)
  | del hstage hheader => exact hquiet (placed_of_idle rfl rfl)
  | @finish now own result hstage =>
      rw [remember_deduper]
      exact hquiet (placed_of_idle rfl rfl)
  | cancel => exact hquiet ⟨hplaced.leads, hplaced.alone⟩

end Keeps

section Runs

variable {c : Client} {header : Option String} {moves : List (Move Request Action)}
  {s : Threads Shared Caller}

theorem placed_of_run (hrun : (calls c header).machine.run moves = some s) :
    Holds (fun shared _ => DeduperHolds shared.deduper)
      (fun shared i t => Placed c shared.deduper i t) s := by
  refine holds_of_run ?_ ?_ ?_ hrun
  · exact ⟨nofun⟩
  · exact fun shared n r h => ⟨h, placed_of_idle rfl rfl⟩
  · intro s i a t shared t' h ht hstep
    obtain ⟨hshared, hown, -, hothers⟩ :=
      steps_keeps (steps_of_step hstep) h.shared (h.thread i t ht)
    exact ⟨hshared, hown, fun j u hji _ hu => hothers j u hji hu⟩

/-- Two calls that are deduplicated and make attempts for one key are one call. -/
theorem eq_of_sending (hrun : (calls c header).machine.run moves = some s) {i j : ℕ}
    {t u : Caller} (ht : s.threads[i]? = some t) (hu : s.threads[j]? = some u)
    (hsending : t.stage.sending ≠ none) (hsending' : u.stage.sending ≠ none)
    (hdedupe : (c.dedupe && isDedupeMethod t.request.method) = true)
    (hdedupe' : (c.dedupe && isDedupeMethod u.request.method) = true)
    (hkey : t.request.key = u.request.key) : i = j := by
  have hplaced := placed_of_run hrun
  have hleads : ∀ (k : ℕ) (v : Caller), s.threads[k]? = some v → v.stage.sending ≠ none →
      (c.dedupe && isDedupeMethod v.request.method) = true → ∃ r, v.stage.leads = some r := by
    intro k v hv hne hdedupe
    obtain ⟨run, hsome⟩ := Option.ne_none_iff_exists'.mp hne
    cases run with
    | none => rw [(hplaced.thread k v hv).alone hsome] at hdedupe; cases hdedupe
    | some r => exact ⟨r, Stage.leads_of_sending hsome⟩
  obtain ⟨r, hr⟩ := hleads i t ht hsending hdedupe
  obtain ⟨r', hr'⟩ := hleads j u hu hsending' hdedupe'
  obtain ⟨hget, run, hrun, hleader, -⟩ := (hplaced.thread i t ht).leads r hr
  obtain ⟨hget', run', hrun', hleader', -⟩ := (hplaced.thread j u hu).leads r' hr'
  rw [hkey, hget', Option.some.injEq] at hget
  subst hget
  obtain rfl := Option.some.inj (hrun.symm.trans hrun')
  exact hleader.symm.trans hleader'

end Runs

end Calls

end SpecForge.Go
