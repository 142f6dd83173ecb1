import SpecForge.Lib.SingleFlight
import SpecForge.Ts.ConditionalGet

/-!
# Deduplication of the client

What `RequestDeduper` does to all calls on one client. A call of a safe method shares the
run in the air for its method and URL (§1); what its caller receives is the response of that
run, built anew, which is what `send` returns (§2). This is transparent as long as the calls
that share a run have the same body and headers, which the key leaves out, and the response is
one that can be built (§3).
-/

namespace SpecForge.Ts

open Lib Lib.SingleFlight

universe u

variable {δ : Type u}

/-! ## §1  Keys -/

/-- The key of a call that is deduplicated. -/
def dedupeKey (c : ApiClient δ) (call : Call δ) : Option String :=
  if c.useDedupe && isSafeMethod call.method then some (call.method ++ " " ++ call.url) else none

/-- The calls on one client, and the runs they wait for. -/
def sharing (c : ApiClient δ) : Machine (Flights String (Call δ)) (Event (Call δ)) :=
  machine (dedupeKey c)

theorem not_mem_of_isSafeMethod {method : String} (h : isSafeMethod method = true) :
    ' ' ∉ method.toList := by
  intro hmem
  have hupper : ' ' ∈ (Js.toUpperCase method).toList := by
    rw [Js.toUpperCase, String.toList_ofList, List.mem_map]
    exact ⟨' ', hmem, rfl⟩
  rw [isSafeMethod] at h
  simp only [Bool.or_eq_true, beq_iff_eq] at h
  rcases h with (h | h) | h
  · rw [h] at hupper
    revert hupper
    decide
  · rw [h] at hupper
    revert hupper
    decide
  · rw [h] at hupper
    revert hupper
    decide

/-- A key says the method and the URL. -/
theorem eq_of_dedupeKey {c : ApiClient δ} {call call' : Call δ} {k : String}
    (h : dedupeKey c call = some k) (h' : dedupeKey c call' = some k) :
    call.method = call'.method ∧ call.url = call'.url := by
  rw [dedupeKey] at h h'
  split at h
  · next hsafe =>
      split at h'
      · next hsafe' =>
          rw [Bool.and_eq_true] at hsafe hsafe'
          have heq : call.method ++ " " ++ call.url = call'.method ++ " " ++ call'.url :=
            (Option.some.inj h).trans (Option.some.inj h').symm
          have hmethod : call.method = call'.method := by
            have hbefore := congrArg (Text.beforeChar ' ') heq
            rw [show " " = String.ofList [' '] from rfl, Text.beforeChar_append,
              Text.beforeChar_append,
              Text.beforeChar_eq_self (not_mem_of_isSafeMethod hsafe.2),
              Text.beforeChar_eq_self (not_mem_of_isSafeMethod hsafe'.2)] at hbefore
            exact hbefore
          rw [hmethod] at heq
          exact ⟨hmethod, Text.append_inj_left heq⟩
      · cases h'
  · cases h

/-! ## §2  Responses -/

section Calls

variable (json : HostJson δ) (c : ApiClient δ)

/-- What a caller receives when its run has settled. -/
def receive (call run : Call δ) : Except (Thrown δ) Response :=
  match (dispatchWithRetry json c run).2 with
  | .error e => .error e
  | .ok response =>
      if c.useDedupe && isSafeMethod call.method then rebuild response else .ok response

/-- The calls of the runs in the air, by their keys. -/
def Shows (inFlight : InFlight δ) (s : Flights String (Call δ)) : Prop :=
  ∀ k, inFlight.get k = (s.inFlight.get k).bind fun i => s.runs[i]?

variable {json c}

/-- **What `send` returns after any run** of calls and settlements: the call waits for the run that
is shared with it, and receives what that comes to. -/
theorem send_eq_receive {events : List (Event (Call δ))} {inFlight : InFlight δ}
    {s : Flights String (Call δ)} (hrun : (sharing c).run events = some s)
    (hshows : Shows inFlight s) (call : Call δ) :
    ∃ i run, (s.call (dedupeKey c) call).callers = s.callers ++ [⟨call, i⟩] ∧
      (s.call (dedupeKey c) call).runs[i]? = some run ∧
      send json c inFlight call = receive json c call run := by
  suffices hshared : ∃ i, (s.call (dedupeKey c) call).callers = s.callers ++ [⟨call, i⟩] ∧
      (s.call (dedupeKey c) call).runs[i]? = some (sharedCall c inFlight call) by
    obtain ⟨i, hcallers, hruns⟩ := hshared
    exact ⟨i, sharedCall c inFlight call, hcallers, hruns, rfl⟩
  rcases hjoin : s.joined (dedupeKey c) call with _ | i
  · refine ⟨s.runs.length, by rw [call_of_not_joined hjoin], ?_⟩
    rw [call_of_not_joined hjoin, List.getElem?_concat_length, sharedCall]
    rw [Flights.joined, dedupeKey] at hjoin
    split
    · next hsafe =>
        rw [if_pos hsafe] at hjoin
        change s.inFlight.get (call.method ++ " " ++ call.url) = none at hjoin
        rw [hshows, hjoin]
        rfl
    · rfl
  · refine ⟨i, by rw [call_of_joined hjoin], ?_⟩
    rw [call_of_joined hjoin, sharedCall]
    rw [Flights.joined, dedupeKey] at hjoin
    split at hjoin
    · next hsafe =>
        change s.inFlight.get (call.method ++ " " ++ call.url) = some i at hjoin
        obtain ⟨-, run, hair, -⟩ := (sound_of_run hrun).inAir _ _ hjoin
        rw [if_pos hsafe, hshows, hjoin, Option.bind_some, hair]
        rfl
    · cases hjoin

/-! ## §3  Transparency -/

/-- The same request, as far as it is sent. -/
structure SameRequest (call run : Call δ) : Prop where
  method : call.method = run.method
  url : call.url = run.url
  body : call.opts.body = run.opts.body
  headers : ∀ name, call.opts.headers.get name = run.opts.headers.get name

variable (json c) in
/-- A caller of a safe method waits for a run of its own request and receives what the run
comes to. Callers with other headers are apart, and who comes after a run has settled does
not wait for it. -/
structure Transparent (s : Flights String (Call δ)) : Prop where
  answered : ∀ caller ∈ s.callers, isSafeMethod caller.request.method = true →
    ∃ run, s.runs[caller.run]? = some run ∧ SameRequest caller.request run ∧
      (caller.run ∈ s.settled →
        receive json c caller.request run = (dispatchWithRetry json c run).2)
  apart : ∀ a ∈ s.callers, ∀ b ∈ s.callers, isSafeMethod a.request.method = true →
    a.run = b.run → ∀ name, a.request.opts.headers.get name = b.request.opts.headers.get name
  anew : ∀ call, ∃ i, (s.call (dedupeKey c) call).callers = s.callers ++ [⟨call, i⟩] ∧
    i ∉ s.settled

/-- A response that is built anew as it is: its body has been read, and its status allows
one. -/
def Deliverable (response : Response) : Prop :=
  response.status ∉ nullBodyStatuses ∧ ∃ text, response.text = .ok text

variable (c) in
/-- A call that joins a run in the air has its body and headers, and the good answer to a run
of a safe method is deliverable. -/
def SharesItsOwn (s : Flights String (Call δ)) : Event (Call δ) → Prop
  | .call call => ∀ i ∈ s.joined (dedupeKey c) call, ∀ run ∈ s.runs[i]?,
      call.opts.body = run.opts.body ∧
        ∀ name, call.opts.headers.get name = run.opts.headers.get name
  | .settle i => ∀ run ∈ s.runs[i]?, isSafeMethod run.method = true →
      ∀ attempt response, run.AnsweredWith c attempt response → response.isOk = true →
        Deliverable response

theorem rebuild_eq_ok_iff {response : Response} :
    rebuild response = (.ok response : Except (Thrown δ) Response) ↔ Deliverable response := by
  rw [rebuild, Deliverable]
  rcases response.text with e | text
  · simp
  · dsimp only
    split
    · next hnull => simp [hnull]
    · next hnull => simp [hnull]

/-- A caller receives what its run comes to if every good answer to it is deliverable. -/
theorem receive_eq_iff {call run : Call δ} (h : (c.useDedupe && isSafeMethod call.method) = true) :
    receive json c call run = (dispatchWithRetry json c run).2 ↔
      ∀ attempt response, run.AnsweredWith c attempt response → response.isOk = true →
        Deliverable response := by
  rw [receive]
  rcases hrun : (dispatchWithRetry json c run).2 with e | response
  · refine iff_of_true rfl fun attempt response hanswered hok => ?_
    have heq : (dispatchWithRetry json c run).2 = .ok response := dispatchWithRetry_eq_ok_iff.mpr
      ⟨attempt, hanswered.1, hanswered.2.1, hanswered.2.2, hok⟩
    rw [hrun] at heq
    cases heq
  · dsimp only
    rw [if_pos h, rebuild_eq_ok_iff]
    constructor
    · intro hdeliverable attempt response' hanswered hok
      have heq : (dispatchWithRetry json c run).2 = .ok response' :=
        dispatchWithRetry_eq_ok_iff.mpr ⟨attempt, hanswered.1, hanswered.2.1, hanswered.2.2, hok⟩
      rw [hrun, Except.ok.injEq] at heq
      exact heq ▸ hdeliverable
    · intro hall
      obtain ⟨attempt, hattempted, hsupplied, hanswer, hok⟩ :=
        dispatchWithRetry_eq_ok_iff.mp hrun
      exact hall attempt response ⟨hattempted, hsupplied, hanswer⟩ hok

/-- What `Transparent` says of callers and their runs. -/
theorem transparent_iff_served {s : Flights String (Call δ)} (hdedupe : c.useDedupe = true)
    (h : Sound (dedupeKey c) s) :
    Transparent json c s ↔
      Served (fun call run => isSafeMethod call.method = true → SameRequest call run)
        (fun run => isSafeMethod run.method = true → ∀ attempt response,
          run.AnsweredWith c attempt response → response.isOk = true → Deliverable response)
        s := by
  constructor
  · intro ht caller hmem run hrun
    constructor
    · intro hsafe
      obtain ⟨run', hrun', hsame, -⟩ := ht.answered caller hmem hsafe
      rw [hrun, Option.some.injEq] at hrun'
      exact hrun' ▸ hsame
    · intro hsettled hsafe
      -- the caller that started the run
      obtain ⟨run', hrun', -, hreceive⟩ :=
        ht.answered ⟨run, caller.run⟩ (h.started caller.run run hrun) hsafe
      rw [hrun, Option.some.injEq] at hrun'
      subst hrun'
      exact (receive_eq_iff (by rw [hdedupe, hsafe]; rfl)).mp (hreceive hsettled)
  · intro hserved
    have hanswered : ∀ caller ∈ s.callers, isSafeMethod caller.request.method = true →
        ∃ run, s.runs[caller.run]? = some run ∧ SameRequest caller.request run ∧
          (caller.run ∈ s.settled →
            receive json c caller.request run = (dispatchWithRetry json c run).2) := by
      intro caller hmem hsafe
      obtain ⟨run, hrun, -⟩ := h.waits caller hmem
      obtain ⟨hsame, hgood⟩ := hserved caller hmem run hrun
      refine ⟨run, hrun, hsame hsafe, fun hsettled => ?_⟩
      refine (receive_eq_iff (by rw [hdedupe, hsafe]; rfl)).mpr (hgood hsettled ?_)
      rw [← (hsame hsafe).method]
      exact hsafe
    refine ⟨hanswered, ?_, h.call_unsettled⟩
    intro a ha b hb hsafe hshared name
    obtain ⟨run, hrun, hsame, -⟩ := hanswered a ha hsafe
    obtain ⟨run', hrun', hkey⟩ := h.waits b hb
    rw [← hshared, hrun, Option.some.injEq] at hrun'
    subst hrun'
    have hsafe' : isSafeMethod b.request.method = true := by
      have hsome : dedupeKey c run = some (run.method ++ " " ++ run.url) := by
        rw [dedupeKey, hdedupe, ← hsame.method, hsafe]
        rfl
      rw [hsome] at hkey
      rw [← (eq_of_dedupeKey hsome hkey.symm).1, ← hsame.method]
      exact hsafe
    rw [hsame.headers name, ← ((hserved b hb run (hshared ▸ hrun)).1 hsafe').headers name]

/-- Deduplication is transparent after a run of calls and settlements exactly if every call
shared its own request and every good answer was deliverable. -/
theorem transparent_iff (json : HostJson δ) (c : ApiClient δ) (hdedupe : c.useDedupe = true)
    (events : List (Event (Call δ))) (s : Flights String (Call δ))
    (hrun : (sharing c).run events = some s) :
    Transparent json c s ↔ (sharing c).Throughout (SharesItsOwn c) events := by
  rw [transparent_iff_served hdedupe (sound_of_run hrun),
    served_iff_throughout (fun call _ => ⟨rfl, rfl, rfl, fun _ => rfl⟩) hrun]
  refine Machine.throughout_congr fun events t e ht => ?_
  rcases e with call | i
  · refine forall₂_congr fun i hi => forall₂_congr fun run hmem => ?_
    have hjoin := hi
    rw [Option.mem_def, Flights.joined, Option.bind_eq_some_iff] at hjoin
    obtain ⟨k, hkey, hget⟩ := hjoin
    obtain ⟨-, run', hrun', hkey'⟩ := (sound_of_run ht).inAir k i hget
    rw [hmem, Option.some.injEq] at hrun'
    subst hrun'
    obtain ⟨hmethod, hurl⟩ := eq_of_dedupeKey hkey hkey'
    have hsafe : isSafeMethod call.method = true := by
      rw [dedupeKey] at hkey
      split at hkey
      · next hboth => exact ((Bool.and_eq_true _ _).mp hboth).2
      · cases hkey
    constructor
    · intro hsame
      exact ⟨(hsame hsafe).body, (hsame hsafe).headers⟩
    · rintro ⟨hbody, hheaders⟩ -
      exact ⟨hmethod, hurl, hbody, hheaders⟩
  · rfl

end Calls

def greetings : Response :=
  { status := 200
    statusText := "OK"
    headers := .empty
    text := .ok "[]"
    nullBody := fun h => absurd h (by decide) }

/-- A `GET` with one header of its own. -/
def getIn (language : String) : Call String :=
  { method := "GET"
    url := "https://example.com/greetings"
    opts := { headers := IndexMap.empty.insert "accept-language" language }
    newIdempotencyKey := ""
    answers := fun _ => { handler := .ok greetings } }

def greetingsClient : ApiClient String := ApiClient.new "https://example.com" {}

/-- Two callers that want different languages, in one run. -/
theorem greetings_run : (sharing greetingsClient).run [.call (getIn "de"), .call (getIn "fr")] =
    some
      { inFlight := IndexMap.empty.insert "GET https://example.com/greetings" 0
        runs := [getIn "de"]
        settled := []
        callers := [⟨getIn "de", 0⟩, ⟨getIn "fr", 0⟩] } := by
  rfl

theorem greetings_shared : ¬ ∀ (json : HostJson String) (c : ApiClient String),
    c.useDedupe = true → ∀ events s, (sharing c).run events = some s →
      Transparent json c s := by
  intro h
  have ht := h .ofTexts greetingsClient rfl _ _ greetings_run
  have happart := ht.apart ⟨getIn "de", 0⟩ (by simp) ⟨getIn "fr", 0⟩ (by simp) (by decide) rfl
    "accept-language"
  revert happart
  decide

/-- Two callers that want the same, and their run settles. -/
theorem transparent_iff_greetings :
    ∃ s, (sharing greetingsClient).run
        [.call (getIn "de"), .call (getIn "de"), .settle 0] = some s ∧
      s.callers = [⟨getIn "de", 0⟩, ⟨getIn "de", 0⟩] ∧
      (Transparent .ofTexts greetingsClient s ↔
        (sharing greetingsClient).Throughout (SharesItsOwn greetingsClient)
          [.call (getIn "de"), .call (getIn "de"), .settle 0]) := by
  have hrun : (sharing greetingsClient).run
      [.call (getIn "de"), .call (getIn "de"), .settle 0] = some
        { inFlight := .empty
          runs := [getIn "de"]
          settled := [0]
          callers := [⟨getIn "de", 0⟩, ⟨getIn "de", 0⟩] } := by
    rfl
  exact ⟨_, hrun, rfl, transparent_iff .ofTexts greetingsClient rfl _ _ hrun⟩

end SpecForge.Ts
