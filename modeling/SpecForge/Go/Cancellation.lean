import SpecForge.Go.Calls

/-!
# Cancellation of the calls that share a run

A run of the deduper is under the context of its leader, and those who wait for it get whatever
it comes to. So a call may return the error of a context that is not its own: §1 says when it
does not, and §2 has a run in which it does.
-/

namespace SpecForge.Go.Calls

open Lib Lib.Program

/-! ## §1  Whose context has ended -/

/-- At most one call of those that are deduplicated makes attempts for a key, and none returns the
error of a context unless its own has ended. -/
structure Isolated (c : Client) (s : Threads Shared Caller) : Prop where
  one : ∀ (i j : ℕ) (t u : Caller), s.threads[i]? = some t → s.threads[j]? = some u →
    t.stage.sending ≠ none → u.stage.sending ≠ none →
      (c.dedupe && isDedupeMethod t.request.method) = true →
        (c.dedupe && isDedupeMethod u.request.method) = true →
          t.request.key = u.request.key → i = j
  own : ∀ (i : ℕ) (t : Caller) (err : GoError) (e : ContextError) (ret : Returned),
    s.threads[i]? = some t → t.stage = .returned (.error err) ret → err.ofContext = some e →
      t.ended ≠ none

/-- Whoever is woken by a run that has failed, and whose leader's context had ended by then, has a
context that has ended as well. -/
def Together (s : Threads Shared Caller) : Move Request Action → Prop
  | .act i .wake => ∀ t : Caller, s.threads[i]? = some t →
      ∀ (r : ℕ) (run : Run), t.stage = .waiting r → s.shared.deduper.runs[r]? = some run →
        (∃ err, run.result = some (.error err)) → run.leaderEnded ≠ none → t.ended ≠ none
  | _ => True

/-- A run that came to the error of a context came to it when its leader's had ended. -/
def RunsEnded (d : RequestDeduper) : Prop :=
  ∀ (r : ℕ) (run : Run) (err : GoError) (e : ContextError), d.runs[r]? = some run →
    run.result = some (.error err) → err.ofContext = some e → run.leaderEnded ≠ none

/-- A call that has come to the error of a context has one that has ended. -/
def Ended (t : Caller) : Prop :=
  ∀ (err : GoError) (e : ContextError), t.stage.result = some (.error err) →
    err.ofContext = some e → t.ended ≠ none

section Keeps

variable {c : Client} {i : ℕ} {s s' : Shared} {t t' : Caller}

theorem ended_of_result (h : t.stage.result = none) : Ended t := by
  intro err e herr
  rw [h] at herr
  cases herr

theorem Ended.go_on (h : Ended t) {stage : Stage} {result : Result}
    (hbefore : t.stage.result = some result) (hafter : stage.result = some result) :
    Ended { t with stage := stage } :=
  fun err e herr hcontext => h err e (hbefore.trans (hafter.symm.trans herr)) hcontext

/-- The error of a context comes from the context of the call whose attempt it is. -/
theorem ended_of_yields {a : Action} {err : GoError} {e : ContextError}
    (h : Yields t a (.error err)) (hcontext : err.ofContext = some e) : t.ended ≠ none := by
  cases h with
  | interrupted hended =>
      rw [hended]
      exact Option.some_ne_none _
  | failed hended =>
      rw [hended e hcontext]
      exact Option.some_ne_none _

/-- The run of a leader is done with the leader's context as it is then. -/
theorem RunsEnded.of_steps {a : Action} (h : RunsEnded s.deduper)
    (hsteps : Steps c i s t a s' t') : RunsEnded s'.deduper := by
  intro r run err e hrun hresult hcontext
  rcases (changes_of_steps hsteps).runs r run _ hrun hresult with
    hrun | ⟨-, hended, hyields, -⟩
  · exact h r run err e hrun hresult hcontext
  · rw [hended]
    exact ended_of_yields hyields hcontext

/-- What the call that takes a step keeps, unless it is woken by a run that its leader's context
has ended. -/
theorem Ended.of_steps {a : Action} (h : Ended t) (hsteps : Steps c i s t a s' t')
    (hruns : RunsEnded s.deduper)
    (hwake : a = .wake → ∀ (r : ℕ) (run : Run), t.stage = .waiting r →
      s.deduper.runs[r]? = some run → (∃ err, run.result = some (.error err)) →
        run.leaderEnded ≠ none → t.ended ≠ none) : Ended t' := by
  cases hsteps with
  | hit hstage hfind => exact ended_of_result rfl
  | miss hstage hor =>
      rcases hor with rfl | rfl
      · exact ended_of_result rfl
      · exact ended_of_result rfl
  | evict hstage => exact ended_of_result rfl
  | set hstage => exact ended_of_result rfl
  | join hstage hget => exact ended_of_result rfl
  | lead hstage hget => exact ended_of_result rfl
  | alone hstage hdedupe => exact ended_of_result rfl
  | build hstage => exact ended_of_result rfl
  | send hstage => exact ended_of_result rfl
  | retry hsending => exact ended_of_result rfl
  | finishRun hsending hyields =>
      intro err e herr hcontext
      cases herr
      show t.ended ≠ none
      exact ended_of_yields hyields hcontext
  | finishAlone hsending hyields =>
      intro err e herr hcontext
      cases herr
      show t.ended ≠ none
      exact ended_of_yields hyields hcontext
  | remove hstage => exact h.go_on (by rw [hstage]; rfl) rfl
  | wake hstage hrun hresult =>
      intro err e herr hcontext
      cases herr
      have hended := hruns _ _ err e hrun hresult hcontext
      exact hwake rfl _ _ hstage hrun ⟨err, hresult⟩ hended
  | del hstage hheader => exact h.go_on (by rw [hstage]; rfl) rfl
  | finish hstage => exact h.go_on (by rw [hstage]; rfl) rfl
  | cancel => exact fun err e _ _ => Option.some_ne_none _

end Keeps

theorem ended_of_together {c : Client} {header : Option String} {moves : List (Move Request Action)}
    {s : Threads Shared Caller} (hrun : (calls c header).machine.run moves = some s)
    (htogether : (calls c header).machine.Throughout Together moves) :
    Holds (fun shared _ => RunsEnded shared.deduper) (fun _ _ t => Ended t) s := by
  refine holds_of_throughout ?_ ?_ ?_ hrun htogether
  · intro r run err e hr
    cases hr
  · exact fun shared n r h => ⟨h, ended_of_result rfl⟩
  · intro s i a t shared t' h hcond ht hstep
    have hsteps := steps_of_step hstep
    refine ⟨h.shared.of_steps hsteps, ?_, fun _ _ _ _ hu => hu⟩
    refine (h.thread i t ht).of_steps hsteps h.shared ?_
    rintro rfl
    exact hcond t ht

/-- **Deduplication isolates cancellation as long as nobody is woken by a run that has failed
under a context that had ended**, unless with a context of its own that has ended too. -/
theorem isolated_of_together (c : Client) (header : Option String)
    (moves : List (Move Request Action)) (s : Threads Shared Caller)
    (hrun : (calls c header).machine.run moves = some s)
    (htogether : (calls c header).machine.Throughout Together moves) : Isolated c s := by
  refine ⟨fun i j t u ht hu => eq_of_sending hrun ht hu, ?_⟩
  intro i t err e ret ht hstage hcontext
  refine (ended_of_together hrun htogether).thread i t ht err e ?_ hcontext
  rw [hstage]
  rfl

/-! ## §2  Another caller's context -/

def sharing : Client := ⟨defaultRetryOptions, none, true⟩

def root : Request := ⟨"GET", [], ⟨true, id, fun _ => none⟩⟩

/-- Two calls for one key; the first sends a request, and the second waits for it. -/
def joined : List (Move Request Action) :=
  [.spawn root, .act 0 (.lookup 0), .act 0 .enter, .act 0 .build, .act 0 .send,
    .spawn root, .act 1 (.lookup 0), .act 1 .enter]

/-- The first call is cancelled. -/
def leaderCancelled : List (Move Request Action) :=
  joined ++ [.act 0 (.cancel .canceled),
    .act 0 (.answer (.failed (.url (.context .canceled) []))), .act 0 .interrupt,
    .act 1 .wake, .act 1 .del, .act 1 (.finish 0)]

theorem other_context_returned : ¬∀ (c : Client) (header : Option String)
    (moves : List (Move Request Action)) (s : Threads Shared Caller),
      (calls c header).machine.run moves = some s → Isolated c s := by
  intro h
  obtain ⟨s, hs, ht⟩ : ∃ s, (calls sharing none).machine.run leaderCancelled = some s ∧
      s.threads[1]?.map (fun t => (t.ended, t.stage)) =
        some (none, .returned (.error (.context .canceled)) ⟨some (.context .canceled), false⟩) :=
    ⟨_, rfl, rfl⟩
  obtain ⟨t, hthread, heq⟩ := Option.map_eq_some_iff.mp ht
  obtain ⟨hended, hstage⟩ := Prod.ext_iff.mp heq
  exact (h _ _ _ s hs).own 1 t _ .canceled _ hthread hstage rfl hended

/-- The request is answered. -/
def leaderAnswered : List (Move Request Action) :=
  joined ++ [.act 0 (.answer (.response ⟨200, "", []⟩))] ++ [.act 1 .wake]

theorem isolated_of_together_answered : ∃ s, (calls sharing none).machine.run leaderAnswered =
    some s ∧ Isolated sharing s := by
  obtain ⟨s, hs⟩ : ∃ s, (calls sharing none).machine.run leaderAnswered = some s := ⟨_, rfl⟩
  refine ⟨s, hs, isolated_of_together _ _ _ s hs ?_⟩
  rw [leaderAnswered, Machine.throughout_concat]
  constructor
  · apply Machine.throughout_of_forall
    simp [joined, Together]
  · intro s hs t ht r run hstage hrun _ hended
    cases hs
    cases ht
    cases hstage
    cases hrun
    exact absurd rfl hended

end SpecForge.Go.Calls
