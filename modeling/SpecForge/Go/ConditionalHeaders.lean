import SpecForge.Go.Calls

/-!
# Conditional requests of the Go client

A `GET` that finds an entry in the cache puts its `ETag` into the headers of the client, where the
requests of all other calls find it too. §1 says when an `If-None-Match` belongs to the call whose
request has it, §2 that this is so as long as no request is built between what another call puts
into the headers and takes out of them, and §3 has a run in which one is.
-/

namespace SpecForge.Go.Calls

open Lib Lib.Program

/-! ## §1  Own headers -/

/-- The call has asked the cache and found an entry for its URL, which had not expired. -/
def Found (c : Client) (header : Option String) (moves : List (Move Request Action)) (i : ℕ)
    (r : Request) (e : CacheEntry) : Prop :=
  isGet r.method = true ∧ ∃ before now after s cache,
    moves = before ++ .act i (.lookup now) :: after ∧
      (calls c header).machine.run before = some s ∧ s.shared.cache = some cache ∧
        cache.find now r.url = some e

/-- The result is a `304`. -/
def NotModified (result : Result) : Prop := ∃ r, result = .ok (some r) ∧ r.statusCode = 304

/-- A request has an `If-None-Match` only with the `ETag` of the entry that its call has found,
and a call that has found none does not succeed with a `304` without filling `out`. -/
structure Conditional (c : Client) (header : Option String) (moves : List (Move Request Action))
    (s : Threads Shared Caller) : Prop where
  carried : ∀ d ∈ s.shared.dispatched, ∀ etag, d.ifNoneMatch = some etag →
    ∃ (t : Caller) (e : CacheEntry), s.threads[d.caller]? = some t ∧
      Found c header moves d.caller t.request e ∧ e.etag = etag
  filled : ∀ (i : ℕ) (t : Caller) (result : Result) (ret : Returned),
    s.threads[i]? = some t → t.found = none → t.stage = .returned result ret →
      NotModified result → ret.err = none → ret.filled = true

/-- Headers are built when the client has no `If-None-Match`, or that of the call itself; a `304`
answers only a request that has one; and a call that has found nothing joins only the run of one
that has found nothing either. -/
def Undisturbed (s : Threads Shared Caller) : Move Request Action → Prop
  | .act i .build => ∀ staged, s.shared.header = some staged → staged.setBy = some i
  | .act i (.answer (.response response)) => response.statusCode = 304 →
      ∀ t : Caller, s.threads[i]? = some t → t.stage.carries ≠ none
  | .act i .enter => ∀ t : Caller, s.threads[i]? = some t → t.found = none →
      ∀ (r : ℕ) (run : Run), s.shared.deduper.inflight.get t.request.key = some r →
        s.shared.deduper.runs[r]? = some run → run.found = none
  | _ => True

/-! ## §2  Undisturbed calls -/

/-- Where the `ETag` of a call may be. -/
inductive Bears (s : Shared) (i : ℕ) (t : Caller) (etag : String) : Prop where
  | header : s.header = some ⟨some i, etag⟩ → Bears s i t etag
  | staging : t.stage = .staging etag → Bears s i t etag
  | carries : t.stage.carries = some etag → Bears s i t etag
  | dispatched : ⟨i, some etag⟩ ∈ s.dispatched → Bears s i t etag

structure CallHolds (s : Shared) (i : ℕ) (t : Caller) : Prop where
  fresh : t.stage = .lookup → t.found = none
  bears : ∀ etag, Bears s i t etag → t.found.map CacheEntry.etag = some etag
  waiting : ∀ r, t.stage = .waiting r → t.found = none →
    ∃ run, s.deduper.runs[r]? = some run ∧ run.found = none
  result : ∀ result, t.stage.result = some result → t.found = none → ¬NotModified result

/-- With the number of calls. -/
structure SharedHolds (s : Shared) (n : ℕ) : Prop where
  header : ∀ i etag, s.header = some ⟨some i, etag⟩ → i < n
  dispatched : ∀ d ∈ s.dispatched, d.caller < n
  runs : ∀ (r : ℕ) (run : Run) (result : Result), s.deduper.runs[r]? = some run →
    run.result = some result → run.found = none → ¬NotModified result

section Keeps

variable {c : Client} {i n : ℕ} {s s' : Shared} {t t' : Caller}

/-- A step after which the call bears nothing that it has not borne. -/
theorem CallHolds.go_on (h : CallHolds s i t) (hrequest : t'.found = t.found)
    (hstage : t'.stage ≠ .lookup) (hbears : ∀ etag, Bears s' i t' etag → Bears s i t etag)
    (hwaiting : ∀ r, t'.stage = .waiting r → t'.found = none →
      ∃ run, s'.deduper.runs[r]? = some run ∧ run.found = none)
    (hresult : ∀ result, t'.stage.result = some result → t'.found = none →
      ¬NotModified result) : CallHolds s' i t' := by
  refine ⟨fun hlookup => absurd hlookup hstage, fun etag h' => ?_, hwaiting, hresult⟩
  rw [hrequest]
  exact h.bears etag (hbears etag h')

/-- The other calls bear what they have borne, if the header is not one of theirs and no request
of theirs is sent. -/
theorem CallHolds.other (h : CallHolds s i t) (hruns : Continues s.deduper s'.deduper)
    (hheader : ∀ etag, s'.header = some ⟨some i, etag⟩ → s.header = some ⟨some i, etag⟩)
    (hdispatched : ∀ etag, ⟨i, some etag⟩ ∈ s'.dispatched → ⟨i, some etag⟩ ∈ s.dispatched) :
    CallHolds s' i t := by
  refine ⟨h.fresh, fun etag h' => h.bears etag ?_, fun r hr hnone => ?_, h.result⟩
  · cases h' with
    | header hs => exact .header (hheader etag hs)
    | staging hs => exact .staging hs
    | carries hs => exact .carries hs
    | dispatched hs => exact .dispatched (hdispatched etag hs)
  · obtain ⟨run, hrun, hfound⟩ := h.waiting r hr hnone
    obtain ⟨run', hrun', -, hfound'⟩ := hruns r run hrun
    exact ⟨run', hrun', hfound'.trans hfound⟩

/-- A step that puts nothing into the headers, and after which the call has no request that it has
not had. -/
theorem bears_of_quiet {etag : String} (hheader : s'.header = none ∨ s'.header = s.header)
    (hdispatched : s'.dispatched = s.dispatched) (hstaging : ∀ etag, t'.stage ≠ .staging etag)
    (hcarries : t'.stage.carries = none ∨ t'.stage.carries = t.stage.carries)
    (h : Bears s' i t' etag) : Bears s i t etag := by
  cases h with
  | header hs =>
      rcases hheader with hnone | hsame
      · rw [hnone] at hs
        cases hs
      · exact .header (hsame ▸ hs)
  | staging hs => exact absurd hs (hstaging etag)
  | carries hs =>
      rcases hcarries with hnone | hsame
      · rw [hnone] at hs
        cases hs
      · exact .carries (hsame ▸ hs)
  | dispatched hs => exact .dispatched (hdispatched ▸ hs)

/-- A call that has found nothing sends requests without an `If-None-Match`, which a `304` does not
answer. -/
theorem CallHolds.yields (h : CallHolds s i t) {a : Action} {result : Result}
    (hyields : Yields t a result) (hnone : t.found = none)
    (hcond : ∀ response, a = .answer (.response response) → response.statusCode = 304 →
      t.stage.carries ≠ none) : ¬NotModified result := by
  rintro ⟨response, hresult, h304⟩
  cases hyields with
  | noneMade => cases hresult
  | interrupted hended => cases hresult
  | failed hended => cases hresult
  | answered hstage =>
      cases hresult
      obtain ⟨etag, hetag⟩ := Option.ne_none_iff_exists'.mp (hcond response rfl h304)
      have hfound := h.bears etag (.carries hetag)
      rw [hnone] at hfound
      cases hfound

/-- What the call that takes a step keeps. -/
theorem callHolds_of_steps {a : Action} (hsteps : Steps c i s t a s' t')
    (hdeduper : DeduperHolds s.deduper) (hshared : SharedHolds s n) (h : CallHolds s i t)
    (hbuild : a = .build → ∀ staged, s.header = some staged → staged.setBy = some i)
    (hanswer : ∀ response, a = .answer (.response response) → response.statusCode = 304 →
      t.stage.carries ≠ none)
    (henter : a = .enter → t.found = none → ∀ (r : ℕ) (run : Run),
      s.deduper.inflight.get t.request.key = some r → s.deduper.runs[r]? = some run →
        run.found = none) : CallHolds s' i t' := by
  -- the stages in which a call has no header, does not wait, and has come to no result
  have hidle : ∀ {s' : Shared} {stage : Stage}, (s'.header = none ∨ s'.header = s.header) →
      s'.dispatched = s.dispatched → (∀ etag, stage ≠ .staging etag) → stage ≠ .lookup →
        stage.carries = none → (∀ r, stage ≠ .waiting r) →
          (∀ result, stage.result = some result → t.found = none → ¬NotModified result) →
            CallHolds s' i { t with stage := stage } := by
    intro s' stage hheader hdispatched hstaging hlookup hcarries hwaiting hresult
    refine h.go_on rfl hlookup (fun etag => ?_) (fun r hr => absurd hr (hwaiting r)) hresult
    exact bears_of_quiet hheader hdispatched hstaging (Or.inl hcarries)
  cases hsteps with
  | @hit now e hstage hfind =>
      have hfound := h.fresh hstage
      refine ⟨nofun, fun etag hbears => ?_, nofun, nofun⟩
      have hnot : ¬Bears s i t etag := by
        intro hbears
        have hetag := h.bears etag hbears
        rw [hfound] at hetag
        cases hetag
      cases hbears with
      | header hs => exact absurd (.header hs) hnot
      | staging hs =>
          cases hs
          rfl
      | carries hs => cases hs
      | dispatched hs => exact absurd (.dispatched hs) hnot
  | miss hstage hor =>
      rcases hor with rfl | rfl
      · exact hidle (Or.inr rfl) rfl nofun nofun rfl nofun nofun
      · exact hidle (Or.inr rfl) rfl nofun nofun rfl nofun nofun
  | evict hstage => exact hidle (Or.inr rfl) rfl nofun nofun rfl nofun nofun
  | @set etag hstage =>
      refine h.go_on rfl nofun (fun etag' hbears => ?_) nofun nofun
      cases hbears with
      | header hs =>
          cases hs
          exact .staging hstage
      | staging hs => cases hs
      | carries hs => cases hs
      | dispatched hs => exact .dispatched hs
  | @join r hstage hget =>
      refine h.go_on rfl nofun (fun etag => ?_) (fun r' hr' hnone => ?_) nofun
      · exact bears_of_quiet (Or.inr rfl) rfl nofun (Or.inl rfl)
      · cases hr'
        have hlt := hdeduper.lt _ r hget
        refine ⟨_, List.getElem?_eq_getElem hlt, ?_⟩
        exact henter rfl hnone r _ hget (List.getElem?_eq_getElem hlt)
  | lead hstage hget => exact hidle (Or.inr rfl) rfl nofun nofun rfl nofun nofun
  | alone hstage hdedupe => exact hidle (Or.inr rfl) rfl nofun nofun rfl nofun nofun
  | build hstage =>
      refine h.go_on rfl nofun (fun etag hbears => ?_) nofun nofun
      cases hbears with
      | header hs => exact .header hs
      | staging hs => cases hs
      | carries hs =>
          obtain ⟨staged, hstaged, hetag⟩ := Option.map_eq_some_iff.mp hs
          obtain ⟨setBy, etag'⟩ := staged
          obtain rfl : etag' = etag := hetag
          obtain rfl : setBy = some i := hbuild rfl _ hstaged
          exact .header hstaged
      | dispatched hs => exact .dispatched hs
  | @send run k ifNoneMatch hstage =>
      refine h.go_on rfl nofun (fun etag hbears => ?_) nofun nofun
      have hcarries : ifNoneMatch = some etag → Bears s i t etag := by
        rintro rfl
        refine .carries ?_
        rw [hstage]
        rfl
      cases hbears with
      | header hs => exact .header hs
      | staging hs => cases hs
      | carries hs => exact hcarries hs
      | dispatched hs =>
          rcases List.mem_append.mp hs with hs | hs
          · exact .dispatched hs
          · rw [List.mem_singleton] at hs
            exact hcarries (Dispatch.mk.inj hs).2.symm
  | retry hsending => exact hidle (Or.inr rfl) rfl nofun nofun rfl nofun nofun
  | finishRun hsending hyields =>
      refine hidle (Or.inr rfl) rfl nofun nofun rfl nofun fun result' hresult hnone => ?_
      cases hresult
      exact h.yields hyields hnone hanswer
  | finishAlone hsending hyields =>
      refine hidle (Or.inr rfl) rfl nofun nofun rfl nofun fun result' hresult hnone => ?_
      cases hresult
      exact h.yields hyields hnone hanswer
  | remove hstage =>
      refine hidle (Or.inr rfl) rfl nofun nofun rfl nofun fun result' hresult => ?_
      exact h.result result' (by rw [hstage]; exact hresult)
  | @wake r run result hstage hrun hresult =>
      refine hidle (Or.inr rfl) rfl nofun nofun rfl nofun fun result' hresult' hnone => ?_
      cases hresult'
      obtain ⟨run', hrun', hfound⟩ := h.waiting r hstage hnone
      obtain rfl := Option.some.inj (hrun.symm.trans hrun')
      exact hshared.runs r run result hrun hresult hfound
  | del hstage hheader =>
      refine hidle hheader rfl nofun nofun rfl nofun fun result' hresult => ?_
      exact h.result result' (by rw [hstage]; exact hresult)
  | finish hstage =>
      refine hidle (Or.inr (remember_header _ _ _ _ _)) (remember_dispatched _ _ _ _ _) nofun nofun
        rfl nofun fun result' hresult => ?_
      exact h.result result' (by rw [hstage]; exact hresult)
  | cancel =>
      refine ⟨h.fresh, fun etag hbears => h.bears etag ?_, h.waiting, h.result⟩
      cases hbears with
      | header hs => exact .header hs
      | staging hs => exact .staging hs
      | carries hs => exact .carries hs
      | dispatched hs => exact .dispatched hs

theorem sharedHolds_of_steps {a : Action} (hsteps : Steps c i s t a s' t')
    (hplaced : Placed c s.deduper i t) (hshared : SharedHolds s n) (h : CallHolds s i t)
    (hi : i < n)
    (hanswer : ∀ response, a = .answer (.response response) → response.statusCode = 304 →
      t.stage.carries ≠ none) : SharedHolds s' n := by
  have hchanges := changes_of_steps hsteps
  constructor
  · intro j etag hs
    rcases hchanges.header with hnone | hsame | ⟨etag', hset⟩
    · rw [hnone] at hs
      cases hs
    · exact hshared.header j etag (hsame ▸ hs)
    · rw [hset] at hs
      cases hs
      exact hi
  · intro d hd
    rcases hchanges.dispatched d hd with hd | rfl
    · exact hshared.dispatched d hd
    · exact hi
  · intro r run result hrun hresult hnone
    rcases hchanges.runs r run result hrun hresult with
      hrun | ⟨hsending, -, hyields, before, hbefore, hfound⟩
    · exact hshared.runs r run result hrun hresult hnone
    · obtain ⟨-, run', hrun', -, hfound'⟩ := hplaced.leads r (Stage.leads_of_sending hsending)
      obtain rfl := Option.some.inj (hbefore.symm.trans hrun')
      refine h.yields hyields ?_ hanswer
      rw [← hfound', hfound, hnone]

theorem CallHolds.of_steps {a : Action} {j : ℕ} {u : Caller} (h : CallHolds s j u)
    (hsteps : Steps c i s t a s' t') (hruns : Continues s.deduper s'.deduper) (hji : j ≠ i) :
    CallHolds s' j u := by
  have hchanges := changes_of_steps hsteps
  refine h.other hruns (fun etag hs => ?_) fun etag hd => ?_
  · rcases hchanges.header with hnone | hsame | ⟨etag', hset⟩
    · rw [hnone] at hs
      cases hs
    · exact hsame ▸ hs
    · rw [hset] at hs
      cases hs
      exact absurd rfl hji
  · rcases hchanges.dispatched _ hd with hd | hcaller
    · exact hd
    · exact absurd hcaller hji

theorem find_eq_some_iff {now : ℤ} {r : Request} {e : CacheEntry} :
    s.find now r = some e ↔ isGet r.method = true ∧
      ∃ cache, s.cache = some cache ∧ cache.find now r.url = some e := by
  rw [Shared.find]
  split
  · next hget => rw [Option.bind_eq_some_iff, and_iff_right hget]
  · next hget => exact iff_of_false nofun fun hand => hget hand.1

end Keeps

section Runs

variable {c : Client} {header : Option String} {moves : List (Move Request Action)}
  {s : Threads Shared Caller}

theorem callHolds_of_undisturbed (hrun : (calls c header).machine.run moves = some s)
    (hcond : (calls c header).machine.Throughout Undisturbed moves) :
    Holds (fun shared n => DeduperHolds shared.deduper ∧ SharedHolds shared n)
      (fun shared i t => Placed c shared.deduper i t ∧ CallHolds shared i t) s := by
  refine holds_of_throughout ?_ ?_ ?_ hrun hcond
  · refine ⟨⟨nofun⟩, fun i etag h => ?_, nofun, fun r run result hr => ?_⟩
    · cases header with
      | none => cases h
      | some etag' => cases h
    · cases hr
  · intro shared n r h
    refine ⟨⟨h.1, fun i etag hs => ?_, fun d hd => ?_, h.2.runs⟩, placed_of_idle rfl rfl, ?_⟩
    · exact Nat.lt_succ_of_lt (h.2.header i etag hs)
    · exact Nat.lt_succ_of_lt (h.2.dispatched d hd)
    · refine ⟨fun _ => rfl, fun etag hbears => ?_, nofun, nofun⟩
      -- nothing is borne by a call that there was not
      cases hbears with
      | header hs => exact absurd (h.2.header n etag hs) (Nat.lt_irrefl n)
      | staging hs => cases hs
      | carries hs => cases hs
      | dispatched hd => exact absurd (h.2.dispatched _ hd) (Nat.lt_irrefl n)
  · intro s i a t shared t' h hcond ht hstep
    have hsteps := steps_of_step hstep
    obtain ⟨hplaced, hcall⟩ := h.thread i t ht
    obtain ⟨hdeduper, hplaced', hruns, hothers⟩ := steps_keeps hsteps h.shared.1 hplaced
    have hanswer : ∀ response, a = .answer (.response response) →
        response.statusCode = 304 → t.stage.carries ≠ none := by
      rintro response rfl h304
      exact hcond h304 t ht
    have hi : i < s.threads.length := (List.getElem?_eq_some_iff.mp ht).1
    refine ⟨⟨hdeduper, sharedHolds_of_steps hsteps hplaced h.shared.2 hcall hi hanswer⟩,
      ⟨hplaced', ?_⟩, fun j u hji _ hu => ⟨hothers j u hji hu.1, hu.2.of_steps hsteps hruns hji⟩⟩
    refine callHolds_of_steps hsteps h.shared.1 h.shared.2 hcall ?_ hanswer ?_
    · rintro rfl
      exact hcond
    · rintro rfl
      exact hcond t ht

theorem Found.extend {i : ℕ} {r : Request} {e : CacheEntry} (h : Found c header moves i r e)
    (m : Move Request Action) : Found c header (moves ++ [m]) i r e := by
  obtain ⟨hget, before, now, after, s, cache, rfl, hrest⟩ := h
  refine ⟨hget, before, now, after ++ [m], s, cache, ?_, hrest⟩
  rw [List.append_assoc, List.cons_append]

/-- Where the entry of a call comes from. -/
theorem found_of_run (hrun : (calls c header).machine.run moves = some s) :
    ∀ (i : ℕ) (t : Caller) (e : CacheEntry), s.threads[i]? = some t → t.found = some e →
      Found c header moves i t.request e := by
  refine Machine.run_invariant (I := fun moves (s : Threads Shared Caller) =>
    ∀ (i : ℕ) (t : Caller) (e : CacheEntry), s.threads[i]? = some t → t.found = some e →
      Found c header moves i t.request e) ?_ ?_ hrun
  · exact fun i t e ht => by cases ht
  · intro moves m s s' hs ih hm i t e ht hfound
    rcases m with r | ⟨j, a⟩
    · obtain rfl := Option.some.inj hm
      rcases getElem?_concat_iff.mp ht with ⟨-, rfl⟩ | ht
      · cases hfound
      · exact (ih i t e ht hfound).extend _
    · obtain ⟨u, shared, u', hu, hstep, rfl⟩ := next_act_iff.mp hm
      rcases (getElem?_set_iff hu).mp ht with ⟨rfl, rfl⟩ | ⟨-, ht⟩
      · have hchanges := changes_of_steps (steps_of_step hstep)
        have hrequest := hchanges.request
        rcases hchanges.found with hsame | ⟨now, e', rfl, hfind, hfound'⟩
        · rw [hrequest]
          exact (ih i u e hu (hsame ▸ hfound)).extend _
        · rw [hfound', Option.some.injEq] at hfound
          subst hfound
          obtain ⟨hget, cache, hcache, hfind⟩ := find_eq_some_iff.mp hfind
          rw [hrequest]
          exact ⟨hget, moves, now, [], s, cache, rfl, hs, hcache, hfind⟩
      · exact (ih i t e ht hfound).extend _

end Runs

/-- **The `If-None-Match` of a request belongs to its call**, as long as no request is built while
the headers of the client have that of another call, a `304` answers only requests that have one,
and a call that has found no entry does not join the run of one that has. -/
theorem conditional_of_undisturbed (c : Client) (header : Option String)
    (moves : List (Move Request Action)) (s : Threads Shared Caller)
    (hrun : (calls c header).machine.run moves = some s)
    (hcond : (calls c header).machine.Throughout Undisturbed moves) :
    Conditional c header moves s := by
  have hholds := callHolds_of_undisturbed hrun hcond
  constructor
  · intro d hd etag hetag
    have hlt := hholds.shared.2.dispatched d hd
    have ht := List.getElem?_eq_getElem hlt
    have hstamped := (hholds.thread _ _ ht).2.bears etag (.dispatched (hetag ▸ hd))
    obtain ⟨e, hfound, heq⟩ := Option.map_eq_some_iff.mp hstamped
    exact ⟨_, e, ht, found_of_run hrun _ _ e ht hfound, heq⟩
  · intro i t result ret ht hnone hstage hmodified
    have hresult : t.stage.result = some result := by
      rw [hstage]
      rfl
    exact absurd hmodified ((hholds.thread i t ht).2.result result hresult hnone)

/-! ## §3  The header of another call -/

/-- A client that has cached the response to one URL. -/
def caching : Client :=
  ⟨defaultRetryOptions, some ⟨IndexMap.empty.insert [1] ⟨"v1", [7], 0⟩, 1000⟩, false⟩

def get (u : Bytes) : Request := ⟨"GET", u, ⟨true, id, fun _ => none⟩⟩

/-- The response that is cached is asked for again, and its `ETag` is in the headers. -/
def staged : List (Move Request Action) :=
  [.spawn (get [1]), .act 0 (.lookup 1), .act 0 .set] ++ [.act 0 .enter]

/-- Another URL is asked for meanwhile. The server has not modified it, as it were. -/
def otherBuilt : List (Move Request Action) :=
  staged ++ [.spawn (get [2]), .act 1 (.lookup 1), .act 1 .enter, .act 1 .build, .act 1 .send,
    .act 1 (.answer (.response ⟨304, "v1", []⟩)), .act 1 .del, .act 1 (.finish 1)]

theorem other_header_sent : ¬∀ (c : Client) (header : Option String)
    (moves : List (Move Request Action)) (s : Threads Shared Caller),
      (calls c header).machine.run moves = some s → Conditional c header moves s := by
  intro h
  obtain ⟨s, hs, ht⟩ : ∃ s, (calls caching none).machine.run otherBuilt = some s ∧
      s.threads[1]?.map (fun t => (t.found, t.stage)) =
        some (none, .returned (.ok (some ⟨304, "v1", []⟩)) ⟨none, false⟩) :=
    ⟨_, rfl, rfl⟩
  obtain ⟨t, hthread, heq⟩ := Option.map_eq_some_iff.mp ht
  obtain ⟨hfound, hstage⟩ := Prod.ext_iff.mp heq
  have hfilled := (h _ _ _ s hs).filled 1 t _ _ hthread hfound hstage ⟨_, rfl, rfl⟩ rfl
  cases hfilled

/-- The request of the first call is built. -/
def ownBuilt : List (Move Request Action) := staged ++ [.act 0 .build] ++ [.act 0 .send]

theorem conditional_of_undisturbed_own : ∃ s, (calls caching none).machine.run ownBuilt = some s ∧
    Conditional caching none ownBuilt s := by
  obtain ⟨s, hs⟩ : ∃ s, (calls caching none).machine.run ownBuilt = some s := ⟨_, rfl⟩
  refine ⟨s, hs, conditional_of_undisturbed _ _ _ s hs ?_⟩
  rw [ownBuilt, staged, Machine.throughout_concat, Machine.throughout_concat,
    Machine.throughout_concat]
  refine ⟨⟨⟨?_, ?_⟩, ?_⟩, fun s hs => trivial⟩
  · apply Machine.throughout_of_forall
    simp [Undisturbed]
  · intro s hs t ht hnone
    cases hs
    cases ht
    cases hnone
  · intro s hs staged hstaged
    cases hs
    cases hstaged
    rfl

end SpecForge.Go.Calls
