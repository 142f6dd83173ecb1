import SpecForge.Go.Client
import SpecForge.Lib.Expiring
import SpecForge.Lib.Threads

/-!
# Concurrent use of the Go cache

`Get` reads under one lock, looks at the clock under none, and evicts under another; `Set` and
`Clear` may come in between (§1). Whatever the interleaving, an entry that `Get` returns is the
one that was stored last when it read (§2). What it misses depends on the evictions: the cache
has everything that has not expired, all along, exactly if no eviction takes away an entry that
is still fresh (`complete_iff_harmless`, §3). §4 has a run in which one does.
-/

namespace SpecForge.Go.CacheAccess

open Lib Lib.Program

/-! ## §1  Steps -/

abbrev Cached := String × Bytes

def stamped (e : CacheEntry) : Stamped Cached := ⟨(e.etag, e.data), e.timestamp⟩

def contents (c : ResponseCache) : Store Bytes Cached := fun u => (c.entries.get u).map stamped

inductive Call where
  | get (url : Bytes)
  | set (url : Bytes) (etag : String) (data : Bytes)
  | clear

/-- The time of the last step, and what was stored last under each URL. -/
structure Shared where
  cache : ResponseCache
  clock : ℤ
  stored : Store Bytes Cached

/-- Where a call is. On record is what was stored last when it read, and whether that had expired
when it looked at the clock. -/
inductive Stage where
  | ready
  | checking (entry : CacheEntry) (newest : Option (Stamped Cached))
  | evicting (expected : Option (Stamped Cached))
  | returned (result : Option CacheEntry) (expected : Option (Stamped Cached))

structure Caller where
  call : Call
  stage : Stage

def unexpired (ttl now : ℤ) (newest : Option (Stamped Cached)) : Option (Stamped Cached) :=
  newest.filter fun e => e.isFresh ttl now

/-- A step at a time that is not before that of the last one. -/
def step (now : ℤ) (s : Shared) (t : Caller) : Option (Shared × Caller) :=
  if now < s.clock then none
  else
    match t.call, t.stage with
    | .get url, .ready =>
        match s.cache.entries.get url with
        | none =>
            some ({ s with clock := now },
              { t with stage := .returned none (unexpired s.cache.ttl now (s.stored url)) })
        | some e =>
            some ({ s with clock := now }, { t with stage := .checking e (s.stored url) })
    | .get _, .checking e newest =>
        if s.cache.ttl ≤ now - e.timestamp then
          some ({ s with clock := now },
            { t with stage := .evicting (unexpired s.cache.ttl now newest) })
        else
          some ({ s with clock := now },
            { t with stage := .returned (some e) (unexpired s.cache.ttl now newest) })
    | .get url, .evicting expected =>
        some (⟨{ s.cache with entries := s.cache.entries.erase url }, now, s.stored⟩,
          { t with stage := .returned none expected })
    | .set url etag data, .ready =>
        some (⟨s.cache.set now url etag data, now, s.stored.put now url (etag, data)⟩,
          { t with stage := .returned none none })
    | .clear, .ready =>
        some (⟨{ s.cache with entries := .empty }, now, Store.empty⟩,
          { t with stage := .returned none none })
    | _, _ => none

/-- Calls on a cache that has just been made. -/
def calls (ttl : ℤ) : Program Shared Caller Call ℤ where
  init := ⟨.new ttl, 0, Store.empty⟩
  start call := ⟨call, .ready⟩
  step _ := step

variable {ttl : ℤ}

/-- What a step does, by the stage of its call. -/
inductive Step (now : ℤ) (s : Shared) (t : Caller) : Shared × Caller → Prop where
  | miss {url : Bytes} : t.call = .get url → t.stage = .ready → s.cache.entries.get url = none →
      Step now s t ({ s with clock := now },
        { t with stage := .returned none (unexpired s.cache.ttl now (s.stored url)) })
  | read {url : Bytes} {e : CacheEntry} : t.call = .get url → t.stage = .ready →
      s.cache.entries.get url = some e →
      Step now s t ({ s with clock := now }, { t with stage := .checking e (s.stored url) })
  | expired {url : Bytes} {e : CacheEntry} {newest : Option (Stamped Cached)} :
      t.call = .get url → t.stage = .checking e newest → s.cache.ttl ≤ now - e.timestamp →
      Step now s t ({ s with clock := now },
        { t with stage := .evicting (unexpired s.cache.ttl now newest) })
  | hit {url : Bytes} {e : CacheEntry} {newest : Option (Stamped Cached)} :
      t.call = .get url → t.stage = .checking e newest → now - e.timestamp < s.cache.ttl →
      Step now s t ({ s with clock := now },
        { t with stage := .returned (some e) (unexpired s.cache.ttl now newest) })
  | evict {url : Bytes} {expected : Option (Stamped Cached)} :
      t.call = .get url → t.stage = .evicting expected →
      Step now s t (⟨{ s.cache with entries := s.cache.entries.erase url }, now, s.stored⟩,
        { t with stage := .returned none expected })
  | set {url : Bytes} {etag : String} {data : Bytes} : t.call = .set url etag data →
      t.stage = .ready →
      Step now s t (⟨s.cache.set now url etag data, now, s.stored.put now url (etag, data)⟩,
        { t with stage := .returned none none })
  | clear : t.call = .clear → t.stage = .ready →
      Step now s t (⟨{ s.cache with entries := .empty }, now, Store.empty⟩,
        { t with stage := .returned none none })

theorem step_cases {now : ℤ} {s : Shared} {t : Caller} {e : Shared × Caller}
    (h : step now s t = some e) : s.clock ≤ now ∧ Step now s t e := by
  unfold step at h
  split at h
  · cases h
  · next hclock =>
    refine ⟨not_lt.mp hclock, ?_⟩
    split at h
    · next hcall hstage =>
      split at h
      · next hnone => exact Option.some.inj h ▸ .miss hcall hstage hnone
      · next hsome => exact Option.some.inj h ▸ .read hcall hstage hsome
    · next hcall hstage =>
      split at h
      · next hexpired => exact Option.some.inj h ▸ .expired hcall hstage hexpired
      · next hfresh => exact Option.some.inj h ▸ .hit hcall hstage (not_le.mp hfresh)
    · next hcall hstage => exact Option.some.inj h ▸ .evict hcall hstage
    · next hcall hstage => exact Option.some.inj h ▸ .set hcall hstage
    · next hcall hstage => exact Option.some.inj h ▸ .clear hcall hstage
    · cases h

/-! ## §2  What is returned -/

/-- Every entry of the cache is the one that was stored last. -/
structure SharedHolds (ttl : ℤ) (s : Shared) : Prop where
  ttl : s.cache.ttl = ttl
  newest : ∀ u e, contents s.cache u = some e → s.stored u = some e

structure CallerHolds (t : Caller) : Prop where
  checking : ∀ e newest, t.stage = .checking e newest → newest = some (stamped e)
  evicting : ∀ expected, t.stage = .evicting expected → expected = none
  hit : ∀ e expected, t.stage = .returned (some e) expected → expected = some (stamped e)

theorem contents_set (c : ResponseCache) (now : ℤ) (url : Bytes) (etag : String) (data : Bytes) :
    contents (c.set now url etag data) = (contents c).put now url (etag, data) := by
  funext u
  show ((c.entries.insert url _).get u).map stamped = Function.update (contents c) url _ u
  rw [IndexMap.get_insert]
  by_cases hu : u = url
  · rw [if_pos hu, hu, Function.update_self]
    rfl
  · rw [if_neg hu, Function.update_of_ne hu]
    rfl

theorem contents_erase (c : ResponseCache) (url u : Bytes) :
    contents { c with entries := c.entries.erase url } u =
      if u = url then none else contents c u := by
  show ((c.entries.erase url).get u).map stamped = _
  rw [IndexMap.get_erase]
  split <;> rfl

theorem unexpired_stamped (ttl now : ℤ) (e : CacheEntry) :
    unexpired ttl now (some (stamped e)) =
      if now - e.timestamp < ttl then some (stamped e) else none := by
  rw [unexpired, Option.filter_some, Stamped.isFresh]
  by_cases hfresh : now - e.timestamp < ttl
  · rw [if_pos hfresh]
    exact if_pos (decide_eq_true hfresh)
  · rw [if_neg hfresh]
    exact if_neg fun h => hfresh (of_decide_eq_true h)

section

variable {t : Caller}

theorem callerHolds_ready (h : t.stage = .ready) : CallerHolds t := by
  constructor <;> (intros; simp_all)

theorem callerHolds_checking {e : CacheEntry} (h : t.stage = .checking e (some (stamped e))) :
    CallerHolds t := by
  constructor <;> (intros; simp_all)

theorem callerHolds_evicting (h : t.stage = .evicting none) : CallerHolds t := by
  constructor <;> (intros; simp_all)

theorem callerHolds_miss {expected : Option (Stamped Cached)}
    (h : t.stage = .returned none expected) : CallerHolds t := by
  constructor <;> (intros; simp_all)

theorem callerHolds_hit {e : CacheEntry} (h : t.stage = .returned (some e) (some (stamped e))) :
    CallerHolds t := by
  constructor <;> (intros; simp_all)

end

/-- **A step keeps what holds of the cache, and of its call.** -/
theorem Step.holds {now : ℤ} {s : Shared} {t : Caller} {e : Shared × Caller} (h : Step now s t e)
    (hs : SharedHolds ttl s) (ht : CallerHolds t) : SharedHolds ttl e.1 ∧ CallerHolds e.2 := by
  cases h with
  | miss hcall hstage hnone => exact ⟨⟨hs.ttl, hs.newest⟩, callerHolds_miss rfl⟩
  | @read url entry hcall hstage hsome =>
      have hnewest : s.stored url = some (stamped entry) :=
        hs.newest _ _ (by rw [contents, hsome]; rfl)
      exact ⟨⟨hs.ttl, hs.newest⟩, callerHolds_checking (congrArg (Stage.checking entry) hnewest)⟩
  | @expired url entry newest hcall hstage hexpired =>
      have hgone : unexpired s.cache.ttl now newest = none := by
        rw [ht.checking _ _ hstage, unexpired_stamped, if_neg (not_lt.mpr hexpired)]
      exact ⟨⟨hs.ttl, hs.newest⟩, callerHolds_evicting (congrArg Stage.evicting hgone)⟩
  | @hit url entry newest hcall hstage hfresh =>
      have hnewest : unexpired s.cache.ttl now newest = some (stamped entry) := by
        rw [ht.checking _ _ hstage, unexpired_stamped, if_pos hfresh]
      exact ⟨⟨hs.ttl, hs.newest⟩, callerHolds_hit (congrArg (Stage.returned (some entry)) hnewest)⟩
  | evict hcall hstage =>
      refine ⟨⟨hs.ttl, fun u e he => ?_⟩, callerHolds_miss rfl⟩
      rw [contents_erase] at he
      split at he
      · cases he
      · exact hs.newest u e he
  | @set url etag data hcall hstage =>
      refine ⟨⟨hs.ttl, fun u e he => ?_⟩, callerHolds_miss rfl⟩
      rw [contents_set, Store.put] at he
      show Function.update s.stored url _ u = some e
      by_cases hu : u = url
      · rw [hu, Function.update_self] at he ⊢
        exact he
      · rw [Function.update_of_ne hu] at he ⊢
        exact hs.newest u e he
  | clear hcall hstage =>
      refine ⟨⟨hs.ttl, fun u e he => ?_⟩, callerHolds_miss rfl⟩
      cases he

theorem holds_of_moves {moves : List (Move Call ℤ)} {s : Threads Shared Caller}
    (hrun : (calls ttl).machine.run moves = some s) :
    Holds (fun s _ => SharedHolds ttl s) (fun _ _ t => CallerHolds t) s := by
  refine holds_of_run ⟨rfl, fun u e he => by cases he⟩ ?_ ?_ hrun
  · exact fun shared n call h => ⟨h, callerHolds_ready rfl⟩
  · intro s i now t shared t' h ht hstep
    obtain ⟨-, hstep⟩ := step_cases hstep
    obtain ⟨hshared, hown⟩ := hstep.holds h.shared (h.thread i t ht)
    exact ⟨hshared, hown, fun _ _ _ _ hother => hother⟩

/-! ## §3  What is missed -/

/-- From now on the cache cannot be told from what was stored. -/
def Complete (s : Threads Shared Caller) : Prop :=
  Store.EqFrom s.shared.cache.ttl s.shared.clock (contents s.shared.cache) s.shared.stored

/-- An eviction takes away nothing but what has expired. -/
def Harmless (s : Threads Shared Caller) : Move Call ℤ → Prop
  | .spawn _ => True
  | .act i now => ∀ t url expected, s.threads[i]? = some t → t.call = .get url →
      t.stage = .evicting expected → ∀ e, s.shared.cache.entries.get url = some e →
        s.shared.cache.ttl ≤ now - e.timestamp

/-- Where nothing is evicted, the cache stays as complete as it was. -/
theorem Step.complete {now : ℤ} {s : Shared} {t : Caller} {e : Shared × Caller}
    (h : Step now s t e) (hclock : s.clock ≤ now) (hs : SharedHolds ttl s)
    (hcomplete : Store.EqFrom s.cache.ttl s.clock (contents s.cache) s.stored) :
    Store.EqFrom e.1.cache.ttl e.1.clock (contents e.1.cache) e.1.stored ↔
      ∀ url expected, t.call = .get url → t.stage = .evicting expected →
        ∀ old, s.cache.entries.get url = some old → s.cache.ttl ≤ now - old.timestamp := by
  have hlater : Store.EqFrom s.cache.ttl now (contents s.cache) s.stored := hcomplete.mono hclock
  cases h with
  | miss hcall hstage hnone =>
      exact iff_of_true hlater fun url expected _ h => by rw [hstage] at h; cases h
  | read hcall hstage hsome =>
      exact iff_of_true hlater fun url expected _ h => by rw [hstage] at h; cases h
  | expired hcall hstage hexpired =>
      exact iff_of_true hlater fun url expected _ h => by rw [hstage] at h; cases h
  | hit hcall hstage hfresh =>
      exact iff_of_true hlater fun url expected _ h => by rw [hstage] at h; cases h
  | @set url etag data hcall hstage =>
      refine iff_of_true ?_ fun url expected _ h => by rw [hstage] at h; cases h
      show Store.EqFrom s.cache.ttl now (contents (s.cache.set now url etag data))
        (s.stored.put now url (etag, data))
      rw [contents_set]
      exact hlater.put url (etag, data)
  | clear hcall hstage =>
      refine iff_of_true ?_ fun url expected _ h => by rw [hstage] at h; cases h
      exact Store.EqFrom.refl _ _ _
  | @evict url expected hcall hstage =>
      show Store.EqFrom s.cache.ttl now
        (contents { s.cache with entries := s.cache.entries.erase url }) s.stored ↔ _
      constructor
      · intro hafter url' expected' hcall' _ old hold
        rw [hcall, Call.get.injEq] at hcall'
        rw [← hcall'] at hold
        by_contra hfresh
        -- what was taken away could still be read
        have hcontents : contents s.cache url = some (stamped old) := by
          rw [contents, hold]
          rfl
        have hread := hafter now le_rfl url
        rw [Store.read, Store.read, contents_erase, if_pos rfl, hs.newest _ _ hcontents,
          Option.filter_none, eq_comm] at hread
        refine Option.filter_some_eq_none.mp hread ?_
        exact decide_eq_true (not_le.mp hfresh)
      · intro hharmless
        refine Store.EqFrom.trans (Store.Drops.eqFrom ?_) hlater
        constructor
        · intro u e he
          rw [contents_erase] at he
          split at he
          · cases he
          · exact he
        · intro u e he hgone
          rw [contents_erase] at hgone
          split at hgone
          · next hu =>
            rw [hu] at he
            obtain ⟨old, hold, rfl⟩ := Option.map_eq_some_iff.mp he
            exact decide_eq_false (not_lt.mpr (hharmless url expected hcall hstage old hold))
          · rw [he] at hgone
            cases hgone

/-- **The cache has been complete all along exactly if no eviction has taken away an entry that
had not expired.** -/
theorem complete_iff_harmless {moves : List (Move Call ℤ)} {s : Threads Shared Caller}
    (hrun : (calls ttl).machine.run moves = some s) :
    (∀ before after t, moves = before ++ after → (calls ttl).machine.run before = some t →
      Complete t) ↔ (calls ttl).machine.Throughout Harmless moves := by
  have hinit : Complete (calls ttl).machine.init := Store.EqFrom.refl _ _ _
  refine Machine.prefixes_iff_throughout hinit ?_ hrun
  intro before m t s ht hm hcomplete
  rcases m with call | ⟨i, now⟩
  · obtain rfl := Option.some.inj hm
    exact iff_of_true hcomplete trivial
  · obtain ⟨caller, shared, caller', hcaller, hstep, rfl⟩ := next_act_iff.mp hm
    obtain ⟨hclock, hstep⟩ := step_cases hstep
    refine (hstep.complete hclock (holds_of_moves ht).shared hcomplete).trans ?_
    constructor
    · intro h t' url expected ht' hcall hstage
      rw [hcaller, Option.some.injEq] at ht'
      rw [← ht'] at hcall hstage
      exact h url expected hcall hstage
    · intro h url expected hcall hstage
      exact h caller url expected hcaller hcall hstage

/-- What a complete cache misses has expired. -/
theorem Step.missed {now : ℤ} {s : Shared} {t : Caller} {e : Shared × Caller}
    (h : Step now s t e) (ht : CallerHolds t)
    (hcomplete : Store.EqFrom s.cache.ttl now (contents s.cache) s.stored)
    (expected : Option (Stamped Cached)) (hmissed : e.2.stage = .returned none expected) :
    expected = none := by
  cases h with
  | @miss url hcall hstage hnone =>
      obtain ⟨-, rfl⟩ := Stage.returned.inj hmissed
      have hread := hcomplete now le_rfl url
      have hcontents : contents s.cache url = none := by
        rw [contents, hnone]
        rfl
      rw [Store.read, hcontents, Option.filter_none] at hread
      exact hread.symm
  | read hcall hstage hsome => cases hmissed
  | expired hcall hstage hexpired => cases hmissed
  | hit hcall hstage hfresh => cases hmissed
  | evict hcall hstage =>
      obtain ⟨-, rfl⟩ := Stage.returned.inj hmissed
      exact ht.evicting _ hstage
  | set hcall hstage =>
      obtain ⟨-, rfl⟩ := Stage.returned.inj hmissed
      rfl
  | clear hcall hstage =>
      obtain ⟨-, rfl⟩ := Stage.returned.inj hmissed
      rfl

theorem missed_of_throughout {moves : List (Move Call ℤ)} {s : Threads Shared Caller}
    (hrun : (calls ttl).machine.run moves = some s)
    (hharmless : (calls ttl).machine.Throughout Harmless moves) {i : ℕ} {t : Caller}
    {expected : Option (Stamped Cached)} (ht : s.threads[i]? = some t)
    (hstage : t.stage = .returned none expected) : expected = none := by
  have hholds : Holds (fun s _ => SharedHolds ttl s ∧
      Store.EqFrom s.cache.ttl s.clock (contents s.cache) s.stored)
      (fun _ _ t => CallerHolds t ∧ ∀ expected, t.stage = .returned none expected →
        expected = none) s := by
    refine holds_of_throughout ?_ ?_ ?_ hrun hharmless
    · exact ⟨⟨rfl, fun u e he => by cases he⟩, Store.EqFrom.refl _ _ _⟩
    · exact fun shared n call h => ⟨h, ⟨nofun, nofun, nofun⟩, nofun⟩
    · intro s i now t shared t' h hP ht hstep
      obtain ⟨hclock, hstep⟩ := step_cases hstep
      obtain ⟨hshared, hcomplete⟩ := h.shared
      obtain ⟨hholds, -⟩ := h.thread i t ht
      obtain ⟨hshared', hown⟩ := hstep.holds hshared hholds
      have hcomplete' := (hstep.complete hclock hshared hcomplete).mpr fun url expected hcall hst =>
        hP t url expected ht hcall hst
      refine ⟨⟨hshared', hcomplete'⟩, ⟨hown, ?_⟩, fun _ _ _ _ hother => hother⟩
      exact hstep.missed hholds (hcomplete.mono hclock)
  exact (hholds.thread i t ht).2 expected hstage

/-- **What `Get` returns**: an entry only if it was stored last when the call read, and has not
expired since; and that entry, as long as the evictions are harmless. -/
theorem result_of_run {moves : List (Move Call ℤ)} {s : Threads Shared Caller}
    (hrun : (calls ttl).machine.run moves = some s) {i : ℕ} {t : Caller}
    {result : Option CacheEntry} {expected : Option (Stamped Cached)}
    (ht : s.threads[i]? = some t) (hstage : t.stage = .returned result expected) :
    (∀ e, result = some e → expected = some (stamped e)) ∧
      ((calls ttl).machine.Throughout Harmless moves → result.map stamped = expected) := by
  have hhit : ∀ e, result = some e → expected = some (stamped e) := by
    rintro e rfl
    exact ((holds_of_moves hrun).thread i t ht).hit e expected hstage
  refine ⟨hhit, fun hharmless => ?_⟩
  cases result with
  | some e => exact (hhit e rfl).symm
  | none => exact (missed_of_throughout hrun hharmless ht hstage).symm

/-! ## §4  A fresh entry that is lost -/

/-- A call has read an entry that has expired. Before it evicts that, another one is stored. -/
def racingMoves : List (Move Call ℤ) :=
  [.spawn (.set [1] "v1" []), .act 0 0, .spawn (.get [1]), .act 1 10, .act 1 10,
   .spawn (.set [1] "v2" []), .act 2 10, .act 1 10, .spawn (.get [1]), .act 3 10]

/-- The last call misses an entry that was stored at this very time. -/
theorem racing_not_harmless : ¬ (calls 9).machine.Throughout Harmless racingMoves := by
  intro hharmless
  obtain ⟨s, hrun, t, ht, hstage⟩ : ∃ s, (calls 9).machine.run racingMoves = some s ∧
      ∃ t, s.threads[3]? = some t ∧ t.stage = .returned none (some ⟨("v2", []), 10⟩) :=
    ⟨_, rfl, _, rfl, rfl⟩
  cases (result_of_run hrun ht hstage).2 hharmless

theorem racing_incomplete : ¬ ∀ before after t, racingMoves = before ++ after →
    (calls 9).machine.run before = some t → Complete t := by
  intro hcomplete
  obtain ⟨s, hrun⟩ : ∃ s, (calls 9).machine.run racingMoves = some s := ⟨_, rfl⟩
  have hharmless := (complete_iff_harmless hrun).mp hcomplete
  -- the step in which the first `Get` evicts
  have hevict := hharmless (racingMoves.take 7) (.act 1 10) (racingMoves.drop 8) _ rfl rfl
  have hold : (9 : ℤ) ≤ 10 - 10 := hevict _ [1] none rfl rfl rfl ⟨"v2", [], 10⟩ rfl
  omega

end SpecForge.Go.CacheAccess
