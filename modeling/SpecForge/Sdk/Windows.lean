import SpecForge.Go.RateLimit
import SpecForge.Rust.RateLimit

/-!
# The windows of the Go and the Rust client

What the Go client keeps of the requests that a sliding window let through, and the room that a
call has found when it is about to record its own (§1). No window is overfull as long as no call
has unlocked a mutex that another had locked: then only one call is inside at a time (§2). In
the Rust client a call is inside for one pass, and always alone; §3 is about both.
-/

namespace SpecForge.Go

open Lib Lib.Program Lib.Quota

universe u

variable {σ : Type u}

/-! ## §1  What is recorded -/

/-- The times at which requests were recorded. -/
def Lock.recorded (s : Lock σ) : List ℤ := s.takes.map Prod.snd

/-- The window keeps what it should, and no window is overfull as long as no call has unlocked a
mutex that another had locked. -/
structure WindowHolds (maxRequests window : ℤ) (s : Lock SlidingWindow) : Prop where
  maxRequests_eq : s.limiter.maxRequests = maxRequests
  window_eq : s.limiter.window = window
  kept : Quota.Kept window s.limiter.requests s.recorded s.clock
  windowed : Clean s → Windowed window maxRequests s.recorded

/-- A call that is about to record its request has found room for it. -/
def Roomy (s : Lock SlidingWindow) (c : Acquire) : Prop :=
  Clean s → s.crashed = false → c.pc = .take →
    (s.limiter.requests.length : ℤ) + 1 ≤ s.limiter.maxRequests

section Window

variable {maxRequests window : ℤ} {s s' : Lock SlidingWindow} {c : Acquire} {pc : Pc}

theorem WindowHolds.elapse (h : WindowHolds maxRequests window s) {now : ℤ} (hclock : s.clock ≤ now) :
    WindowHolds maxRequests window { s with clock := now } :=
  ⟨h.maxRequests_eq, h.window_eq, h.kept.elapse hclock, h.windowed⟩

theorem WindowHolds.unlock (h : WindowHolds maxRequests window s) (i : ℕ) :
    WindowHolds maxRequests window (s.unlock i) :=
  ⟨h.maxRequests_eq, h.window_eq, h.kept, fun hclean => h.windowed (clean_unlock_iff.mp hclean).1⟩

theorem WindowHolds.evict (h : WindowHolds maxRequests window s) :
    WindowHolds maxRequests window { s with limiter := s.limiter.evict s.clock } := by
  refine ⟨h.maxRequests_eq, h.window_eq, ?_, h.windowed⟩
  have hkept := h.kept.evict le_rfl
  rw [← h.window_eq] at hkept ⊢
  exact hkept

theorem WindowHolds.record (h : WindowHolds maxRequests window s) (hwindow : 0 < window) (i : ℕ)
    (hroom : Clean s → (s.limiter.requests.length : ℤ) + 1 ≤ s.limiter.maxRequests) :
    WindowHolds maxRequests window
      { s with
        limiter := { s.limiter with requests := s.limiter.requests ++ [s.clock] }
        takes := s.takes ++ [(i, s.clock)] } := by
  have hrecorded : (s.takes ++ [(i, s.clock)]).map Prod.snd = s.recorded ++ [s.clock] :=
    List.map_append
  refine ⟨h.maxRequests_eq, h.window_eq, ?_, ?_⟩
  · rw [Lock.recorded, hrecorded]
    exact h.kept.push le_rfl
  · intro hclean
    rw [Lock.recorded, hrecorded]
    refine h.kept.windowed_push hwindow le_rfl (h.windowed hclean) ?_
    rw [← h.maxRequests_eq]
    simpa using hroom hclean

/-- Of two calls, only one can be inside. -/
theorem not_inside_of_ne {i j : ℕ} {u : Acquire} (hi : Placed s i c) (hj : Placed s j u)
    (hij : j ≠ i) (hclean : Clean s) (hnot : s.crashed = false) (hin : c.pc.inside = true) :
    u.pc.inside = false := by
  by_contra hu
  rw [Bool.not_eq_false] at hu
  have hholder := hi.holder_of_inside hclean hnot hin
  rw [hj.holder_of_inside hclean hnot hu] at hholder
  exact hij (Option.some.inj hholder)

theorem Roomy.of_eq {u : Acquire} (h : Roomy s u) (hlimiter : s'.limiter = s.limiter)
    (hclean : Clean s' → Clean s) (hnot : s.crashed = false) : Roomy s' u := by
  intro hclean' _ hu
  rw [hlimiter]
  exact h (hclean hclean') hnot hu

/-- What a statement keeps of the window, and what it leaves of the room that others found. -/
theorem window_runs {i : ℕ} {now : ℤ} {e : Option ContextError} (hwindow : 0 < window)
    (hnow : s.clock = now) (hruns : Runs SlidingWindow.limiter i now s c.pc s' pc)
    (hnot : s.crashed = false)
    (hholds : WindowHolds maxRequests window s) (hplaced : Placed s i c) (hroom : Roomy s c) :
    WindowHolds maxRequests window s' ∧ Roomy s' ⟨pc, e⟩ ∧
      ∀ j u, j ≠ i → Placed s j u → Roomy s u → Roomy s' u := by
  subst hnow
  obtain ⟨at_, ended'⟩ := c
  have hout : ∀ j u, j ≠ i → Placed s j u → at_.inside = true → Clean s → u.pc ≠ .take := by
    intro j u hji hu hin hclean htake
    have houtside := not_inside_of_ne hplaced hu hji hclean hnot hin
    rw [htake] at houtside
    cases houtside
  cases hruns with
  | lock hfree =>
      refine ⟨⟨hholds.maxRequests_eq, hholds.window_eq, hholds.kept, hholds.windowed⟩, ?_, ?_⟩
      · intro _ _ h
        cases h
      · exact fun j u _ _ hu => hu.of_eq rfl id hnot
  | refresh =>
      refine ⟨hholds.evict, ?_, ?_⟩
      · intro _ _ h
        cases h
      · intro j u hji hu _ hclean _ htake
        exact absurd htake (hout j u hji hu rfl hclean)
  | full hmust =>
      refine ⟨hholds, ?_, fun j u _ _ hu => hu⟩
      intro _ _ h
      cases h
  | room hmust =>
      refine ⟨hholds, ?_, fun j u _ _ hu => hu⟩
      intro _ _ _
      have hfree := of_decide_eq_false hmust
      omega
  | unlock =>
      refine ⟨hholds.unlock i, ?_, ?_⟩
      · intro _ _ h
        cases h
      · exact fun j u _ _ hu => hu.of_eq rfl (fun h => (clean_unlock_iff.mp h).1) hnot
  | timer =>
      refine ⟨hholds, ?_, fun j u _ _ hu => hu⟩
      intro _ _ h
      cases h
  | take =>
      refine ⟨hholds.record hwindow i fun hclean => hroom hclean hnot rfl, ?_, ?_⟩
      · intro _ _ h
        cases h
      · intro j u hji hu _ hclean _ htake
        exact absurd htake (hout j u hji hu rfl hclean)
  | deferred =>
      refine ⟨hholds.unlock i, ?_, ?_⟩
      · intro _ _ h
        cases h
      · exact fun j u _ _ hu => hu.of_eq rfl (fun h => (clean_unlock_iff.mp h).1) hnot

end Window

/-! ## §2  Runs -/

theorem windowHolds_of_run {maxRequests window start : ℤ} {moves : List (Move Unit Action)}
    {s : Threads (Lock SlidingWindow) Acquire} (hmax : 0 ≤ maxRequests) (hwindow : 0 < window)
    (hrun : (acquires SlidingWindow.limiter (.new maxRequests window) start).machine.run moves =
      some s) : WindowHolds maxRequests window s.shared := by
  have hboth : WindowHolds maxRequests window s.shared ∧
      ∀ (i : ℕ) c, s.threads[i]? = some c → Roomy s.shared c := by
    refine Machine.run_invariant (I := fun _ (s : Threads (Lock SlidingWindow) Acquire) =>
      WindowHolds maxRequests window s.shared ∧
        ∀ (i : ℕ) c, s.threads[i]? = some c → Roomy s.shared c) ?_ ?_ hrun
    · refine ⟨⟨rfl, rfl, kept_nil window start, fun _ => windowed_nil (by simpa using hmax)⟩, ?_⟩
      intro i c h
      cases h
    · intro moves m t s ht ⟨hwin, hrooms⟩ hs
      rcases m with _ | ⟨i, a⟩
      · obtain rfl := Option.some.inj hs
        refine ⟨hwin, fun j u hu => ?_⟩
        rcases getElem?_concat_iff.mp hu with ⟨rfl, rfl⟩ | hu
        · intro _ _ h
          cases h
        · exact hrooms j u hu
      · obtain ⟨c, shared, c', hc, hstep, rfl⟩ := next_act_iff.mp hs
        have hthread := (lockHolds_of_run ht).thread
        obtain ⟨hnot, ⟨now, rfl, hclock, hruns, -⟩ | ⟨until_, e, rfl, hpc, rfl, rfl⟩ |
          ⟨e, rfl, rfl, rfl⟩⟩ := acquireStep_cases hstep
        · have hlater : ∀ (j : ℕ) u, t.threads[j]? = some u →
              Placed { t.shared with clock := now } j u := fun j u hu =>
            ⟨(hthread j u hu).inside_of_holder, (hthread j u hu).holder_of_inside,
              (hthread j u hu).taken⟩
          obtain ⟨hwin', hroom, hothers⟩ := window_runs (s := { t.shared with clock := now })
            (e := c'.ended) hwindow rfl hruns hnot (hwin.elapse hclock) (hlater i c hc)
            (hrooms i c hc)
          refine ⟨hwin', fun j u hu => ?_⟩
          rcases (getElem?_set_iff hc).mp hu with ⟨rfl, rfl⟩ | ⟨hji, hu⟩
          · exact hroom
          · exact hothers j u hji (hlater j u hu) (hrooms j u hu)
        · refine ⟨hwin, fun j u hu => ?_⟩
          rcases (getElem?_set_iff hc).mp hu with ⟨rfl, rfl⟩ | ⟨-, hu⟩
          · intro _ _ h
            cases h
          · exact hrooms j u hu
        · refine ⟨hwin, fun j u hu => ?_⟩
          rcases (getElem?_set_iff hc).mp hu with ⟨rfl, rfl⟩ | ⟨-, hu⟩
          · exact hrooms j c hc
          · exact hrooms j u hu
  exact hboth.1

/-- The mutex of a call is unlocked by one whose wait was ended, when both have found the window
free again. -/
def acquireUnprotected : List (Move Unit Action) :=
  acquireOnce 0 0 ++ .spawn () :: List.replicate 4 (.act 1 (.next 0)) ++
    .spawn () :: List.replicate 3 (.act 2 (.next 1000)) ++
    [.act 1 (.cancel .canceled), .act 1 .done, .act 1 (.next 1000)] ++
    .spawn () :: List.replicate 4 (.act 3 (.next 1000)) ++ [.act 2 (.next 1000)]

end SpecForge.Go

/-! ## §3  Both clients -/

namespace SpecForge

open Lib Lib.Quota

/-- The windows of both clients are kept, in every state of a run. -/
def BothWindowed (maxRequests window : ℕ) (start : ℤ) : Prop :=
  (∀ (moves : List (Move Unit Go.Action)) (s : Threads (Go.Lock Go.SlidingWindow) Go.Acquire),
    (Go.acquires Go.SlidingWindow.limiter (.new maxRequests window) start).machine.run moves =
      some s → Windowed (window : ℤ) (maxRequests : ℤ) s.shared.recorded) ∧
  ∀ (earliest : ℤ) (moves : List (Move Unit Rust.Action)) (s : Threads Rust.Window Rust.Caller),
    (Rust.acquires earliest maxRequests window start).machine.run moves = some s →
      Windowed (window : ℤ) (maxRequests : ℤ) s.shared.recorded

theorem not_bothWindowed : ¬∀ (maxRequests window : ℕ) (start : ℤ), 1 ≤ maxRequests → 0 < window →
    BothWindowed maxRequests window start := by
  intro h
  obtain ⟨s, hs, hrecorded⟩ : ∃ s, (Go.acquires Go.SlidingWindow.limiter (.new 1 1000)
      0).machine.run Go.acquireUnprotected = some s ∧ s.shared.recorded = [0, 1000, 1000] :=
    ⟨_, rfl, rfl⟩
  have hwindow := ((h 1 1000 0 le_rfl (by decide)).1 _ s hs 1000).1
  rw [hrecorded] at hwindow
  revert hwindow
  decide

/-- **No window is overfull in the Rust client, nor in the Go client as long as no call whose wait
was ended by its context unlocks a mutex that another has locked.** -/
theorem windowed_of_takesNoLock (maxRequests window : ℕ) (start : ℤ) (hwindow : 0 < window) :
    (∀ (moves : List (Move Unit Go.Action)) (s : Threads (Go.Lock Go.SlidingWindow) Go.Acquire),
      (Go.acquires Go.SlidingWindow.limiter (.new maxRequests window) start).machine.run moves =
        some s →
      (Go.acquires Go.SlidingWindow.limiter (.new maxRequests window) start).machine.Throughout
        Go.TakesNoLock moves → Windowed (window : ℤ) (maxRequests : ℤ) s.shared.recorded) ∧
    ∀ (earliest : ℤ) (moves : List (Move Unit Rust.Action)) (s : Threads Rust.Window Rust.Caller),
      (Rust.acquires earliest maxRequests window start).machine.run moves = some s →
        Windowed (window : ℤ) (maxRequests : ℤ) s.shared.recorded := by
  constructor
  · intro moves s hrun hthroughout
    have hholds := Go.windowHolds_of_run (Int.natCast_nonneg maxRequests)
      (Int.natCast_pos.mpr hwindow) hrun
    exact hholds.windowed ((Go.clean_iff_throughout hrun).mpr hthroughout)
  · intro earliest moves s hrun
    exact (Rust.windowHolds_of_run hrun).windowed hwindow

/-- Two requests in each client, the second after a wait. -/
theorem windowed_of_takesNoLock_wait :
    (∃ s, (Go.acquires Go.SlidingWindow.limiter (.new 1 1000) 0).machine.run
      (Go.acquireAndWait 1000) = some s ∧ s.shared.recorded = [0, 1000] ∧
        Windowed 1000 1 s.shared.recorded) ∧
    ∃ s, (Rust.acquires (-1000) 1 1000 0).machine.run
      (Rust.acquireTwice 999 ++ [.act 1 (.wake 1000), .act 1 (.pass 1000 1000)]) = some s ∧
        s.shared.recorded = [0, 1000] ∧ Windowed 1000 1 s.shared.recorded := by
  obtain ⟨hgo, hrust⟩ := windowed_of_takesNoLock 1 1000 0 (by decide)
  obtain ⟨s, hs, hrecorded, hunlocks⟩ : ∃ s, (Go.acquires Go.SlidingWindow.limiter (.new 1 1000)
      0).machine.run (Go.acquireAndWait 1000) = some s ∧ s.shared.recorded = [0, 1000] ∧
        s.shared.unlocks = [⟨0, some 0⟩, ⟨1, some 1⟩, ⟨1, some 1⟩] := ⟨_, rfl, rfl, rfl⟩
  obtain ⟨s', hs', hrecorded'⟩ : ∃ s, (Rust.acquires (-1000) 1 1000 0).machine.run
      (Rust.acquireTwice 999 ++ [.act 1 (.wake 1000), .act 1 (.pass 1000 1000)]) = some s ∧
        s.shared.recorded = [0, 1000] := ⟨_, rfl, rfl⟩
  refine ⟨⟨s, hs, hrecorded, hgo _ s hs ?_⟩, s', hs', hrecorded', hrust _ _ s' hs'⟩
  refine (Go.clean_iff_throughout hs).mp fun u hu => ?_
  have hwaits : ∀ u ∈ [⟨0, some 0⟩, ⟨1, some 1⟩, (⟨1, some 1⟩ : Go.Unlock)],
      ∀ h ∈ u.holder, h = u.caller := by decide
  exact hwaits u (hunlocks ▸ hu)

end SpecForge
