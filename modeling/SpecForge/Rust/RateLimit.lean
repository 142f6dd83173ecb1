import SpecForge.Lib.Quota
import SpecForge.Lib.Threads

/-!
# The sliding window of the Rust client

One pass through the loop of `acquire` reads the clock twice (§1), and its subtractions panic
when they underflow; the passes of all callers come in any order (§2). §3 says when no pass
panics, §4 that no window is overfull.
-/

namespace SpecForge.Rust

open Lib Lib.Program Lib.Quota

/-! ## §1  One pass -/

/-- Instants and durations are in nanoseconds. -/
structure SlidingWindow where
  requests : List ℤ
  maxRequests : ℕ
  window : ℕ
deriving DecidableEq

def SlidingWindow.new (maxRequests window : ℕ) : SlidingWindow := ⟨[], maxRequests, window⟩

/-- `Instant - Duration`, for a clock that cannot tell what is earlier than this. -/
def instantSub (earliest t : ℤ) (d : ℕ) : Option ℤ :=
  if earliest ≤ t - d then some (t - d) else none

/-- `duration_since` is zero for a later instant. -/
def durationSince (t earlier : ℤ) : ℕ := (t - earlier).toNat

/-- `Duration - Duration`. -/
def durationSub (d d' : ℕ) : Option ℕ := if d' ≤ d then some (d - d') else none

inductive Pass where
  | admitted
  | waits (wait : ℕ)
  /-- Without a place for a request there is no oldest one to wait for. -/
  | spins
  | panicked
deriving DecidableEq

/-- `retain`. -/
def SlidingWindow.retain (sw : SlidingWindow) (cutoff : ℤ) : SlidingWindow :=
  { sw with requests := sw.requests.filter fun t => decide (cutoff < t) }

/-- The wait of a caller that finds the window full. -/
def SlidingWindow.wait (sw : SlidingWindow) (now : ℤ) : Pass :=
  match sw.requests with
  | [] => .spins
  | oldest :: _ =>
      match durationSub sw.window (durationSince now oldest) with
      | some wait => .waits wait
      | none => .panicked

/-- What happens while the mutex is locked. The clock is read first for the cutoff, then for
the record or for the wait. -/
def SlidingWindow.pass (earliest : ℤ) (sw : SlidingWindow) (t₁ t₂ : ℤ) : SlidingWindow × Pass :=
  match instantSub earliest t₁ sw.window with
  | none => (sw, .panicked)
  | some cutoff =>
      let sw := sw.retain cutoff
      if sw.requests.length < sw.maxRequests then
        ({ sw with requests := sw.requests ++ [t₂] }, .admitted)
      else (sw, sw.wait t₂)

/-! ## §2  Its callers -/

inductive Caller where
  | ready
  | sleeping (until_ : ℤ)
  | returned
  | panicked
  /-- The future was dropped. -/
  | dropped
deriving DecidableEq

/-- The window, the clock, and the times of all requests that were recorded. -/
structure Window where
  window : SlidingWindow
  clock : ℤ
  recorded : List ℤ
deriving DecidableEq

inductive Action where
  | pass (t₁ t₂ : ℤ)
  | wake (now : ℤ)
  | drop
deriving DecidableEq

/-- Where a pass leaves its caller. -/
def Caller.after (now : ℤ) : Pass → Caller
  | .admitted => .returned
  | .waits wait => .sleeping (now + wait)
  | .spins => .ready
  | .panicked => .panicked

/-- The clock does not go back, and a sleep is not too short. -/
def acquireStep (earliest : ℤ) (_ : ℕ) (a : Action) (s : Window) (c : Caller) :
    Option (Window × Caller) :=
  match a, c with
  | .pass t₁ t₂, .ready =>
      if s.clock ≤ t₁ ∧ t₁ ≤ t₂ then
        let (window, pass) := s.window.pass earliest t₁ t₂
        let recorded := if pass = .admitted then s.recorded ++ [t₂] else s.recorded
        some (⟨window, t₂, recorded⟩, .after t₂ pass)
      else none
  | .wake now, .sleeping until_ =>
      if s.clock ≤ now ∧ until_ ≤ now then some ({ s with clock := now }, .ready) else none
  | .drop, .ready => some (s, .dropped)
  | .drop, .sleeping _ => some (s, .dropped)
  | _, _ => none

/-- All calls of `acquire` on one window. -/
def acquires (earliest : ℤ) (maxRequests window : ℕ) (start : ℤ) :
    Program Window Caller Unit Action where
  init := ⟨.new maxRequests window, start, []⟩
  start _ := .ready
  step := acquireStep earliest

/-! ## §3  Panics -/

theorem instantSub_eq_none_iff {earliest t : ℤ} {d : ℕ} :
    instantSub earliest t d = none ↔ ¬earliest ≤ t - d := by
  rw [instantSub]
  split
  · next h => exact iff_of_false (by simp) (not_not.mpr h)
  · next h => exact iff_of_true rfl h

theorem instantSub_eq_some_iff {earliest t cutoff : ℤ} {d : ℕ} :
    instantSub earliest t d = some cutoff ↔ earliest ≤ t - d ∧ cutoff = t - d := by
  rw [instantSub]
  split
  · next h => simp [h, eq_comm]
  · next h => exact iff_of_false (by simp) fun hand => h hand.1

theorem durationSub_durationSince_eq_none_iff {d : ℕ} {t earlier : ℤ} :
    durationSub d (durationSince t earlier) = none ↔ ¬t - earlier ≤ d := by
  rw [durationSub]
  split
  · next h =>
      refine iff_of_false (by simp) (not_not.mpr ?_)
      rw [durationSince] at h
      omega
  · next h =>
      refine iff_of_true rfl ?_
      rw [durationSince] at h
      omega

/-- In order, the first of the times is the oldest. -/
theorem wait_eq_panicked_iff {sw : SlidingWindow} {now : ℤ} (hsorted : sw.requests.Pairwise (· ≤ ·)) :
    sw.wait now = .panicked ↔ ¬∀ t ∈ sw.requests, now - t ≤ sw.window := by
  unfold SlidingWindow.wait
  split
  · next h => exact iff_of_false (by simp) (by simp [h])
  · next oldest rest h =>
      rw [h, List.pairwise_cons] at hsorted
      have hall : (∀ t ∈ sw.requests, now - t ≤ sw.window) ↔ now - oldest ≤ sw.window := by
        rw [h]
        constructor
        · exact fun hall => hall oldest List.mem_cons_self
        · intro holdest t ht
          rcases List.mem_cons.mp ht with rfl | ht
          · exact holdest
          · have hle := hsorted.1 t ht
            omega
      rw [hall, ← durationSub_durationSince_eq_none_iff]
      split
      · next hsub => simp [hsub]
      · next hsub => simp [hsub]

/-- The clock can tell the cutoff, and no request leaves a full window between the two
readings. -/
structure SlidingWindow.Subtracts (earliest : ℤ) (sw : SlidingWindow) (t₁ t₂ : ℤ) : Prop where
  cutoff : earliest ≤ t₁ - sw.window
  stays : sw.maxRequests ≤ countAfter (t₁ - sw.window) sw.requests →
    ∀ t ∈ sw.requests, t₁ - sw.window < t → t₂ - t ≤ sw.window

/-- What a pass can do. -/
theorem pass_cases (earliest : ℤ) (sw : SlidingWindow) (t₁ t₂ : ℤ) :
    (¬earliest ≤ t₁ - sw.window ∧ sw.pass earliest t₁ t₂ = (sw, .panicked)) ∨
      earliest ≤ t₁ - sw.window ∧
        ((countAfter (t₁ - sw.window) sw.requests < sw.maxRequests ∧
            sw.pass earliest t₁ t₂ =
              ({ sw with requests := (sw.retain (t₁ - sw.window)).requests ++ [t₂] }, .admitted)) ∨
          sw.maxRequests ≤ countAfter (t₁ - sw.window) sw.requests ∧
            sw.pass earliest t₁ t₂ =
              (sw.retain (t₁ - sw.window), (sw.retain (t₁ - sw.window)).wait t₂)) := by
  have hlength : countAfter (t₁ - sw.window) sw.requests =
      (sw.retain (t₁ - sw.window)).requests.length := List.countP_eq_length_filter
  rw [SlidingWindow.pass, hlength]
  rcases hcutoff : instantSub earliest t₁ sw.window with _ | cutoff
  · left
    exact ⟨instantSub_eq_none_iff.mp hcutoff, rfl⟩
  · right
    obtain ⟨htells, rfl⟩ := instantSub_eq_some_iff.mp hcutoff
    refine ⟨htells, ?_⟩
    dsimp only
    split
    · next hroom => exact Or.inl ⟨hroom, rfl⟩
    · next hfull => exact Or.inr ⟨Nat.not_lt.mp hfull, rfl⟩

theorem pass_eq_panicked_iff {earliest t₁ t₂ : ℤ} {sw : SlidingWindow}
    (hsorted : sw.requests.Pairwise (· ≤ ·)) :
    (sw.pass earliest t₁ t₂).2 = .panicked ↔ ¬sw.Subtracts earliest t₁ t₂ := by
  rcases pass_cases earliest sw t₁ t₂ with ⟨hnot, h⟩ | ⟨htells, ⟨hroom, h⟩ | ⟨hfull, h⟩⟩
  · rw [h]
    exact iff_of_true rfl fun hsub => hnot hsub.cutoff
  · rw [h]
    refine iff_of_false (by simp) (not_not.mpr ⟨htells, fun hfull => ?_⟩)
    exact absurd hroom (Nat.not_lt.mpr hfull)
  · rw [h, wait_eq_panicked_iff (hsorted.filter _), not_iff_not]
    constructor
    · intro hall
      refine ⟨htells, fun _ t ht hlt => hall t ?_⟩
      exact List.mem_filter.mpr ⟨ht, decide_eq_true hlt⟩
    · intro hsub t ht
      obtain ⟨hmem, hlt⟩ := List.mem_filter.mp ht
      exact hsub.stays hfull t hmem (of_decide_eq_true hlt)

/-! ## §4  Runs -/

/-- The shared state after a pass. -/
def Window.passed (earliest : ℤ) (t₁ t₂ : ℤ) (s : Window) : Window :=
  { window := (s.window.pass earliest t₁ t₂).1
    clock := t₂
    recorded :=
      if (s.window.pass earliest t₁ t₂).2 = .admitted then s.recorded ++ [t₂] else s.recorded }

theorem acquireStep_cases {earliest : ℤ} {i : ℕ} {a : Action} {s s' : Window} {c c' : Caller}
    (h : acquireStep earliest i a s c = some (s', c')) :
    (∃ t₁ t₂, a = .pass t₁ t₂ ∧ c = .ready ∧ s.clock ≤ t₁ ∧ t₁ ≤ t₂ ∧
        s' = s.passed earliest t₁ t₂ ∧ c' = .after t₂ (s.window.pass earliest t₁ t₂).2) ∨
      (∃ now until_, a = .wake now ∧ c = .sleeping until_ ∧ s.clock ≤ now ∧
        s' = { s with clock := now } ∧ c' = .ready) ∨
      a = .drop ∧ c ≠ .panicked ∧ s' = s ∧ c' = .dropped := by
  unfold acquireStep at h
  split at h
  · next t₁ t₂ =>
      split at h
      · next hclock =>
          cases h
          exact Or.inl ⟨t₁, t₂, rfl, rfl, hclock.1, hclock.2, rfl, rfl⟩
      · cases h
  · next now until_ =>
      split at h
      · next hclock =>
          cases h
          exact Or.inr (Or.inl ⟨now, until_, rfl, rfl, hclock.1, rfl, rfl⟩)
      · cases h
  · cases h
    exact Or.inr (Or.inr ⟨rfl, by simp, rfl, rfl⟩)
  · cases h
    exact Or.inr (Or.inr ⟨rfl, by simp, rfl, rfl⟩)
  · cases h

theorem after_eq_panicked_iff {now : ℤ} {pass : Pass} :
    Caller.after now pass = .panicked ↔ pass = .panicked := by
  cases pass <;> simp [Caller.after]

/-- The window keeps what it should, and no window of a positive length is overfull. -/
structure WindowHolds (maxRequests window : ℕ) (s : Window) : Prop where
  maxRequests_eq : s.window.maxRequests = maxRequests
  window_eq : s.window.window = window
  kept : Quota.Kept (window : ℤ) s.window.requests s.recorded s.clock
  windowed : 0 < window → Windowed (window : ℤ) (maxRequests : ℤ) s.recorded

namespace WindowHolds

variable {maxRequests window : ℕ} {s : Window} {now : ℤ}

theorem elapse (h : WindowHolds maxRequests window s) (hclock : s.clock ≤ now) :
    WindowHolds maxRequests window { s with clock := now } :=
  ⟨h.maxRequests_eq, h.window_eq, h.kept.elapse hclock, h.windowed⟩

theorem retain (h : WindowHolds maxRequests window s) (hclock : s.clock ≤ now) :
    WindowHolds maxRequests window
      { s with window := s.window.retain (now - s.window.window), clock := now } := by
  refine ⟨h.maxRequests_eq, h.window_eq, ?_, h.windowed⟩
  show Quota.Kept _ (s.window.requests.filter fun t => decide (now - s.window.window < t)) _ _
  rw [filter_eq_dropWhile h.kept.kept_sorted, h.window_eq]
  exact h.kept.evict hclock

theorem push (h : WindowHolds maxRequests window s) (hclock : s.clock ≤ now)
    (hroom : s.window.requests.length < maxRequests) :
    WindowHolds maxRequests window
      ⟨{ s.window with requests := s.window.requests ++ [now] }, now, s.recorded ++ [now]⟩ := by
  refine ⟨h.maxRequests_eq, h.window_eq, h.kept.push hclock, ?_⟩
  intro hwindow
  refine h.kept.windowed_push (Int.natCast_pos.mpr hwindow) hclock (h.windowed hwindow) ?_
  exact_mod_cast hroom

theorem passed (h : WindowHolds maxRequests window s) {earliest t₁ t₂ : ℤ}
    (hfirst : s.clock ≤ t₁) (hsecond : t₁ ≤ t₂) :
    WindowHolds maxRequests window (s.passed earliest t₁ t₂) := by
  rw [Window.passed]
  rcases pass_cases earliest s.window t₁ t₂ with ⟨-, hpass⟩ | ⟨-, ⟨hroom, hpass⟩ | ⟨-, hpass⟩⟩
  · rw [hpass]
    exact h.elapse (hfirst.trans hsecond)
  · rw [hpass, if_pos rfl]
    refine (h.retain hfirst).push hsecond ?_
    rwa [countAfter, List.countP_eq_length_filter, h.maxRequests_eq] at hroom
  · rw [hpass, if_neg (by unfold SlidingWindow.wait; repeat' split <;> simp)]
    exact (h.retain hfirst).elapse hsecond

end WindowHolds

section Runs

variable {earliest start : ℤ} {maxRequests window : ℕ} {moves : List (Move Unit Action)}
  {s : Threads Window Caller}

theorem windowHolds_of_run
    (hrun : (acquires earliest maxRequests window start).machine.run moves = some s) :
    WindowHolds maxRequests window s.shared := by
  have hholds : Holds (fun shared _ => WindowHolds maxRequests window shared)
      (fun _ _ _ => True) s := by
    refine holds_of_run ?_ ?_ ?_ hrun
    · exact ⟨rfl, rfl, kept_nil _ _, fun _ => windowed_nil (Int.natCast_nonneg _)⟩
    · exact fun shared n r h => ⟨h, trivial⟩
    · intro s i a c shared c' h hc hstep
      refine ⟨?_, trivial, fun _ _ _ _ _ => trivial⟩
      rcases acquireStep_cases (i := i) hstep with ⟨t₁, t₂, -, -, hfirst, hsecond, rfl, -⟩ |
        ⟨now, until_, -, -, hclock, rfl, -⟩ | ⟨-, -, rfl, -⟩
      · exact h.shared.passed hfirst hsecond
      · exact h.shared.elapse hclock
      · exact h.shared
  exact hholds.shared

/-- No call has panicked. -/
def Calm (s : Threads Window Caller) : Prop :=
  ∀ (i : ℕ) (c : Caller), s.threads[i]? = some c → c ≠ .panicked

/-- The subtractions of a pass do not underflow. -/
def SubtractsThen (earliest : ℤ) (s : Threads Window Caller) : Move Unit Action → Prop
  | .act _ (.pass t₁ t₂) => s.shared.window.Subtracts earliest t₁ t₂
  | _ => True

end Runs

/-- **No call panics exactly as long as every pass can tell its cutoff and no request leaves a
full window between its two readings of the clock.** -/
theorem calm_iff_throughout (earliest : ℤ) (maxRequests window : ℕ) (start : ℤ)
    (moves : List (Move Unit Action)) (s : Threads Window Caller)
    (hrun : (acquires earliest maxRequests window start).machine.run moves = some s) :
    Calm s ↔ (acquires earliest maxRequests window start).machine.Throughout
      (SubtractsThen earliest) moves := by
  refine Machine.holds_iff_throughout ?_ ?_ hrun
  · intro i c h
    cases h
  · intro moves m t s ht hs
    rcases m with r | ⟨i, a⟩
    · obtain rfl := Option.some.inj hs
      refine forall_spawn_iff.trans (and_congr_right fun _ => ?_)
      exact iff_of_true (fun hready => Caller.noConfusion hready) trivial
    · obtain ⟨c, shared, c', hc, hstep, rfl⟩ := next_act_iff.mp hs
      rcases acquireStep_cases (i := i) hstep with ⟨t₁, t₂, rfl, rfl, -, -, -, rfl⟩ |
        ⟨now, until_, rfl, rfl, -, -, rfl⟩ | ⟨rfl, hc', -, rfl⟩
      · have hsorted := (windowHolds_of_run ht).kept.kept_sorted
        refine (forall_set_iff hc (by simp)).trans (and_congr_right fun _ => ?_)
        rw [Ne, after_eq_panicked_iff, pass_eq_panicked_iff hsorted, not_not]
        exact Iff.rfl
      · exact (forall_set_iff hc (by simp)).trans (by simp [SubtractsThen, Calm])
      · exact (forall_set_iff hc hc').trans (by simp [SubtractsThen, Calm])

/-- One request is let through; the next finds it in the window, and then reads the clock again. -/
def acquireTwice (again : ℤ) : List (Move Unit Action) :=
  [.spawn (), .act 0 (.pass 0 0), .spawn (), .act 1 (.pass 999 again)]

theorem second_reading_panics : ¬∀ (earliest : ℤ) (maxRequests window : ℕ) (start : ℤ)
    (moves : List (Move Unit Action)) (s : Threads Window Caller), 1 ≤ maxRequests →
      (acquires earliest maxRequests window start).machine.run moves = some s → Calm s := by
  intro h
  obtain ⟨s, hs, hc⟩ : ∃ s, (acquires (-1000) 1 1000 0).machine.run (acquireTwice 1001) = some s ∧
      s.threads[1]? = some Caller.panicked := ⟨_, rfl, rfl⟩
  exact h _ _ _ _ _ s le_rfl hs 1 _ hc rfl

theorem calm_iff_throughout_twice :
    ∃ s, (acquires (-1000) 1 1000 0).machine.run (acquireTwice 1000) = some s ∧
      (Calm s ↔ (acquires (-1000) 1 1000 0).machine.Throughout (SubtractsThen (-1000))
        (acquireTwice 1000)) := by
  obtain ⟨s, hs⟩ : ∃ s, (acquires (-1000) 1 1000 0).machine.run (acquireTwice 1000) = some s :=
    ⟨_, rfl⟩
  exact ⟨s, hs, calm_iff_throughout _ _ _ _ _ s hs⟩

end SpecForge.Rust
