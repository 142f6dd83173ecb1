import SpecForge.Lib.Machine
import SpecForge.Lib.Quota
import Mathlib.Data.List.Sort
import Mathlib.Data.List.TakeWhile

/-!
# The sliding window of the client

`SlidingWindow` keeps the times of the requests in its window (§1). A caller that finds the
window full waits for the timer and is then let through, without a second look; the pieces of
all callers come in any order (§2). What is kept is what was let through and has not left the
window (§3), and no window is overfull exactly if every caller that comes back from the timer
finds room (§4).
-/

namespace SpecForge.Ts

open Lib Lib.Quota

/-! ## §1  The window -/

structure SlidingWindow where
  requests : List ℚ
  maxRequests : ℚ
  windowMs : ℚ
  deriving DecidableEq

namespace SlidingWindow

def new (maxRequests windowMs : ℚ) : SlidingWindow := ⟨[], maxRequests, windowMs⟩

def evict (w : SlidingWindow) (now : ℚ) : SlidingWindow :=
  let cutoff := now - w.windowMs
  { w with requests := w.requests.dropWhile fun r => decide (r ≤ cutoff) }

def isFull (w : SlidingWindow) : Bool := decide (w.maxRequests ≤ w.requests.length)

/-- What is asked of the timer, if that is positive; with no oldest request it is not a
number. -/
def waitMs (w : SlidingWindow) (now : ℚ) : Option ℚ :=
  match w.requests with
  | [] => none
  | oldest :: _ =>
      let wait := w.windowMs - (now - oldest)
      if 0 < wait then some wait else none

def push (w : SlidingWindow) (now : ℚ) : SlidingWindow :=
  { w with requests := w.requests ++ [now] }

/-- The end of `acquire` after its branch for a full window. -/
def goOn (w : SlidingWindow) (t₃ t₄ : ℚ) : SlidingWindow := (w.evict t₃).push t₄

/-- `acquire` up to its wait, which is the result, or to its end. The readings of the clock
are those at the first eviction, before the wait, at the second eviction and at the end. -/
def acquire (w : SlidingWindow) (t₁ t₂ t₃ t₄ : ℚ) : SlidingWindow × Option ℚ :=
  let w := w.evict t₁
  if w.isFull then
    match w.waitMs t₂ with
    | some wait => (w, some wait)
    | none => (w.goOn t₃ t₄, none)
  else
    (w.push t₄, none)

/-! ## §2  Its callers -/

/-- The waits that have not ended, and the times at which requests were let through. -/
structure Callers where
  window : SlidingWindow
  waits : List ℚ
  completed : List ℚ
  clock : ℚ
  deriving DecidableEq

/-- A caller comes, or one that waits goes on. The timer may be early or late. -/
inductive Event where
  | call (t₁ t₂ t₃ t₄ : ℚ)
  | resume (i : ℕ) (t₃ t₄ : ℚ)

/-- The clock does not go back. -/
def Callers.step (s : Callers) : Event → Option Callers
  | .call t₁ t₂ t₃ t₄ =>
      if s.clock ≤ t₁ ∧ t₁ ≤ t₂ ∧ t₂ ≤ t₃ ∧ t₃ ≤ t₄ then
        match s.window.acquire t₁ t₂ t₃ t₄ with
        | (window, some wait) => some ⟨window, s.waits ++ [wait], s.completed, t₂⟩
        | (window, none) => some ⟨window, s.waits, s.completed ++ [t₄], t₄⟩
      else
        none
  | .resume i t₃ t₄ =>
      if s.clock ≤ t₃ ∧ t₃ ≤ t₄ ∧ i < s.waits.length then
        some ⟨s.window.goOn t₃ t₄, s.waits.eraseIdx i, s.completed ++ [t₄], t₄⟩
      else
        none

def system (maxRequests windowMs start : ℚ) : Machine Callers Event :=
  ⟨⟨new maxRequests windowMs, [], [], start⟩, Callers.step⟩

/-! ## §3  What is kept -/

/-- What a window keeps of the times at which requests were let through, at this time. -/
structure Keeps (maxRequests windowMs : ℚ) (w : SlidingWindow) (completed : List ℚ)
    (clock : ℚ) : Prop where
  maxRequests_eq : w.maxRequests = maxRequests
  windowMs_eq : w.windowMs = windowMs
  sorted : completed.Pairwise (· ≤ ·)
  past : ∀ t ∈ completed, t ≤ clock
  kept : ∃ left, completed = left ++ w.requests ∧ ∀ t ∈ left, t ≤ clock - windowMs

namespace Keeps

variable {maxRequests windowMs : ℚ} {w : SlidingWindow} {completed : List ℚ} {clock now : ℚ}

theorem toKept (h : Keeps maxRequests windowMs w completed clock) :
    Quota.Kept windowMs w.requests completed clock := ⟨h.sorted, h.past, h.kept⟩

/-- The same window with other requests, of which it keeps what it should. -/
theorem withKept (h : Keeps maxRequests windowMs w completed clock) {requests later : List ℚ}
    (hkept : Quota.Kept windowMs requests later now) :
    Keeps maxRequests windowMs { w with requests := requests } later now :=
  ⟨h.maxRequests_eq, h.windowMs_eq, hkept.sorted, hkept.past, hkept.split⟩

theorem elapse (h : Keeps maxRequests windowMs w completed clock) (hclock : clock ≤ now) :
    Keeps maxRequests windowMs w completed now := h.withKept (h.toKept.elapse hclock)

theorem evict (h : Keeps maxRequests windowMs w completed clock) (hclock : clock ≤ now) :
    Keeps maxRequests windowMs (w.evict now) completed now := by
  have hkept := h.toKept.evict hclock
  rw [← h.windowMs_eq] at hkept
  exact h.withKept (h.windowMs_eq ▸ hkept)

theorem push (h : Keeps maxRequests windowMs w completed clock) (hclock : clock ≤ now) :
    Keeps maxRequests windowMs (w.push now) (completed ++ [now]) now :=
  h.withKept (h.toKept.push hclock)

/-- What has left the window is not counted in one that ends later. -/
theorem countAfter_eq (h : Keeps maxRequests windowMs w completed clock) (hclock : clock ≤ now) :
    countAfter (now - windowMs) completed = countAfter (now - windowMs) w.requests :=
  h.toKept.countAfter_eq hclock

/-- An eviction leaves what is in the window. -/
theorem mem_evict (h : Keeps maxRequests windowMs w completed clock) {t : ℚ}
    (ht : t ∈ (w.evict now).requests) : now - windowMs < t := by
  rw [SlidingWindow.evict, h.windowMs_eq] at ht
  exact lt_of_mem_dropWhile h.toKept.kept_sorted ht

end Keeps

/-! ## §4  Runs -/

/-- One more request fits in the window that ends at this time. -/
def HasRoom (w : SlidingWindow) (now : ℚ) : Prop :=
  (countAfter (now - w.windowMs) w.requests : ℚ) + 1 ≤ w.maxRequests

def mustWait (w : SlidingWindow) (t₁ t₂ : ℚ) : Bool :=
  (w.evict t₁).isFull && ((w.evict t₁).waitMs t₂).isSome

/-- A caller that comes back from the timer finds room. So does one that does not wait, as
far as the maximum is not a number of requests. -/
def FindsRoom (s : Callers) : Event → Prop
  | .call t₁ t₂ _ t₄ =>
      (∃ n : ℕ, s.window.maxRequests = n) ∨ s.window.mustWait t₁ t₂ = true ∨
        s.window.HasRoom t₄
  | .resume _ _ t₄ => s.window.HasRoom t₄

section Runs

variable {maxRequests windowMs : ℚ} {s s' : Callers}

theorem acquire_of_mustWait {w : SlidingWindow} {t₁ t₂ : ℚ} (h : w.mustWait t₁ t₂ = true)
    (t₃ t₄ : ℚ) : ∃ wait, w.acquire t₁ t₂ t₃ t₄ = (w.evict t₁, some wait) := by
  rw [mustWait, Bool.and_eq_true, Option.isSome_iff_exists] at h
  obtain ⟨hfull, wait, hwait⟩ := h
  refine ⟨wait, ?_⟩
  rw [acquire]
  rw [if_pos hfull, hwait]

theorem acquire_of_not_mustWait {w : SlidingWindow} {t₁ t₂ : ℚ}
    (h : ¬ w.mustWait t₁ t₂ = true) (t₃ t₄ : ℚ) :
    w.acquire t₁ t₂ t₃ t₄ =
      (if (w.evict t₁).isFull then (w.evict t₁).goOn t₃ t₄ else (w.evict t₁).push t₄, none) := by
  rw [acquire]
  rw [mustWait, Bool.and_eq_true, not_and] at h
  by_cases hfull : (w.evict t₁).isFull = true
  · have hwait : (w.evict t₁).waitMs t₂ = none := by
      rw [← Option.not_isSome_iff_eq_none]
      exact h hfull
    rw [if_pos hfull, if_pos hfull, hwait]
  · rw [if_neg hfull, if_neg hfull]

theorem Keeps.goOn {w : SlidingWindow} {completed : List ℚ} {clock t₃ t₄ : ℚ}
    (h : Keeps maxRequests windowMs w completed clock) (h₃ : clock ≤ t₃) (h₄ : t₃ ≤ t₄) :
    Keeps maxRequests windowMs (w.goOn t₃ t₄) (completed ++ [t₄]) t₄ :=
  (h.evict h₃).push h₄

/-- What one event does: a caller that must wait only evicts, and any other is let through at
its last reading. -/
theorem step_cases {e : Event} (hkeeps : Keeps maxRequests windowMs s.window s.completed s.clock)
    (h : s.step e = some s') :
    Keeps maxRequests windowMs s'.window s'.completed s'.clock ∧
    ((∃ t₁ t₂ t₃ t₄, e = .call t₁ t₂ t₃ t₄ ∧ s.window.mustWait t₁ t₂ = true ∧
        s'.completed = s.completed) ∨
      (∃ t₁ t₂ t₃ t₄, e = .call t₁ t₂ t₃ t₄ ∧ ¬ s.window.mustWait t₁ t₂ = true ∧
        s.clock ≤ t₁ ∧ t₁ ≤ t₂ ∧ t₂ ≤ t₄ ∧ s'.completed = s.completed ++ [t₄]) ∨
      ∃ i t₃ t₄, e = .resume i t₃ t₄ ∧ s.clock ≤ t₄ ∧ s'.completed = s.completed ++ [t₄]) := by
  rcases e with ⟨t₁, t₂, t₃, t₄⟩ | ⟨i, t₃, t₄⟩
  · rw [Callers.step] at h
    split at h
    · next hclock =>
        obtain ⟨h₁, h₂, h₃, h₄⟩ := hclock
        by_cases hwait : s.window.mustWait t₁ t₂ = true
        · obtain ⟨wait, hacquire⟩ := acquire_of_mustWait hwait t₃ t₄
          rw [hacquire] at h
          obtain rfl := Option.some.inj h
          exact ⟨(hkeeps.evict h₁).elapse h₂, Or.inl ⟨t₁, t₂, t₃, t₄, rfl, hwait, rfl⟩⟩
        · rw [acquire_of_not_mustWait hwait] at h
          obtain rfl := Option.some.inj h
          refine ⟨?_, Or.inr (Or.inl ⟨t₁, t₂, t₃, t₄, rfl, hwait, h₁, h₂, h₃.trans h₄, rfl⟩)⟩
          dsimp only
          split
          · exact ((hkeeps.evict h₁).elapse h₂).goOn h₃ h₄
          · exact (hkeeps.evict h₁).push (h₂.trans (h₃.trans h₄))
    · exact absurd h (by simp)
  · rw [Callers.step] at h
    split at h
    · next hclock =>
        obtain ⟨h₃, h₄, -⟩ := hclock
        obtain rfl := Option.some.inj h
        exact ⟨hkeeps.goOn h₃ h₄, Or.inr (Or.inr ⟨i, t₃, t₄, rfl, h₃.trans h₄, rfl⟩)⟩
    · exact absurd h (by simp)

theorem keeps_of_run {start : ℚ} {events : List Event}
    (hrun : (system maxRequests windowMs start).run events = some s) :
    Keeps maxRequests windowMs s.window s.completed s.clock := by
  refine Machine.reachable_invariant (M := system maxRequests windowMs start)
    (I := fun s => Keeps maxRequests windowMs s.window s.completed s.clock) ?_ ?_ hrun
  · refine ⟨rfl, rfl, List.Pairwise.nil, ?_, [], rfl, ?_⟩
    · exact fun t ht => absurd ht List.not_mem_nil
    · exact fun t ht => absurd ht List.not_mem_nil
  · intro t e s ht hstep
    exact (step_cases ht hstep).1

theorem Keeps.hasRoom_iff {w : SlidingWindow} {completed : List ℚ} {clock now : ℚ}
    (h : Keeps maxRequests windowMs w completed clock) (hclock : clock ≤ now) :
    w.HasRoom now ↔ (countAfter (now - windowMs) completed : ℚ) + 1 ≤ maxRequests := by
  rw [HasRoom, h.windowMs_eq, h.maxRequests_eq, h.countAfter_eq hclock]

/-- A caller that does not wait finds room in a window that is not overfull, where the
maximum is a number of requests: the check before the wait is for the right window. -/
theorem Keeps.hasRoom_of_not_mustWait {w : SlidingWindow} {completed : List ℚ}
    {clock t₁ t₂ t₄ : ℚ} (h : Keeps maxRequests windowMs w completed clock)
    (hwindowed : Windowed windowMs maxRequests completed) (hmax : 1 ≤ maxRequests) {n : ℕ}
    (hn : w.maxRequests = n) (hwait : ¬ w.mustWait t₁ t₂ = true) (h₁ : clock ≤ t₁)
    (h₂ : t₁ ≤ t₂) (h₄ : t₂ ≤ t₄) : w.HasRoom t₄ := by
  have hevicted := h.evict h₁
  rw [h.hasRoom_iff (h₁.trans (h₂.trans h₄)), hevicted.countAfter_eq (h₂.trans h₄)]
  rw [h.maxRequests_eq] at hn
  rw [mustWait, Bool.and_eq_true, not_and] at hwait
  by_cases hfull : (w.evict t₁).isFull = true
  · have hlength : ((w.evict t₁).requests.length : ℚ) ≤ maxRequests := by
      have hcount : countAfter (t₁ - windowMs) (w.evict t₁).requests =
          (w.evict t₁).requests.length := by
        rw [countAfter, List.countP_eq_length]
        exact fun t ht => decide_eq_true (h.mem_evict ht)
      rw [← hcount, ← hevicted.countAfter_eq le_rfl]
      refine hwindowed.countAfter_le fun t ht => ?_
      rw [sub_add_cancel]
      exact hevicted.past t ht
    rw [isFull, decide_eq_true_eq, hevicted.maxRequests_eq] at hfull
    have hnone := hwait (by rw [isFull, decide_eq_true_eq, hevicted.maxRequests_eq]; exact hfull)
    rw [waitMs, hevicted.windowMs_eq] at hnone
    rcases hrequests : (w.evict t₁).requests with _ | ⟨oldest, rest⟩
    · rw [hrequests] at hfull
      simp only [List.length_nil, Nat.cast_zero] at hfull
      linarith
    · rw [hrequests] at hnone hlength
      -- the oldest left the window between the two readings
      have hout : ¬ t₄ - windowMs < oldest := by
        intro hin
        refine hnone ?_
        dsimp only
        rw [if_pos (by linarith)]
        rfl
      have hrest : countAfter (t₄ - windowMs) (oldest :: rest) ≤ rest.length := by
        rw [countAfter, List.countP_cons_of_neg (by simpa using hout)]
        exact List.countP_le_length
      rw [List.length_cons, Nat.cast_add, Nat.cast_one] at hlength
      have hcast : (countAfter (t₄ - windowMs) (oldest :: rest) : ℚ) ≤ rest.length :=
        Nat.cast_le.mpr hrest
      linarith
  · rw [isFull, decide_eq_true_eq, hevicted.maxRequests_eq, hn, not_le, Nat.cast_lt] at hfull
    have hcount : countAfter (t₄ - windowMs) (w.evict t₁).requests ≤
        (w.evict t₁).requests.length := List.countP_le_length
    rw [hn, ← Nat.cast_one, ← Nat.cast_add, Nat.cast_le]
    omega

/-- One event keeps the windows exactly if its caller finds room. -/
theorem windowed_step {e : Event} (hmax : 1 ≤ maxRequests) (hwindow : 0 < windowMs)
    (hkeeps : Keeps maxRequests windowMs s.window s.completed s.clock)
    (h : s.step e = some s') :
    Windowed windowMs maxRequests s'.completed ↔
      Windowed windowMs maxRequests s.completed ∧ FindsRoom s e := by
  have hthrough : ∀ t₄, s.clock ≤ t₄ →
      (Windowed windowMs maxRequests (s.completed ++ [t₄]) ↔
        Windowed windowMs maxRequests s.completed ∧ s.window.HasRoom t₄) := by
    intro t₄ h₄
    rw [windowed_concat hwindow (hkeeps.elapse h₄).past, hkeeps.hasRoom_iff h₄]
  obtain ⟨-, ⟨t₁, t₂, t₃, t₄, rfl, hwait, hcompleted⟩ |
    ⟨t₁, t₂, t₃, t₄, rfl, hwait, h₁, h₂, h₄, hcompleted⟩ |
    ⟨i, t₃, t₄, rfl, h₄, hcompleted⟩⟩ := step_cases hkeeps h
  · rw [hcompleted]
    exact ⟨fun hw => ⟨hw, Or.inr (Or.inl hwait)⟩, And.left⟩
  · rw [hcompleted, hthrough t₄ (h₁.trans (h₂.trans h₄))]
    refine and_congr_right fun hwindowed => ?_
    constructor
    · exact fun hroom => Or.inr (Or.inr hroom)
    · rintro (⟨n, hn⟩ | hmust | hroom)
      · exact hkeeps.hasRoom_of_not_mustWait hwindowed hmax hn hwait h₁ h₂ h₄
      · exact absurd hmust hwait
      · exact hroom
  · rw [hcompleted, hthrough t₄ h₄]
    rfl

end Runs

/-- No window is overfull exactly if every caller that comes back from the timer finds room
in the one that ends then. -/
theorem windowed_iff (maxRequests windowMs start : ℚ) (hmax : 1 ≤ maxRequests)
    (hwindow : 0 < windowMs) (events : List Event) (s : Callers)
    (hrun : (system maxRequests windowMs start).run events = some s) :
    Windowed windowMs maxRequests s.completed ↔
      (system maxRequests windowMs start).Throughout FindsRoom events := by
  refine Machine.holds_iff_throughout (Q := fun s : Callers =>
    Windowed windowMs maxRequests s.completed) ?_ ?_ hrun
  · exact windowed_nil (by linarith)
  · intro events e t s ht hstep
    exact windowed_step hmax hwindow (keeps_of_run ht) hstep

/-- Two callers wait for the same request to leave a window for one. -/
def overtaken : List Event :=
  [.call 0 0 0 0, .call 1 1 1 1, .call 1 1 1 1, .resume 0 1000 1000, .resume 0 1000 1000]

theorem overtaken_run : (system 1 1000 0).run overtaken =
    some ⟨⟨[1000, 1000], 1, 1000⟩, [], [0, 1000, 1000], 1000⟩ := by decide +kernel

theorem overfull : ¬ ∀ maxRequests windowMs start : ℚ, 1 ≤ maxRequests → 0 < windowMs →
    ∀ events s, (system maxRequests windowMs start).run events = some s →
      Windowed windowMs maxRequests s.completed := by
  intro h
  have hwindow := (h 1 1000 0 (by norm_num) (by norm_num) _ _ overtaken_run 1000).1
  revert hwindow
  decide +kernel

/-- A caller after the other, and one that waits alone. -/
theorem windowed_iff_alone :
    ∃ s, (system 1 1000 0).run [.call 0 0 0 0, .call 1 1 1 1, .resume 0 1000 1000] = some s ∧
      s.completed = [0, 1000] ∧
      (Windowed 1000 1 s.completed ↔ (system 1 1000 0).Throughout FindsRoom
        [.call 0 0 0 0, .call 1 1 1 1, .resume 0 1000 1000]) := by
  have hrun : (system 1 1000 0).run [.call 0 0 0 0, .call 1 1 1 1, .resume 0 1000 1000] =
      some ⟨⟨[1000], 1, 1000⟩, [], [0, 1000], 1000⟩ := by decide +kernel
  exact ⟨_, hrun, rfl, windowed_iff 1 1000 0 (by norm_num) (by norm_num) _ _ hrun⟩

end SlidingWindow

end SpecForge.Ts
