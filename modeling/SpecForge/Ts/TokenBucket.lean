import SpecForge.Lib.Machine
import SpecForge.Lib.Quota
import Mathlib.Data.Rat.Floor

/-!
# The token bucket of the client

`TokenBucket` refills by the clock and takes one token for each request (§1). A caller that
finds no token waits for the timer and looks again; what it does between two waits is one
piece, with one reading of the clock, and the pieces of all callers come in any order (§2).
The bucket is an account that covers the requests it let through (§3).
-/

namespace SpecForge.Ts

open Lib Lib.Quota

/-! ## §1  The bucket -/

/-- Times are in milliseconds, the rate is in tokens for each second. -/
structure TokenBucket where
  tokens : ℚ
  maxTokens : ℚ
  refillRate : ℚ
  lastRefill : ℚ
  deriving DecidableEq

namespace TokenBucket

def new (maxTokens refillRate now : ℚ) : TokenBucket := ⟨maxTokens, maxTokens, refillRate, now⟩

def refill (b : TokenBucket) (now : ℚ) : TokenBucket :=
  let elapsed := (now - b.lastRefill) / 1000
  { b with
    tokens := min b.maxTokens (b.tokens + elapsed * b.refillRate)
    lastRefill := now }

/-- What is asked of the timer. -/
def waitMs (b : TokenBucket) : ℤ := max ⌈(1 - b.tokens) / b.refillRate * 1000⌉ 10

/-- `acquire` up to its next wait, which is the result, or to its end. -/
def acquire (b : TokenBucket) (now : ℚ) : TokenBucket × Option ℤ :=
  let b := b.refill now
  if b.tokens < 1 then (b, some b.waitMs) else ({ b with tokens := b.tokens - 1 }, none)

theorem acquire_of_empty {b : TokenBucket} {now : ℚ} (h : (b.refill now).tokens < 1) :
    b.acquire now = (b.refill now, some (b.refill now).waitMs) := if_pos h

theorem acquire_of_not_empty {b : TokenBucket} {now : ℚ} (h : ¬ (b.refill now).tokens < 1) :
    b.acquire now = ({ b.refill now with tokens := (b.refill now).tokens - 1 }, none) :=
  if_neg h

/-! ## §2  Its callers -/

/-- The waits that have not ended, and the times at which requests were let through. -/
structure Callers where
  bucket : TokenBucket
  waits : List ℤ
  completed : List ℚ
  deriving DecidableEq

/-- A caller comes, or one that waits goes on. The timer may be early or late. -/
inductive Event where
  | call (now : ℚ)
  | resume (i : ℕ) (now : ℚ)

def Event.now : Event → ℚ
  | .call now => now
  | .resume _ now => now

/-- A caller looks at the bucket. -/
def Callers.look (s : Callers) (waits : List ℤ) (now : ℚ) : Callers :=
  match s.bucket.acquire now with
  | (bucket, some wait) => ⟨bucket, waits ++ [wait], s.completed⟩
  | (bucket, none) => ⟨bucket, waits, s.completed ++ [now]⟩

/-- The clock does not go back. -/
def Callers.step (s : Callers) (e : Event) : Option Callers :=
  if e.now < s.bucket.lastRefill then
    none
  else
    match e with
    | .call now => some (s.look s.waits now)
    | .resume i now =>
        if i < s.waits.length then some (s.look (s.waits.eraseIdx i) now) else none

def system (maxTokens refillRate start : ℚ) : Machine Callers Event :=
  ⟨⟨new maxTokens refillRate start, [], []⟩, Callers.step⟩

theorem Callers.step_cases {s s' : Callers} {e : Event} (h : s.step e = some s') :
    s.bucket.lastRefill ≤ e.now ∧ ∃ waits, s' = s.look waits e.now := by
  unfold Callers.step at h
  split at h
  · exact absurd h (by simp)
  · next hclock =>
      refine ⟨not_lt.mp hclock, ?_⟩
      rcases e with now | ⟨i, now⟩
      · exact ⟨_, (Option.some.inj h).symm⟩
      · dsimp only at h
        split at h
        · exact ⟨_, (Option.some.inj h).symm⟩
        · exact absurd h (by simp)

/-! ## §3  Runs -/

/-- The bucket is an account over what it let through, with its rate for a millisecond. -/
structure Rated (maxTokens refillRate : ℚ) (s : Callers) : Prop where
  maxTokens_eq : s.bucket.maxTokens = maxTokens
  refillRate_eq : s.bucket.refillRate = refillRate
  covers : Covers maxTokens (refillRate / 1000) s.completed s.bucket.tokens s.bucket.lastRefill

variable {maxTokens refillRate : ℚ} {s : Callers}

theorem Rated.refill (h : Rated maxTokens refillRate s) (hrate : 0 ≤ refillRate) {now : ℚ}
    (hclock : s.bucket.lastRefill ≤ now) :
    Covers maxTokens (refillRate / 1000) s.completed (s.bucket.refill now).tokens now := by
  have hmax := h.maxTokens_eq
  have hearned : (now - s.bucket.lastRefill) / 1000 * s.bucket.refillRate =
      refillRate / 1000 * (now - s.bucket.lastRefill) := by
    rw [h.refillRate_eq]
    ring
  have hnonneg : 0 ≤ refillRate / 1000 * (now - s.bucket.lastRefill) :=
    mul_nonneg (by linarith) (sub_nonneg.mpr hclock)
  have hcovers := h.covers
  refine hcovers.elapse (by linarith) hclock ?_ ?_ ?_
  · change 0 ≤ min s.bucket.maxTokens _
    rw [hearned, hmax]
    exact le_min (hcovers.nonneg.trans hcovers.le_cap) (add_nonneg hcovers.nonneg hnonneg)
  · exact hmax ▸ min_le_left _ _
  · exact hearned ▸ min_le_right _ _

theorem Rated.look (h : Rated maxTokens refillRate s) (hrate : 0 ≤ refillRate) {now : ℚ}
    (hclock : s.bucket.lastRefill ≤ now) (waits : List ℤ) :
    Rated maxTokens refillRate (s.look waits now) := by
  have hcovers := h.refill hrate hclock
  unfold Callers.look
  by_cases hempty : (s.bucket.refill now).tokens < 1
  · rw [acquire_of_empty hempty]
    exact ⟨h.maxTokens_eq, h.refillRate_eq, hcovers⟩
  · rw [acquire_of_not_empty hempty]
    exact ⟨h.maxTokens_eq, h.refillRate_eq,
      hcovers.spend (by linarith) (not_lt.mp hempty)⟩

theorem rated_of_run (hmax : 0 ≤ maxTokens) (hrate : 0 ≤ refillRate) {start : ℚ}
    {events : List Event} (hrun : (system maxTokens refillRate start).run events = some s) :
    Rated maxTokens refillRate s := by
  refine Machine.reachable_invariant (M := system maxTokens refillRate start) ?_ ?_ hrun
  · exact ⟨rfl, rfl, covers_nil hmax (by linarith) start⟩
  · intro t e s ht hstep
    obtain ⟨hclock, waits, rfl⟩ := Callers.step_cases hstep
    exact ht.look hrate hclock waits

/-- After every run the tokens are between zero and the maximum, and in any closed interval
of some seconds no more requests were let through than the maximum and what is refilled in
these seconds. -/
theorem rate_bounded (maxTokens refillRate start : ℚ) (hmax : 1 ≤ maxTokens)
    (hrate : 0 < refillRate) (events : List Event) (s : Callers)
    (hrun : (system maxTokens refillRate start).run events = some s) :
    (0 ≤ s.bucket.tokens ∧ s.bucket.tokens ≤ maxTokens) ∧
    ∀ start seconds : ℚ, 0 ≤ seconds →
      (countIn start (start + 1000 * seconds) s.completed : ℚ) ≤
        maxTokens + refillRate * seconds := by
  have hcovers := (rated_of_run (by linarith) hrate.le hrun).covers
  refine ⟨⟨hcovers.nonneg, hcovers.le_cap⟩, ?_⟩
  intro start seconds hseconds
  have hwithin := hcovers.within start (start + 1000 * seconds) (by linarith)
  calc (countIn start (start + 1000 * seconds) s.completed : ℚ)
      ≤ maxTokens + refillRate / 1000 * (start + 1000 * seconds - start) := hwithin
    _ = maxTokens + refillRate * seconds := by ring

/-- A bucket of one token and one token for each second: of three callers at once two wait,
and one of them goes on after a second. -/
theorem rate_bounded_one :
    ∃ s, (system 1 1 0).run [.call 0, .call 0, .call 0, .resume 1 1000] = some s ∧
      s.completed = [0, 1000] ∧ s.waits = [1000] ∧
      (0 ≤ s.bucket.tokens ∧ s.bucket.tokens ≤ 1) ∧
      ∀ start seconds : ℚ, 0 ≤ seconds →
        (countIn start (start + 1000 * seconds) s.completed : ℚ) ≤ 1 + 1 * seconds := by
  have hrun : (system 1 1 0).run [.call 0, .call 0, .call 0, .resume 1 1000] =
      some ⟨⟨0, 1, 1, 1000⟩, [1000], [0, 1000]⟩ := by decide +kernel
  have h := rate_bounded 1 1 0 (by norm_num) (by norm_num) _ _ hrun
  exact ⟨_, hrun, rfl, rfl, h.1, h.2⟩

end TokenBucket

end SpecForge.Ts
