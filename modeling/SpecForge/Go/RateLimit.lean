import SpecForge.Go.Retry
import SpecForge.Lib.Threads
import Mathlib.Algebra.Ring.Int.Defs

/-!
# Rate limiters of the Go client

The two limiters (§1) have the same `Acquire`, around a mutex (§2): the mutex is unlocked for a
wait, while the deferred unlock is pending, so a wait that the context ends has the mutex
unlocked twice. §3 says what that does to the lock.
-/

namespace SpecForge.Go

open Lib Lib.Program

universe u

/-! ## §1  Limiters -/

/-- What `Acquire` does with a limiter while it holds the mutex. Times and durations are in
nanoseconds. -/
structure Limiter (σ : Type u) where
  refresh : ℤ → σ → σ
  mustWait : σ → Bool
  wait : ℤ → σ → ℤ
  take : ℤ → σ → σ

/-- The numbers of the bucket are `float64`. -/
structure TokenBucket (K : Type u) where
  tokens : K
  maxTokens : K
  refillRate : K
  lastRefill : ℤ

namespace TokenBucket

variable {K : Type u} [Add K] [Sub K] [Mul K] [One K] [LT K] [DecidableLT K]

def minFloat (a b : K) : K := if a < b then a else b

/-- `seconds` is `Seconds` of a duration. -/
def refill (seconds : ℤ → K) (now : ℤ) (tb : TokenBucket K) : TokenBucket K :=
  let elapsed := seconds (now - tb.lastRefill)
  { tb with
    tokens := minFloat tb.maxTokens (tb.tokens + elapsed * tb.refillRate)
    lastRefill := now }

def limiter (seconds : ℤ → K) : Limiter (TokenBucket K) where
  refresh := refill seconds
  mustWait tb := decide (tb.tokens < 1)
  wait _ _ := 100000000
  take _ tb := { tb with tokens := tb.tokens - 1 }

end TokenBucket

structure SlidingWindow where
  requests : List ℤ
  maxRequests : ℤ
  window : ℤ
deriving DecidableEq

namespace SlidingWindow

def new (maxRequests window : ℤ) : SlidingWindow := ⟨[], maxRequests, window⟩

def evict (now : ℤ) (sw : SlidingWindow) : SlidingWindow :=
  let cutoff := now - sw.window
  { sw with requests := sw.requests.dropWhile fun t => decide (t ≤ cutoff) }

/-- A window that must wait has an oldest request, if it has a place for one: where
`maxRequests ≤ 0` the source indexes an empty slice, and here the wait is the window. -/
def limiter : Limiter SlidingWindow where
  refresh := evict
  mustWait sw := decide (sw.maxRequests ≤ sw.requests.length)
  wait now sw := sw.window - (now - sw.requests.headD now)
  take now sw := { sw with requests := sw.requests ++ [now] }

end SlidingWindow

/-! ## §2  `Acquire` -/

/-- The statement that a call is about to run. -/
inductive Pc where
  | lock
  | refresh
  | test
  | unlock (wait : ℤ)
  | select (until_ : ℤ)
  | take
  /-- The deferred unlock, before this is returned. -/
  | deferred (err : Option ContextError)
  | returned (err : Option ContextError)
deriving DecidableEq

/-- A call, with the error of its context if that has ended. -/
structure Acquire where
  pc : Pc
  ended : Option ContextError
deriving DecidableEq

/-- An unlock, by the call with this index, of a mutex that this call had locked. -/
structure Unlock where
  caller : ℕ
  holder : Option ℕ
deriving DecidableEq

/-- The limiter and its mutex, which the call with this index has locked. The unlocks and the
takes so far are on record. -/
structure Lock (σ : Type u) where
  limiter : σ
  holder : Option ℕ
  clock : ℤ
  unlocks : List Unlock
  takes : List (ℕ × ℤ)
  /-- An unlock of a mutex that is not locked ends the process. -/
  crashed : Bool

/-- A call runs its next statement at some time, its wait is ended by the context, or its
context ends. -/
inductive Action where
  | next (now : ℤ)
  | done
  | cancel (e : ContextError)
deriving DecidableEq

variable {σ : Type u}

def Lock.unlock (s : Lock σ) (i : ℕ) : Lock σ :=
  { s with
    holder := none
    unlocks := s.unlocks ++ [⟨i, s.holder⟩]
    crashed := s.holder.isNone }

/-- The next statement of a call; a locked mutex and a timer that still runs block it. -/
def statement (L : Limiter σ) (i : ℕ) (now : ℤ) (s : Lock σ) : Pc → Option (Lock σ × Pc)
  | .lock => if s.holder = none then some ({ s with holder := some i }, .refresh) else none
  | .refresh => some ({ s with limiter := L.refresh now s.limiter }, .test)
  | .test =>
      if L.mustWait s.limiter then some (s, .unlock (L.wait now s.limiter)) else some (s, .take)
  | .unlock wait => some (s.unlock i, .select (now + wait))
  | .select until_ => if until_ ≤ now then some (s, .lock) else none
  | .take =>
      some ({ s with limiter := L.take now s.limiter, takes := s.takes ++ [(i, now)] },
        .deferred none)
  | .deferred err => some (s.unlock i, .returned err)
  | .returned _ => none

def acquireStep (L : Limiter σ) (i : ℕ) (a : Action) (s : Lock σ) (c : Acquire) :
    Option (Lock σ × Acquire) :=
  if s.crashed then none
  else
    match a with
    | .next now =>
        if s.clock ≤ now then
          (statement L i now { s with clock := now } c.pc).map fun e => (e.1, { c with pc := e.2 })
        else none
    | .done =>
        match c.pc, c.ended with
        | .select _, some e => some (s, { c with pc := .deferred (some e) })
        | _, _ => none
    | .cancel e => if c.ended = none then some (s, { c with ended := some e }) else none

/-- All calls of `Acquire` on one limiter. -/
def acquires (L : Limiter σ) (limiter : σ) (start : ℤ) : Program (Lock σ) Acquire Unit Action where
  init := ⟨limiter, none, start, [], [], false⟩
  start _ := ⟨.lock, none⟩
  step := acquireStep L

/-! ## §3  The lock -/

/-- Between a lock and its unlock. -/
def Pc.inside : Pc → Bool
  | .refresh => true
  | .test => true
  | .unlock _ => true
  | .take => true
  | .deferred none => true
  | _ => false

section Steps

variable {L : Limiter σ} {i : ℕ} {s s' : Lock σ} {c c' : Acquire}

/-- What the statements do. -/
inductive Runs (L : Limiter σ) (i : ℕ) (now : ℤ) (s : Lock σ) : Pc → Lock σ → Pc → Prop where
  | lock : s.holder = none → Runs L i now s .lock { s with holder := some i } .refresh
  | refresh : Runs L i now s .refresh { s with limiter := L.refresh now s.limiter } .test
  | full : L.mustWait s.limiter = true →
      Runs L i now s .test s (.unlock (L.wait now s.limiter))
  | room : L.mustWait s.limiter = false → Runs L i now s .test s .take
  | unlock {wait : ℤ} : Runs L i now s (.unlock wait) (s.unlock i) (.select (now + wait))
  | timer {until_ : ℤ} : Runs L i now s (.select until_) s .lock
  | take : Runs L i now s .take
      { s with limiter := L.take now s.limiter, takes := s.takes ++ [(i, now)] } (.deferred none)
  | deferred {err : Option ContextError} :
      Runs L i now s (.deferred err) (s.unlock i) (.returned err)

theorem runs_of_statement {now : ℤ} {pc pc' : Pc}
    (h : statement L i now s pc = some (s', pc')) : Runs L i now s pc s' pc' := by
  cases pc with
  | lock =>
      rw [statement] at h
      split at h
      · next hfree =>
          cases h
          exact .lock hfree
      · cases h
  | refresh =>
      cases h
      exact .refresh
  | test =>
      rw [statement] at h
      split at h
      · next hfull =>
          cases h
          exact .full hfull
      · next hroom =>
          cases h
          exact .room (Bool.eq_false_iff.mpr hroom)
  | unlock wait =>
      cases h
      exact .unlock
  | select until_ =>
      rw [statement] at h
      split at h
      · cases h
        exact .timer
      · cases h
  | take =>
      cases h
      exact .take
  | deferred err =>
      cases h
      exact .deferred
  | returned err => cases h

theorem acquireStep_cases {a : Action} (h : acquireStep L i a s c = some (s', c')) :
    s.crashed = false ∧
      ((∃ now, a = .next now ∧ s.clock ≤ now ∧
          Runs L i now { s with clock := now } c.pc s' c'.pc ∧ c'.ended = c.ended) ∨
        (∃ until_ e, a = .done ∧ c.pc = .select until_ ∧ s' = s ∧
          c' = { c with pc := .deferred (some e) }) ∨
        ∃ e, a = .cancel e ∧ s' = s ∧ c' = { c with ended := some e }) := by
  unfold acquireStep at h
  split at h
  · cases h
  · next hcrashed =>
      refine ⟨Bool.eq_false_iff.mpr hcrashed, ?_⟩
      cases a with
      | next now =>
          left
          dsimp only at h
          split at h
          · next hclock =>
              obtain ⟨⟨s₁, pc⟩, hstatement, heq⟩ := Option.map_eq_some_iff.mp h
              cases heq
              exact ⟨now, rfl, hclock, runs_of_statement hstatement, rfl⟩
          · cases h
      | done =>
          right
          left
          dsimp only at h
          split at h
          · next until_ e hpc hended =>
              cases h
              exact ⟨until_, e, rfl, hpc, rfl, rfl⟩
          · cases h
      | cancel e =>
          right
          right
          dsimp only at h
          split at h
          · cases h
            exact ⟨e, rfl, rfl, rfl⟩
          · cases h

end Steps

/-- Every unlock so far was of a mutex that the call had locked. -/
def Lawful (s : Lock σ) : Prop := ∀ u ∈ s.unlocks, u.holder = some u.caller

/-- No call so far has unlocked a mutex that another had locked. -/
def Clean (s : Lock σ) : Prop := ∀ u ∈ s.unlocks, ∀ h ∈ u.holder, h = u.caller

theorem clean_unlock_iff {s : Lock σ} {i : ℕ} :
    Clean (s.unlock i) ↔ Clean s ∧ ∀ h ∈ s.holder, h = i := by
  simp [Clean, Lock.unlock, or_imp, forall_and]

/-- What holds of the mutex and the record. -/
structure LockHolds (s : Lock σ) (n : ℕ) : Prop where
  holder_lt : ∀ h ∈ s.holder, h < n
  takes_lt : ∀ e ∈ s.takes, e.1 < n
  crash : s.crashed = true → ∃ u ∈ s.unlocks, u.holder = none

/-- Where a call is, compared with the mutex and the record. -/
structure Placed (s : Lock σ) (i : ℕ) (c : Acquire) : Prop where
  inside_of_holder : s.holder = some i → c.pc.inside = true
  holder_of_inside : Clean s → s.crashed = false → c.pc.inside = true → s.holder = some i
  taken : ∀ t, (i, t) ∈ s.takes → c.pc = .deferred none ∨ c.pc = .returned none

section Keeps

variable {L : Limiter σ} {i n : ℕ} {s s' : Lock σ} {c : Acquire} {pc : Pc}

/-- A statement that leaves the mutex and the record as they are. -/
theorem Placed.move (h : Placed s i c) (hholder : s'.holder = s.holder)
    (hunlocks : s'.unlocks = s.unlocks) (hcrashed : s'.crashed = s.crashed)
    (htakes : s'.takes = s.takes) (hinside : pc.inside = c.pc.inside)
    (hpc : c.pc = .deferred none ∨ c.pc = .returned none → pc = .deferred none ∨ pc = .returned none)
    (ended : Option ContextError) : Placed s' i ⟨pc, ended⟩ := by
  constructor
  · intro hi
    rw [hinside]
    exact h.inside_of_holder (hholder ▸ hi)
  · intro hclean hnot hin
    rw [hholder]
    refine h.holder_of_inside ?_ (hcrashed ▸ hnot) (hinside ▸ hin)
    rwa [Clean, hunlocks] at hclean
  · intro t ht
    exact hpc (h.taken t (htakes ▸ ht))

/-- An unlock leaves no call with the mutex, and only its own call was inside if it was the
holder. -/
theorem Placed.unlock (h : Placed s i c) {j : ℕ} (hnot : s.crashed = false) (hij : i ≠ j) :
    Placed (s.unlock j) i c := by
  constructor
  · intro hi
    cases hi
  · intro hclean _ hin
    obtain ⟨hbefore, hown⟩ := clean_unlock_iff.mp hclean
    exact absurd (hown i (h.holder_of_inside hbefore hnot hin)) hij
  · exact h.taken

theorem Placed.unlocked (hout : pc.inside = false)
    (htaken : ∀ t, (i, t) ∈ s.takes → pc = .deferred none ∨ pc = .returned none)
    (ended : Option ContextError) : Placed (s.unlock i) i ⟨pc, ended⟩ := by
  constructor
  · intro hi
    cases hi
  · intro _ _ hin
    rw [hout] at hin
    cases hin
  · exact htaken

theorem LockHolds.unlock (h : LockHolds s n) (j : ℕ) : LockHolds (s.unlock j) n := by
  constructor
  · intro k hk
    cases hk
  · exact h.takes_lt
  · intro hcrashed
    refine ⟨⟨j, s.holder⟩, List.mem_append_right _ List.mem_cons_self, ?_⟩
    exact Option.isNone_iff_eq_none.mp hcrashed

/-- What a statement keeps, of the shared state, of its own call and of the others. -/
theorem runs_keeps {now : ℤ} {ended : Option ContextError} (hruns : Runs L i now s c.pc s' pc)
    (hi : i < n) (hnot : s.crashed = false) (hshared : LockHolds s n) (hplaced : Placed s i c) :
    LockHolds s' n ∧ Placed s' i ⟨pc, ended⟩ ∧ ∀ j u, j ≠ i → Placed s j u → Placed s' j u := by
  obtain ⟨at_, ended'⟩ := c
  have hmoved : ∀ pc' : Pc, at_.inside = pc'.inside →
      ¬(at_ = .deferred none ∨ at_ = .returned none) → ∀ s' : Lock σ, s'.holder = s.holder →
        s'.unlocks = s.unlocks → s'.crashed = s.crashed → s'.takes = s.takes →
          LockHolds s' n ∧ Placed s' i ⟨pc', ended⟩ ∧
            ∀ j u, j ≠ i → Placed s j u → Placed s' j u := by
    intro pc' hin hat s' hholder hunlocks hcrashed htakes
    refine ⟨⟨?_, ?_, ?_⟩, ?_, ?_⟩
    · rw [hholder]
      exact hshared.holder_lt
    · rw [htakes]
      exact hshared.takes_lt
    · rw [hcrashed, hunlocks]
      exact hshared.crash
    · exact hplaced.move hholder hunlocks hcrashed htakes hin.symm (fun h => absurd h hat) ended
    · intro j u _ hu
      exact hu.move hholder hunlocks hcrashed htakes rfl id u.ended
  have hnever : ¬(at_ = .deferred none ∨ at_ = .returned none) →
      ∀ t, (i, t) ∉ s.takes := fun hat t ht => hat (hplaced.taken t ht)
  cases hruns with
  | lock hfree =>
      refine ⟨⟨?_, hshared.takes_lt, hshared.crash⟩, ⟨fun _ => rfl, fun _ _ _ => rfl, ?_⟩, ?_⟩
      · intro h hh
        rw [Option.mem_some_iff] at hh
        exact hh ▸ hi
      · intro t ht
        exact absurd ht (hnever (by simp) t)
      · intro j u hji hu
        refine ⟨?_, ?_, hu.taken⟩
        · intro hj
          exact absurd (Option.some.inj hj).symm hji
        · intro hclean hcrashed hin
          have hholder := hu.holder_of_inside hclean hcrashed hin
          rw [hfree] at hholder
          cases hholder
  | refresh => exact hmoved .test rfl (by simp) _ rfl rfl rfl rfl
  | full hmust => exact hmoved (.unlock _) rfl (by simp) _ rfl rfl rfl rfl
  | room hmust => exact hmoved .take rfl (by simp) _ rfl rfl rfl rfl
  | unlock =>
      refine ⟨hshared.unlock i, Placed.unlocked rfl ?_ ended, ?_⟩
      · intro t ht
        exact absurd ht (hnever (by simp) t)
      · intro j u hji hu
        exact hu.unlock hnot hji
  | timer => exact hmoved .lock rfl (by simp) _ rfl rfl rfl rfl
  | take =>
      refine ⟨⟨hshared.holder_lt, ?_, hshared.crash⟩, ⟨fun _ => rfl, ?_, fun _ _ => Or.inl rfl⟩, ?_⟩
      · intro e he
        rcases List.mem_append.mp he with he | he
        · exact hshared.takes_lt e he
        · rw [List.mem_singleton.mp he]
          exact hi
      · intro hclean hcrashed _
        exact hplaced.holder_of_inside hclean hcrashed rfl
      · intro j u hji hu
        refine ⟨hu.inside_of_holder, hu.holder_of_inside, ?_⟩
        intro t ht
        rcases List.mem_append.mp ht with ht | ht
        · exact hu.taken t ht
        · rw [List.mem_singleton, Prod.mk.injEq] at ht
          exact absurd ht.1 hji
  | deferred =>
      refine ⟨hshared.unlock i, Placed.unlocked rfl ?_ ended, ?_⟩
      · intro t ht
        rcases hplaced.taken t ht with h | h
        · cases h
          exact Or.inr rfl
        · cases h
      · intro j u hji hu
        exact hu.unlock hnot hji

end Keeps

section Discipline

variable {L : Limiter σ} {limiter : σ} {start : ℤ} {moves : List (Move Unit Action)}
  {s s' : Threads (Lock σ) Acquire}

theorem lockHolds_of_run (hrun : (acquires L limiter start).machine.run moves = some s) :
    Holds LockHolds Placed s := by
  refine holds_of_run ?_ ?_ ?_ hrun
  · constructor
    · intro h hh
      cases hh
    · intro e he
      cases he
    · intro hcrashed
      cases hcrashed
  · intro shared n _ hshared
    refine ⟨⟨?_, ?_, hshared.crash⟩, ?_, ?_, ?_⟩
    · intro h hh
      exact Nat.lt_succ_of_lt (hshared.holder_lt h hh)
    · intro e he
      exact Nat.lt_succ_of_lt (hshared.takes_lt e he)
    · intro hholder
      exact absurd (hshared.holder_lt n hholder) (Nat.lt_irrefl n)
    · intro _ _ hin
      cases hin
    · intro t ht
      exact absurd (hshared.takes_lt (n, t) ht) (Nat.lt_irrefl n)
  · intro s i a c shared c' h hc hstep
    have hi : i < s.threads.length := (List.getElem?_eq_some_iff.mp hc).1
    have hplaced := h.thread i c hc
    obtain ⟨hnot, ⟨now, rfl, -, hruns, -⟩ | ⟨until_, e, rfl, hpc, rfl, rfl⟩ | ⟨e, rfl, rfl, rfl⟩⟩ :=
      acquireStep_cases hstep
    · have hshared : LockHolds { s.shared with clock := now } s.threads.length :=
        ⟨h.shared.holder_lt, h.shared.takes_lt, h.shared.crash⟩
      have hlater : ∀ j u, Placed s.shared j u → Placed { s.shared with clock := now } j u :=
        fun j u hu => ⟨hu.inside_of_holder, hu.holder_of_inside, hu.taken⟩
      obtain ⟨hshared', hown, hothers⟩ :=
        runs_keeps hruns hi hnot hshared (hlater i c hplaced)
      exact ⟨hshared', hown, fun j u hji _ hu => hothers j u hji (hlater j u hu)⟩
    · refine ⟨h.shared, ?_, fun j u _ _ hu => hu⟩
      refine hplaced.move rfl rfl rfl rfl ?_ ?_ c.ended
      · rw [hpc]
        rfl
      · rw [hpc]
        intro hdone
        rcases hdone with hdone | hdone
        · cases hdone
        · cases hdone
    · refine ⟨h.shared, ?_, fun j u _ _ hu => hu⟩
      exact ⟨hplaced.inside_of_holder, hplaced.holder_of_inside, hplaced.taken⟩

/-- The move is not the deferred unlock of a call whose wait the context has ended, or the unlock
is as this asks. -/
def UnlocksOnly (R : Unlock → Prop) (s : Threads (Lock σ) Acquire) : Move Unit Action → Prop
  | .act i (.next _) => ∀ c : Acquire, s.threads[i]? = some c →
      ∀ e, c.pc = .deferred (some e) → R ⟨i, s.shared.holder⟩
  | _ => True

section Record

variable {R : Unlock → Prop} (hR : ∀ i, R ⟨i, some i⟩)
  (hclean : ∀ u, R u → ∀ h ∈ u.holder, h = u.caller)
include hR hclean

/-- As long as the record is clean, the unlocks of calls that are inside are their own. -/
theorem unlocks_runs_iff {i : ℕ} {now : ℤ} {t t' : Lock σ} {c : Acquire} {pc : Pc}
    (hruns : Runs L i now t c.pc t' pc) (hnot : t.crashed = false) (hplaced : Placed t i c) :
    (∀ u ∈ t'.unlocks, R u) ↔
      (∀ u ∈ t.unlocks, R u) ∧ ∀ e, c.pc = .deferred (some e) → R ⟨i, t.holder⟩ := by
  have hown : (∀ u ∈ t.unlocks, R u) → c.pc.inside = true → R ⟨i, t.holder⟩ := by
    intro hall hin
    rw [hplaced.holder_of_inside (fun u hu => hclean u (hall u hu)) hnot hin]
    exact hR i
  have happend : (∀ u ∈ (t.unlock i).unlocks, R u) ↔
      (∀ u ∈ t.unlocks, R u) ∧ R ⟨i, t.holder⟩ := by
    simp [Lock.unlock, or_imp, forall_and]
  obtain ⟨at_, ended⟩ := c
  cases hruns with
  | lock => exact (and_iff_left (by simp)).symm
  | refresh => exact (and_iff_left (by simp)).symm
  | full => exact (and_iff_left (by simp)).symm
  | room => exact (and_iff_left (by simp)).symm
  | timer => exact (and_iff_left (by simp)).symm
  | take => exact (and_iff_left (by simp)).symm
  | unlock =>
      rw [happend]
      exact and_congr_right fun hall => iff_of_true (hown hall rfl) (by simp)
  | deferred =>
      rename_i err
      rw [happend]
      refine and_congr_right fun hall => ?_
      cases err with
      | none => exact iff_of_true (hown hall rfl) (by simp)
      | some e => simp

theorem unlocks_iff_throughout (hrun : (acquires L limiter start).machine.run moves = some s) :
    (∀ u ∈ s.shared.unlocks, R u) ↔
      (acquires L limiter start).machine.Throughout (UnlocksOnly R) moves := by
  refine Machine.holds_iff_throughout (Q := fun s : Threads (Lock σ) Acquire =>
    ∀ u ∈ s.shared.unlocks, R u) ?_ ?_ hrun
  · intro u hu
    cases hu
  · intro moves m t s ht hs
    rcases m with _ | ⟨i, a⟩
    · obtain rfl := Option.some.inj hs
      exact (and_iff_left trivial).symm
    · obtain ⟨c, shared, c', hc, hstep, rfl⟩ := next_act_iff.mp hs
      have hplaced := (lockHolds_of_run ht).thread i c hc
      obtain ⟨hnot, ⟨now, rfl, -, hruns, -⟩ | ⟨until_, e, rfl, hpc, rfl, rfl⟩ |
        ⟨e, rfl, rfl, rfl⟩⟩ := acquireStep_cases hstep
      · have hlater : Placed { t.shared with clock := now } i c :=
          ⟨hplaced.inside_of_holder, hplaced.holder_of_inside, hplaced.taken⟩
        refine (unlocks_runs_iff hR hclean hruns hnot hlater).trans (and_congr_right fun _ => ?_)
        constructor
        · intro h c₁ hc₁
          obtain rfl := Option.some.inj (hc.symm.trans hc₁)
          exact h
        · intro h
          exact h c hc
      · exact (and_iff_left trivial).symm
      · exact (and_iff_left trivial).symm

end Record

/-- The move is not the deferred unlock of a call whose wait the context has ended. -/
def EndsNoWait (s : Threads (Lock σ) Acquire) : Move Unit Action → Prop
  | .act i (.next _) => ∀ c : Acquire, s.threads[i]? = some c → ∀ e, c.pc ≠ .deferred (some e)
  | _ => True

/-- The mutex is not locked by another call when a call whose wait the context has ended runs
its deferred unlock. -/
def TakesNoLock (s : Threads (Lock σ) Acquire) : Move Unit Action → Prop
  | .act i (.next _) => ∀ c : Acquire, s.threads[i]? = some c →
      ∀ e, c.pc = .deferred (some e) → s.shared.holder = none
  | _ => True

/-- A call whose wait was ended has not locked the mutex. -/
theorem holder_ne_of_deferred {i : ℕ} {c : Acquire} {e : ContextError} {t : Lock σ}
    (hplaced : Placed t i c) (hpc : c.pc = .deferred (some e)) : t.holder ≠ some i := by
  intro hholder
  have hin := hplaced.inside_of_holder hholder
  rw [hpc] at hin
  cases hin

theorem lawful_iff_throughout (hrun : (acquires L limiter start).machine.run moves = some s) :
    Lawful s.shared ↔ (acquires L limiter start).machine.Throughout EndsNoWait moves := by
  refine (unlocks_iff_throughout (R := fun u => u.holder = some u.caller) (fun _ => rfl) ?_
    hrun).trans (Machine.throughout_congr fun moves t m ht => ?_)
  · intro u hu h hh
    rw [hu, Option.mem_some_iff] at hh
    exact hh.symm
  · rcases m with _ | ⟨i, now | _ | _⟩
    · exact Iff.rfl
    · refine forall₂_congr fun c hc => forall_congr' fun e => ?_
      refine ⟨fun h hpc => ?_, fun h hpc => absurd hpc h⟩
      exact holder_ne_of_deferred ((lockHolds_of_run ht).thread i c hc) hpc (h hpc)
    · exact Iff.rfl
    · exact Iff.rfl

theorem clean_iff_throughout (hrun : (acquires L limiter start).machine.run moves = some s) :
    Clean s.shared ↔ (acquires L limiter start).machine.Throughout TakesNoLock moves := by
  refine (unlocks_iff_throughout (R := fun u => ∀ h ∈ u.holder, h = u.caller) ?_ ?_
    hrun).trans (Machine.throughout_congr fun moves t m ht => ?_)
  · intro i h hh
    exact (Option.mem_some_iff.mp hh).symm
  · exact fun u hu => hu
  · rcases m with _ | ⟨i, now | _ | _⟩
    · exact Iff.rfl
    · refine forall₂_congr fun c hc => forall₂_congr fun e hpc => ?_
      have hne := holder_ne_of_deferred ((lockHolds_of_run ht).thread i c hc) hpc
      constructor
      · intro h
        by_contra hsome
        obtain ⟨k, hk⟩ := Option.ne_none_iff_exists'.mp hsome
        exact hne (hk.trans (congrArg some (h k hk)))
      · intro h k hk
        rw [h] at hk
        cases hk
    · exact Iff.rfl
    · exact Iff.rfl

/-- The calls keep the discipline of the lock, and a call that fails has taken nothing. -/
structure Disciplined (s : Threads (Lock σ) Acquire) : Prop where
  owned : ∀ u ∈ s.shared.unlocks, u.holder = some u.caller
  free : (∀ (i : ℕ) (c : Acquire), s.threads[i]? = some c → c.pc.inside = false) →
    s.shared.holder = none
  refused : ∀ (i : ℕ) (c : Acquire) (e : ContextError), s.threads[i]? = some c →
    c.pc = .returned (some e) → ∀ t, (i, t) ∉ s.shared.takes

theorem disciplined_iff_lawful (hrun : (acquires L limiter start).machine.run moves = some s) :
    Disciplined s ↔ Lawful s.shared := by
  have hholds := lockHolds_of_run hrun
  refine ⟨Disciplined.owned, fun hlawful => ⟨hlawful, ?_, ?_⟩⟩
  · intro hout
    by_contra hsome
    obtain ⟨i, hi⟩ := Option.ne_none_iff_exists'.mp hsome
    have hlt := hholds.shared.holder_lt i hi
    have hin := (hholds.thread i _ (List.getElem?_eq_getElem hlt)).inside_of_holder hi
    rw [hout i _ (List.getElem?_eq_getElem hlt)] at hin
    cases hin
  · intro i c e hc hpc t ht
    rcases (hholds.thread i c hc).taken t ht with h | h
    · rw [hpc] at h
      cases h
    · rw [hpc] at h
      cases h

end Discipline

/-- **The lock is kept exactly as long as no call whose wait was ended by its context runs its
deferred unlock**, for either limiter. -/
theorem lock_discipline_iff {K : Type u} [Add K] [Sub K] [Mul K] [One K] [LT K] [DecidableLT K]
    (seconds : ℤ → K) (bucket : TokenBucket K) (window : SlidingWindow) (start : ℤ)
    (moves : List (Move Unit Action)) :
    (∀ s, (acquires (TokenBucket.limiter seconds) bucket start).machine.run moves = some s →
      (Disciplined s ↔ (acquires (TokenBucket.limiter seconds) bucket start).machine.Throughout
        EndsNoWait moves)) ∧
    ∀ s, (acquires SlidingWindow.limiter window start).machine.run moves = some s →
      (Disciplined s ↔ (acquires SlidingWindow.limiter window start).machine.Throughout
        EndsNoWait moves) := by
  constructor
  · intro s hrun
    exact (disciplined_iff_lawful hrun).trans (lawful_iff_throughout hrun)
  · intro s hrun
    exact (disciplined_iff_lawful hrun).trans (lawful_iff_throughout hrun)

/-- A call on its own, at one time. -/
def acquireOnce (now : ℤ) (i : ℕ) : List (Move Unit Action) :=
  .spawn () :: List.replicate 5 (.act i (.next now))

/-- A second call, whose wait is ended by its context. -/
def acquireAndCancel : List (Move Unit Action) :=
  acquireOnce 0 0 ++ .spawn () :: List.replicate 4 (.act 1 (.next 0)) ++
    [.act 1 (.cancel .canceled), .act 1 .done, .act 1 (.next 0)]

theorem cancelled_wait_unlocks : ¬∀ (window : SlidingWindow) (start : ℤ)
    (moves : List (Move Unit Action)) (s : Threads (Lock SlidingWindow) Acquire),
      1 ≤ window.maxRequests →
      (acquires SlidingWindow.limiter window start).machine.run moves = some s →
        Disciplined s := by
  intro h
  obtain ⟨s, hs, hunlocks⟩ : ∃ s, (acquires SlidingWindow.limiter (.new 1 1000) 0).machine.run
      acquireAndCancel = some s ∧ s.shared.unlocks = [⟨0, some 0⟩, ⟨1, some 1⟩, ⟨1, none⟩] :=
    ⟨_, rfl, rfl⟩
  have howned := (h _ _ _ s (by decide) hs).owned ⟨1, none⟩ (by rw [hunlocks]; simp)
  cases howned

/-- A second call, which waits until it is let through. -/
def acquireAndWait (later : ℤ) : List (Move Unit Action) :=
  acquireOnce 0 0 ++ .spawn () :: List.replicate 4 (.act 1 (.next 0)) ++
    List.replicate 6 (.act 1 (.next later))

theorem lock_discipline_iff_wait :
    (∃ s, (acquires (TokenBucket.limiter (id : ℤ → ℤ)) ⟨1, 1, 1, 0⟩ 0).machine.run
      (acquireAndWait 100000000) = some s ∧ s.shared.takes = [(0, 0), (1, 100000000)] ∧
        Disciplined s) ∧
    ∃ s, (acquires SlidingWindow.limiter (.new 1 1000) 0).machine.run (acquireAndWait 1000) =
      some s ∧ s.shared.takes = [(0, 0), (1, 1000)] ∧ Disciplined s := by
  have hwaits : ∀ u ∈ [⟨0, some 0⟩, ⟨1, some 1⟩, (⟨1, some 1⟩ : Unlock)],
      u.holder = some u.caller := by decide
  obtain ⟨s, hs, htakes, hunlocks⟩ : ∃ s, (acquires (TokenBucket.limiter (id : ℤ → ℤ)) ⟨1, 1, 1, 0⟩
      0).machine.run (acquireAndWait 100000000) = some s ∧
      s.shared.takes = [(0, 0), (1, 100000000)] ∧
      s.shared.unlocks = [⟨0, some 0⟩, ⟨1, some 1⟩, ⟨1, some 1⟩] := ⟨_, rfl, rfl, rfl⟩
  obtain ⟨s', hs', htakes', hunlocks'⟩ : ∃ s, (acquires SlidingWindow.limiter (.new 1 1000)
      0).machine.run (acquireAndWait 1000) = some s ∧ s.shared.takes = [(0, 0), (1, 1000)] ∧
      s.shared.unlocks = [⟨0, some 0⟩, ⟨1, some 1⟩, ⟨1, some 1⟩] := ⟨_, rfl, rfl, rfl⟩
  have hlawful : Lawful s.shared := fun u hu => hwaits u (hunlocks ▸ hu)
  have hlawful' : Lawful s'.shared := fun u hu => hwaits u (hunlocks' ▸ hu)
  obtain ⟨hbucket, -⟩ := lock_discipline_iff (id : ℤ → ℤ) ⟨1, 1, 1, 0⟩ (.new 1 1000) 0
    (acquireAndWait 100000000)
  obtain ⟨-, hwindow⟩ := lock_discipline_iff (id : ℤ → ℤ) ⟨1, 1, 1, 0⟩ (.new 1 1000) 0
    (acquireAndWait 1000)
  exact ⟨⟨s, hs, htakes, (hbucket s hs).mpr ((lawful_iff_throughout hs).mp hlawful)⟩,
    s', hs', htakes', (hwindow s' hs').mpr ((lawful_iff_throughout hs').mp hlawful')⟩

end SpecForge.Go
