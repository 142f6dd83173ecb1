import SpecForge.Lib.Machine
import Mathlib.Algebra.Order.Ring.Int
import Mathlib.Data.List.Nodup
import Mathlib.Data.List.Range

/-!
# The semaphore of the client

`createSemaphore` keeps the number of permits held and a queue of waiters (§1). Its callers
acquire permits in any order and give back each permit that they were granted at most once
(§2). After every run the permits outstanding are those counted, the grants follow the
arrivals, and nobody waits while a permit is free (§3).
-/

namespace SpecForge.Ts

open Lib

/-! ## §1  The semaphore -/

/-- The integers among the finite numbers; those that are not finite are known by their
texts. -/
inductive JsNumber where
  | integer (n : ℤ)
  | notFinite (text : String)

def JsNumber.text : JsNumber → String
  | .integer n => toString n
  | .notFinite text => text

structure RangeError where
  message : String

structure Semaphore (α : Type) where
  max : ℤ
  active : ℕ
  waiters : List α

section Semaphore

variable {α : Type}

def createSemaphore (α : Type) (max : JsNumber) : Except RangeError (Semaphore α) :=
  let refusal : RangeError :=
    ⟨"maxConcurrent must be a positive finite number, got " ++ max.text⟩
  match max with
  | .notFinite _ => .error refusal
  | .integer n => if n ≤ 0 then .error refusal else .ok ⟨n, 0, []⟩

/-- `acquire` of a caller, with the callers that it grants a permit. -/
def Semaphore.acquire (s : Semaphore α) (caller : α) : Semaphore α × List α :=
  if (s.active : ℤ) < s.max then
    ({ s with active := s.active + 1 }, [caller])
  else
    ({ s with waiters := s.waiters ++ [caller] }, [])

/-- The loop of `release`: waiters are resolved as long as permits are free. -/
def resolveWaiters (max : ℤ) : ℕ → List α → Semaphore α × List α
  | active, [] => (⟨max, active, []⟩, [])
  | active, waiter :: waiters =>
      if (active : ℤ) < max then
        let (s, resolved) := resolveWaiters max (active + 1) waiters
        (s, waiter :: resolved)
      else
        (⟨max, active, waiter :: waiters⟩, [])

def Semaphore.release (s : Semaphore α) : Semaphore α × List α :=
  if s.active = 0 then (s, []) else resolveWaiters s.max (s.active - 1) s.waiters

/-- The loop resolves as many waiters as there are free permits, from the front. -/
theorem resolveWaiters_eq (max : ℤ) : ∀ (waiters : List α) (active : ℕ),
    resolveWaiters max active waiters =
      let k := min waiters.length (max - active).toNat
      (⟨max, active + k, waiters.drop k⟩, waiters.take k) := by
  intro waiters
  induction waiters with
  | nil =>
      intro active
      rw [resolveWaiters, List.length_nil, Nat.zero_min]
      rfl
  | cons waiter waiters ih =>
      intro active
      rw [resolveWaiters]
      by_cases hfree : (active : ℤ) < max
      · have hk : min (waiter :: waiters).length (max - active).toNat =
            min waiters.length (max - (active + 1 : ℕ)).toNat + 1 := by
          rw [List.length_cons]
          omega
        rw [if_pos hfree, ih, hk]
        simp only [List.drop_succ_cons, List.take_succ_cons, Prod.mk.injEq, and_true,
          Semaphore.mk.injEq, true_and]
        omega
      · have hk : min (waiter :: waiters).length (max - active).toNat = 0 := by omega
        rw [if_neg hfree, hk]
        rfl

end Semaphore

/-! ## §2  Its callers -/

/-- The callers are numbered as they arrive. The grants are kept in the order in which they
were made, and the permits outstanding are those granted and not given back. -/
structure Callers where
  semaphore : Semaphore ℕ
  arrived : ℕ
  granted : List ℕ
  outstanding : List ℕ

namespace Callers

inductive Event where
  | acquire
  | release (caller : ℕ)

def Event.isRelease : Event → Bool
  | .acquire => false
  | .release _ => true

/-- The callers go on with a semaphore and the grants it just made. -/
def next (s : Callers) (arrived : ℕ) (outstanding : List ℕ) (r : Semaphore ℕ × List ℕ) :
    Callers :=
  ⟨r.1, arrived, s.granted ++ r.2, outstanding ++ r.2⟩

/-- A permit that is not outstanding cannot be given back. -/
def step (s : Callers) : Event → Option Callers
  | .acquire =>
      some (s.next (s.arrived + 1) s.outstanding (s.semaphore.acquire s.arrived))
  | .release caller =>
      if caller ∈ s.outstanding then
        some (s.next s.arrived (s.outstanding.erase caller) s.semaphore.release)
      else
        none

def system (semaphore : Semaphore ℕ) : Machine Callers Event :=
  ⟨⟨semaphore, 0, [], []⟩, step⟩

/-! ## §3  Runs -/

/-- What holds whenever no call of the semaphore is under way, after so many releases. -/
structure Orderly (max : ℤ) (releases : ℕ) (s : Callers) : Prop where
  max_eq : s.semaphore.max = max
  counted : s.outstanding.length = s.semaphore.active
  bounded : (s.semaphore.active : ℤ) ≤ max
  inOrder : s.granted ++ s.semaphore.waiters = List.range s.arrived
  awake : s.semaphore.waiters ≠ [] → (s.semaphore.active : ℤ) = max
  balance : s.granted.length = s.outstanding.length + releases

namespace Orderly

variable {max : ℤ} {releases : ℕ} {s : Callers}

theorem acquire (h : Orderly max releases s) :
    Orderly max releases
      (s.next (s.arrived + 1) s.outstanding (s.semaphore.acquire s.arrived)) := by
  unfold Semaphore.acquire
  by_cases hfree : (s.semaphore.active : ℤ) < s.semaphore.max
  · have hnobody : s.semaphore.waiters = [] := by
      by_contra hwaits
      have := h.awake hwaits
      have := h.max_eq
      omega
    rw [if_pos hfree]
    have horder := h.inOrder
    rw [hnobody, List.append_nil] at horder
    constructor
    · exact h.max_eq
    · simp only [next, List.length_append, List.length_singleton, h.counted]
    · have := h.max_eq
      simp only [next]
      omega
    · simp only [next]
      rw [hnobody, List.append_nil, horder, List.range_succ]
    · simp only [next]
      exact fun hwaits => absurd hnobody hwaits
    · have := h.balance
      simp only [next, List.length_append, List.length_singleton]
      omega
  · rw [if_neg hfree]
    have hmax := h.max_eq
    have hbound := h.bounded
    constructor
    · exact hmax
    · simp only [next, List.append_nil, h.counted]
    · exact hbound
    · simp only [next]
      rw [List.append_nil, ← List.append_assoc, h.inOrder, List.range_succ]
    · intro _
      simp only [next]
      omega
    · simp only [next, List.append_nil, h.balance]

theorem release (h : Orderly max releases s) {caller : ℕ} (hmem : caller ∈ s.outstanding) :
    Orderly max (releases + 1)
      (s.next s.arrived (s.outstanding.erase caller) s.semaphore.release) := by
  have hlength := List.length_erase_of_mem hmem
  have hpos : 0 < s.outstanding.length := List.length_pos_of_mem hmem
  have hcounted := h.counted
  have hbounded := h.bounded
  have hbalance := h.balance
  unfold Semaphore.release
  rw [if_neg (by omega), resolveWaiters_eq, h.max_eq]
  set k := min s.semaphore.waiters.length (max - (s.semaphore.active - 1 : ℕ)).toNat with hk
  constructor
  · rfl
  · simp only [next, List.length_append, List.length_take]
    omega
  · simp only [next]
    omega
  · simp only [next]
    rw [List.append_assoc, List.take_append_drop, h.inOrder]
  · simp only [next]
    intro hwaits
    -- a waiter is left only if the free permits ran out
    have hlt : k < s.semaphore.waiters.length := by
      by_contra hge
      exact hwaits (List.drop_eq_nil_of_le (by omega))
    have hmax := h.awake (List.ne_nil_of_length_pos (by omega))
    omega
  · simp only [next, List.length_append, List.length_take]
    omega

/-- The grants are those that as many releases leave permits for. -/
theorem granted_eq (h : Orderly max releases s) :
    s.granted = List.range (min s.arrived (max.toNat + releases)) := by
  have hlength := congrArg List.length h.inOrder
  rw [List.length_append, List.length_range] at hlength
  have hfront : s.granted = (List.range s.arrived).take s.granted.length := by
    rw [← h.inOrder, List.take_left]
  have hcounted := h.counted
  have hbounded := h.bounded
  have hbalance := h.balance
  have hserved : s.granted.length = min s.arrived (max.toNat + releases) := by
    rcases hwaiters : s.semaphore.waiters with _ | ⟨waiter, waiters⟩
    · rw [hwaiters, List.length_nil] at hlength
      omega
    · have hfull := h.awake (by rw [hwaiters]; exact List.cons_ne_nil _ _)
      omega
  rw [hfront, hserved, List.take_range, Nat.min_eq_left (Nat.min_le_left _ _)]

end Orderly

theorem orderly_of_run {semaphore : Semaphore ℕ} {max : ℤ} (hmax : 0 ≤ max)
    (hnew : semaphore = ⟨max, 0, []⟩) {events : List Event} {s : Callers}
    (hrun : (system semaphore).run events = some s) :
    Orderly max (events.countP Event.isRelease) s := by
  refine Machine.run_invariant (M := system semaphore)
    (I := fun events s => Orderly max (events.countP Event.isRelease) s) ?_ ?_ hrun
  · subst hnew
    exact ⟨rfl, rfl, hmax, rfl, fun h => absurd rfl h, rfl⟩
  · intro events e t s _ ht hstep
    rw [List.countP_append]
    change step t e = some s at hstep
    rcases e with _ | caller
    · obtain rfl := Option.some.inj hstep
      exact ht.acquire
    · rw [step] at hstep
      split at hstep
      · next hmem =>
          obtain rfl := Option.some.inj hstep
          exact ht.release hmem
      · exact absurd hstep (by simp)

/-- What its runs come to is an abstract semaphore: permits go to the first arrivals, as many
as `max` and the releases so far allow. -/
theorem granted_of_run {max : ℤ} (hmax : 0 ≤ max) {events : List Event} {s : Callers}
    (hrun : (system ⟨max, 0, []⟩).run events = some s) :
    s.granted = List.range (min s.arrived (max.toNat + events.countP Event.isRelease)) :=
  (orderly_of_run hmax rfl hrun).granted_eq

/-- A new semaphore gives its permits to the callers in the order of their arrival: after
every run `active` counts the permits outstanding, which are never more than `max`, the
callers granted and those that wait are all that arrived, in that order, and somebody waits
only if `active` is `max`. -/
theorem served_in_order (max : ℤ) (hmax : 1 ≤ max) :
    ∃ semaphore, createSemaphore ℕ (.integer max) = .ok semaphore ∧
      ∀ events s, (system semaphore).run events = some s →
        s.outstanding.length = s.semaphore.active ∧
        (s.semaphore.active : ℤ) ≤ max ∧
        s.granted ++ s.semaphore.waiters = List.range s.arrived ∧
        (s.semaphore.waiters ≠ [] → (s.semaphore.active : ℤ) = max) := by
  refine ⟨⟨max, 0, []⟩, ?_, ?_⟩
  · rw [createSemaphore]
    exact if_neg (by omega)
  · intro events s hrun
    have h := orderly_of_run (by omega) rfl hrun
    exact ⟨h.counted, h.bounded, h.inOrder, h.awake⟩

theorem served_in_order_one :
    ∃ semaphore, createSemaphore ℕ (.integer 1) = .ok semaphore ∧
      ∀ events s, (system semaphore).run events = some s →
        s.outstanding.length = s.semaphore.active ∧
        (s.semaphore.active : ℤ) ≤ 1 ∧
        s.granted ++ s.semaphore.waiters = List.range s.arrived ∧
        (s.semaphore.waiters ≠ [] → (s.semaphore.active : ℤ) = 1) :=
  served_in_order 1 (by decide)

example : ((system ⟨1, 0, []⟩).run [.acquire, .acquire, .acquire, .release 0]).map
    (fun s => (s.granted, s.outstanding, s.semaphore.waiters)) = some ([0, 1], [1], [2]) := by
  decide

end Callers

end SpecForge.Ts
