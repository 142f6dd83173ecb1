import Mathlib.Algebra.Order.Ring.Int
import SpecForge.Lib.Threads

/-!
# The concurrency gate of the Go client

`DoJSON` and `DoStream` start at a gate: they make the client's semaphore if there is none yet,
take a slot of it, and give one back in the end (§1). The client's field is read again at each
of these places. Where the semaphore is made once, no more calls are past the gate than it has
slots, and a call waits only while all are taken (§2). Where two calls find that there is none, no
bound holds (§3), and a slot can be lost for good (§4).
-/

namespace SpecForge.Go.Gate

open Lib

/-! ## §1  The gate -/

/-- The capacity of a semaphore's channel, and how much is in it. -/
structure Semaphore where
  max : ℤ
  taken : ℕ
deriving DecidableEq

/-- `Acquire` would not block. -/
def Semaphore.free (s : Semaphore) : Bool := decide ((s.taken : ℤ) < s.max)

/-- `Release`: nothing happens where nothing is taken. -/
def Semaphore.release (s : Semaphore) : Semaphore := { s with taken := s.taken - 1 }

/-- The semaphores made so far, and the one that the client's field points to. -/
structure Client where
  maxConcurrent : ℤ
  sems : List Semaphore
  sem : Option ℕ
deriving DecidableEq

def newClient : Client := ⟨0, [], none⟩

/-- `c.sem = NewSemaphore(n)` -/
def Client.newSemaphore (c : Client) (n : ℤ) : Client :=
  { c with sems := c.sems ++ [⟨n, 0⟩], sem := some c.sems.length }

def Client.withMaxConcurrent (n : ℤ) (c : Client) : Client :=
  if 0 < n then { c with maxConcurrent := n }.newSemaphore n
  else { c with maxConcurrent := n, sem := none }

/-- `c.MaxConcurrent = n`, with the semaphore left to the first call. -/
def lazyClient (n : ℤ) : Client := { newClient with maxConcurrent := n }

/-- The statement that a call is about to run. -/
inductive Pc where
  | start
  | check
  | create
  | load
  /-- In `Acquire` of this semaphore. -/
  | acquire (k : ℕ)
  /-- Before the `defer`, with a slot of this semaphore. -/
  | defer (k : ℕ)
  /-- Past the gate, with the semaphore that a slot was taken of and the one to release. -/
  | sending (slot : Option (ℕ × ℕ))
  | returned
deriving DecidableEq

/-- A call runs its next statement, or its wait is ended by its context. -/
inductive Action where
  | next
  | done
deriving DecidableEq

/-- The next statement of a call; a semaphore with no free slot blocks it. -/
def statement (c : Client) : Pc → Option (Client × Pc)
  | .start => some (c, if 0 < c.maxConcurrent then .check else .sending none)
  | .check => some (c, if c.sem = none then .create else .load)
  | .create => some (c.newSemaphore c.maxConcurrent, .load)
  | .load => c.sem.map fun k => (c, .acquire k)
  | .acquire k =>
      (c.sems[k]?).bind fun s =>
        if s.free then some ({ c with sems := c.sems.set k { s with taken := s.taken + 1 } }, .defer k)
        else none
  | .defer k => c.sem.map fun r => (c, .sending (some (k, r)))
  | .sending none => some (c, .returned)
  | .sending (some (_, r)) =>
      (c.sems[r]?).map fun s => ({ c with sems := c.sems.set r s.release }, .returned)
  | .returned => none

def step (a : Action) (c : Client) (pc : Pc) : Option (Client × Pc) :=
  match a with
  | .next => statement c pc
  | .done =>
      match pc with
      | .acquire _ => some (c, .returned)
      | _ => none

/-- All calls on one client. -/
def calls (client : Client) : Program Client Pc Unit Action where
  init := client
  start _ := .start
  step _ := step

/-- With a slot. -/
def Pc.holds : Pc → Bool
  | .defer _ => true
  | .sending (some _) => true
  | _ => false

/-- Past the gate. -/
def Pc.inFlight : Pc → Bool
  | .sending _ => true
  | _ => false

/-- What a statement does. -/
inductive Runs (c : Client) : Pc → Client → Pc → Prop where
  | ungated (h : ¬0 < c.maxConcurrent) : Runs c .start c (.sending none)
  | gated (h : 0 < c.maxConcurrent) : Runs c .start c .check
  | missing (h : c.sem = none) : Runs c .check c .create
  | found (h : c.sem ≠ none) : Runs c .check c .load
  | create : Runs c .create (c.newSemaphore c.maxConcurrent) .load
  | load {k} (h : c.sem = some k) : Runs c .load c (.acquire k)
  | acquire {k s} (h : c.sems[k]? = some s) (hfree : (s.taken : ℤ) < s.max) :
      Runs c (.acquire k) { c with sems := c.sems.set k { s with taken := s.taken + 1 } } (.defer k)
  | defer {k r} (h : c.sem = some r) : Runs c (.defer k) c (.sending (some (k, r)))
  | pass : Runs c (.sending none) c .returned
  | release {k r s} (h : c.sems[r]? = some s) :
      Runs c (.sending (some (k, r))) { c with sems := c.sems.set r s.release } .returned

theorem statement_iff {c c' : Client} {pc pc' : Pc} :
    statement c pc = some (c', pc') ↔ Runs c pc c' pc' := by
  constructor
  · intro h
    cases pc with
    | start =>
        obtain ⟨rfl, rfl⟩ := Prod.mk.inj (Option.some.inj h)
        split
        · next hmax => exact .gated hmax
        · next hmax => exact .ungated hmax
    | check =>
        obtain ⟨rfl, rfl⟩ := Prod.mk.inj (Option.some.inj h)
        split
        · next hsem => exact .missing hsem
        · next hsem => exact .found hsem
    | create =>
        obtain ⟨rfl, rfl⟩ := Prod.mk.inj (Option.some.inj h)
        exact .create
    | load =>
        obtain ⟨k, hk, heq⟩ := Option.map_eq_some_iff.mp h
        obtain ⟨rfl, rfl⟩ := Prod.mk.inj heq
        exact .load hk
    | acquire k =>
        obtain ⟨s, hs, heq⟩ := Option.bind_eq_some_iff.mp h
        split at heq
        · next hfree =>
            obtain ⟨rfl, rfl⟩ := Prod.mk.inj (Option.some.inj heq)
            exact .acquire hs (of_decide_eq_true hfree)
        · cases heq
    | defer k =>
        obtain ⟨r, hr, heq⟩ := Option.map_eq_some_iff.mp h
        obtain ⟨rfl, rfl⟩ := Prod.mk.inj heq
        exact .defer hr
    | sending slot =>
        cases slot with
        | none =>
            obtain ⟨rfl, rfl⟩ := Prod.mk.inj (Option.some.inj h)
            exact .pass
        | some slot =>
            obtain ⟨s, hs, heq⟩ := Option.map_eq_some_iff.mp h
            obtain ⟨rfl, rfl⟩ := Prod.mk.inj heq
            exact .release hs
    | returned => cases h
  · intro h
    cases h with
    | ungated h => simp only [statement, if_neg h]
    | gated h => simp only [statement, if_pos h]
    | missing h => simp only [statement, if_pos h]
    | found h => simp only [statement, if_neg h]
    | create => rfl
    | load h => simp only [statement, h, Option.map_some]
    | acquire h hfree =>
        simp only [statement, h, Option.bind_some, Semaphore.free, decide_eq_true hfree, if_true]
    | defer h => simp only [statement, h, Option.map_some]
    | pass => rfl
    | release h => simp only [statement, h, Option.map_some]

theorem step_cases {a : Action} {c c' : Client} {pc pc' : Pc} (h : step a c pc = some (c', pc')) :
    a = .next ∧ Runs c pc c' pc' ∨
      a = .done ∧ (∃ k, pc = .acquire k) ∧ c' = c ∧ pc' = .returned := by
  cases a with
  | next => exact Or.inl ⟨rfl, statement_iff.mp h⟩
  | done =>
      right
      cases pc with
      | acquire k =>
          obtain ⟨rfl, rfl⟩ := Prod.mk.inj (Option.some.inj h)
          exact ⟨rfl, ⟨k, rfl⟩, rfl, rfl⟩
      | _ => cases h

/-! ## §2  One semaphore -/

/-- One semaphore at most, with as many slots taken as calls have one. -/
def Made (n : ℤ) (held : ℕ) (c : Client) : Prop :=
  c = ⟨n, [], none⟩ ∧ held = 0 ∨ c = ⟨n, [⟨n, held⟩], some 0⟩

/-- A call has to do with the first semaphore only. -/
def Pc.first : Pc → Bool
  | .acquire k => k = 0
  | .defer k => k = 0
  | .sending none => false
  | .sending (some (k, r)) => k = 0 ∧ r = 0
  | _ => true

structure Bounded (n : ℤ) (s : Threads Client Pc) : Prop where
  client : Made n (s.threads.countP Pc.holds) s.shared
  room : (s.threads.countP Pc.holds : ℤ) ≤ n
  thread : ∀ pc ∈ s.threads, pc.first = true
  waiting : ∀ k, .acquire k ∈ s.threads → s.shared.sem ≠ none

/-- A call that makes a semaphore still finds that there is none. -/
def MakesOnce (s : Threads Client Pc) : Move Unit Action → Prop
  | .spawn _ => True
  | .act i _ => s.threads[i]? = some .create → s.shared.sem = none

section Bounded

variable {n : ℤ} {s : Threads Client Pc}

/-- How a count changes where one thread does. -/
theorem countP_set_add {p : Pc → Bool} {l : List Pc} {i : ℕ} {t t' : Pc} (ht : l[i]? = some t) :
    (l.set i t').countP p + (if p t then 1 else 0) = l.countP p + (if p t' then 1 else 0) := by
  obtain ⟨hi, rfl⟩ := List.getElem?_eq_some_iff.mp ht
  have hpos : p l[i] = true → 0 < l.countP p :=
    fun h => List.countP_pos_iff.mpr ⟨l[i], List.getElem_mem hi, h⟩
  rw [List.countP_set hi]
  split <;> split <;> simp_all

theorem Made.of_sem {held k : ℕ} {c : Client} (h : Made n held c) (hk : c.sem = some k) :
    k = 0 ∧ c = ⟨n, [⟨n, held⟩], some 0⟩ := by
  rcases h with ⟨rfl, -⟩ | rfl
  · cases hk
  · exact ⟨(Option.some.inj hk).symm, rfl⟩

theorem Made.of_sems {held : ℕ} {c : Client} {sem : Semaphore} (h : Made n held c)
    (hsem : c.sems[0]? = some sem) : sem = ⟨n, held⟩ ∧ c = ⟨n, [⟨n, held⟩], some 0⟩ := by
  rcases h with ⟨rfl, -⟩ | rfl
  · cases hsem
  · exact ⟨(Option.some.inj hsem).symm, rfl⟩

theorem Made.max_eq {held : ℕ} {c : Client} (h : Made n held c) : c.maxConcurrent = n := by
  rcases h with ⟨rfl, -⟩ | rfl <;> rfl

/-- The count of the slots, the bound and the thread that acts are all that a step can harm. -/
theorem Bounded.set (h : Bounded n s) {i : ℕ} {c : Client} {pc : Pc}
    (ht : s.threads[i]? = some pc) (pc' : Pc) (hfirst : pc'.first = true) (held : ℕ)
    (hheld : held + (if pc.holds then 1 else 0) =
      s.threads.countP Pc.holds + (if pc'.holds then 1 else 0))
    (hmade : Made n held c) (hroom : (held : ℤ) ≤ n) (hsem : s.shared.sem ≠ none → c.sem ≠ none)
    (hwait : ∀ k, pc' = .acquire k → c.sem ≠ none) : Bounded n ⟨c, s.threads.set i pc'⟩ := by
  have hcount : (s.threads.set i pc').countP Pc.holds = held := by
    have hset : (s.threads.set i pc').countP Pc.holds + (if pc.holds then 1 else 0) =
        s.threads.countP Pc.holds + (if pc'.holds then 1 else 0) := countP_set_add ht
    omega
  constructor
  · show Made n ((s.threads.set i pc').countP Pc.holds) c
    rw [hcount]
    exact hmade
  · show (((s.threads.set i pc').countP Pc.holds : ℕ) : ℤ) ≤ n
    rw [hcount]
    exact hroom
  · intro u hu
    rcases List.mem_or_eq_of_mem_set hu with hu | rfl
    · exact h.thread u hu
    · exact hfirst
  · intro k hk
    rcases List.mem_or_eq_of_mem_set hk with hk | hk
    · exact hsem (h.waiting k hk)
    · exact hwait k hk.symm

theorem Bounded.act (hn : 0 < n) (h : Bounded n s) {i : ℕ} {a : Action} {c : Client} {pc pc' : Pc}
    (ht : s.threads[i]? = some pc) (hstep : step a s.shared pc = some (c, pc'))
    (honce : pc = .create → s.shared.sem = none) : Bounded n ⟨c, s.threads.set i pc'⟩ := by
  have hfirst := h.thread pc (List.mem_of_getElem? ht)
  have hclient := h.client
  have hroom := h.room
  rcases step_cases hstep with ⟨-, hruns⟩ | ⟨-, ⟨k, rfl⟩, rfl, rfl⟩
  · cases hruns with
    | ungated hmax => exact absurd (hclient.max_eq ▸ hn) hmax
    | gated => exact h.set ht _ rfl _ rfl hclient hroom id nofun
    | missing => exact h.set ht _ rfl _ rfl hclient hroom id nofun
    | found => exact h.set ht _ rfl _ rfl hclient hroom id nofun
    | create =>
        refine h.set ht .load rfl _ rfl ?_ hroom (fun _ => Option.some_ne_none _) nofun
        rcases hclient with ⟨hc, hheld⟩ | hc
        · rw [hc, hheld]
          exact Or.inr rfl
        · have hnone := honce rfl
          rw [hc] at hnone
          cases hnone
    | load hk =>
        obtain ⟨rfl, -⟩ := hclient.of_sem hk
        refine h.set ht _ rfl _ rfl hclient hroom id fun k' _ => ?_
        rw [hk]
        exact Option.some_ne_none _
    | @acquire k sem hsem hfree =>
        obtain rfl : k = 0 := of_decide_eq_true hfirst
        obtain ⟨rfl, hc⟩ := hclient.of_sems hsem
        refine h.set ht (.defer 0) rfl (s.threads.countP Pc.holds + 1) rfl ?_ hfree id nofun
        rw [hc]
        exact Or.inr rfl
    | @defer k r hr =>
        obtain ⟨rfl, -⟩ := hclient.of_sem hr
        obtain rfl : k = 0 := of_decide_eq_true hfirst
        exact h.set ht _ rfl _ rfl hclient hroom id nofun
    | pass => cases hfirst
    | @release k r sem hsem =>
        obtain ⟨rfl, rfl⟩ : k = 0 ∧ r = 0 := of_decide_eq_true hfirst
        obtain ⟨rfl, hc⟩ := hclient.of_sems hsem
        -- the call that returns has a slot, so one is taken
        have hpos : 0 < s.threads.countP Pc.holds :=
          List.countP_pos_iff.mpr ⟨_, List.mem_of_getElem? ht, rfl⟩
        refine h.set ht .returned rfl (s.threads.countP Pc.holds - 1) ?_ ?_ (by omega) id nofun
        · show _ - 1 + 1 = _ + 0
          omega
        · rw [hc]
          exact Or.inr rfl
  · exact h.set ht _ rfl _ rfl hclient hroom id nofun

/-- The semaphore made when the client is set up, or left to the first call. -/
def SetUp (n : ℤ) (client : Client) : Prop :=
  client = newClient.withMaxConcurrent n ∨ client = lazyClient n

theorem bounded_of_run (hn : 0 < n) {client : Client} (hclient : SetUp n client)
    {moves : List (Move Unit Action)} (hrun : (calls client).machine.run moves = some s)
    (honce : (calls client).machine.Throughout MakesOnce moves) : Bounded n s := by
  refine Machine.run_invariant_of_throughout (I := fun _ s => Bounded n s) ?_ ?_ hrun honce
  · refine ⟨?_, Int.le_of_lt hn, fun pc hpc => absurd hpc List.not_mem_nil,
      fun k hk => absurd hk List.not_mem_nil⟩
    rcases hclient with rfl | rfl
    · rw [Client.withMaxConcurrent, if_pos hn]
      exact Or.inr rfl
    · exact Or.inl ⟨rfl, rfl⟩
  · intro moves m s s' _ h hcond hm
    rcases m with r | ⟨i, a⟩
    · obtain rfl := Option.some.inj hm
      have hcount : (s.threads ++ [Pc.start]).countP Pc.holds = s.threads.countP Pc.holds := by
        rw [List.countP_append]
        rfl
      refine ⟨?_, ?_, ?_, ?_⟩
      · exact hcount ▸ h.client
      · exact hcount ▸ h.room
      · intro pc hpc
        rcases List.mem_append.mp hpc with hpc | hpc
        · exact h.thread pc hpc
        · rw [List.mem_singleton.mp hpc]
          rfl
      · intro k hk
        rcases List.mem_append.mp hk with hk | hk
        · exact h.waiting k hk
        · cases List.mem_singleton.mp hk
    · obtain ⟨t, shared, t', ht, hstep, rfl⟩ := Program.next_act_iff.mp hm
      exact h.act hn ht hstep fun hpc => hcond (hpc ▸ ht)

/-- Where the semaphore is there from the start, no call makes one. -/
theorem installed_of_run (hn : 0 < n) {moves : List (Move Unit Action)}
    (hrun : (calls (newClient.withMaxConcurrent n)).machine.run moves = some s) :
    s.shared.sem ≠ none ∧ .create ∉ s.threads := by
  refine Machine.reachable_invariant (I := fun s : Threads Client Pc =>
    s.shared.sem ≠ none ∧ .create ∉ s.threads) ?_ ?_ hrun
  · refine ⟨?_, List.not_mem_nil⟩
    show (newClient.withMaxConcurrent n).sem ≠ none
    rw [Client.withMaxConcurrent, if_pos hn]
    exact Option.some_ne_none _
  · rintro s m s' ⟨hsem, hcreate⟩ hm
    rcases m with r | ⟨i, a⟩
    · obtain rfl := Option.some.inj hm
      refine ⟨hsem, ?_⟩
      rw [List.mem_append, List.mem_singleton]
      rintro (h | h)
      · exact hcreate h
      · cases h
    · obtain ⟨t, shared, t', ht, hstep, rfl⟩ := Program.next_act_iff.mp hm
      have hthread : shared.sem ≠ none ∧ t' ≠ .create := by
        rcases step_cases hstep with ⟨-, hruns⟩ | ⟨-, -, rfl, rfl⟩
        · cases hruns with
          | missing h => exact absurd h hsem
          | create => exact absurd (List.mem_of_getElem? ht) hcreate
          | _ => exact ⟨hsem, nofun⟩
        · exact ⟨hsem, nofun⟩
      refine ⟨hthread.1, fun hmem => ?_⟩
      rcases List.mem_or_eq_of_mem_set hmem with hmem | heq
      · exact hcreate hmem
      · exact hthread.2 heq.symm

/-- What the gate is for. -/
structure Kept (n : ℤ) (s : Threads Client Pc) : Prop where
  bounded : (s.threads.countP Pc.inFlight : ℤ) ≤ n
  /-- A call waits exactly while all slots are with other calls. -/
  waits : ∀ k, .acquire k ∈ s.threads →
    (statement s.shared (.acquire k) = none ↔ (s.threads.countP Pc.holds : ℤ) = n)
  /-- When all calls have returned, no slot is taken. -/
  returned : (∀ pc ∈ s.threads, pc = .returned) → ∀ sem ∈ s.shared.sems, sem.taken = 0

theorem Bounded.kept (h : Bounded n s) : Kept n s := by
  constructor
  · have hle : s.threads.countP Pc.inFlight ≤ s.threads.countP Pc.holds := by
      apply List.countP_mono_left
      intro pc hpc hflight
      have hfirst := h.thread pc hpc
      cases pc with
      | sending slot =>
          cases slot with
          | none => cases hfirst
          | some slot => rfl
      | _ => cases hflight
    have hroom := h.room
    omega
  · intro k hk
    obtain rfl : k = 0 := of_decide_eq_true (h.thread _ hk)
    rcases h.client with ⟨hc, -⟩ | hc
    · have hsem := h.waiting 0 hk
      rw [hc] at hsem
      exact absurd rfl hsem
    · have hroom := h.room
      rw [hc]
      by_cases hfree : (s.threads.countP Pc.holds : ℤ) < n
      · simp [statement, Semaphore.free, hfree, ne_of_lt hfree]
      · have hfull : (s.threads.countP Pc.holds : ℤ) = n := le_antisymm hroom (not_lt.mp hfree)
        simp [statement, Semaphore.free, hfull]
  · intro hall sem hsem
    have hnone : s.threads.countP Pc.holds = 0 := by
      apply List.countP_eq_zero.mpr
      intro pc hpc
      rw [hall pc hpc]
      exact Bool.false_ne_true
    rcases h.client with ⟨hc, -⟩ | hc
    · rw [hc] at hsem
      cases hsem
    · rw [hc, hnone] at hsem
      rw [List.mem_singleton.mp hsem]

/-- **The gate keeps its bound** in every interleaving, whether the semaphore is made when the
client is set up or by a first call, as long as no two calls make one. -/
theorem kept_of_run {n : ℤ} (hn : 0 < n) {client : Client} (hclient : SetUp n client)
    {moves : List (Move Unit Action)} {s : Threads Client Pc}
    (hrun : (calls client).machine.run moves = some s)
    (honce : client.sem = none → (calls client).machine.Throughout MakesOnce moves) :
    Kept n s := by
  have hthroughout : (calls client).machine.Throughout MakesOnce moves := by
    rcases hclient with rfl | rfl
    · rintro before m after t rfl ht
      rcases m with r | ⟨i, a⟩
      · trivial
      · intro hcreate
        exact absurd (List.mem_of_getElem? hcreate) (installed_of_run hn ht).2
    · exact honce rfl
  exact (bounded_of_run hn hclient hrun hthroughout).kept

end Bounded

/-- Two calls through a gate for one: the second waits. -/
def twoCalls : List (Move Unit Action) :=
  [.spawn (), .spawn ()] ++ List.replicate 5 (.act 0 .next) ++ List.replicate 3 (.act 1 .next)

theorem kept_of_run_twoCalls : ∃ s,
    (calls (newClient.withMaxConcurrent 1)).machine.run twoCalls = some s ∧
      s.threads = [.sending (some (0, 0)), .acquire 0] ∧ Kept 1 s :=
  ⟨_, rfl, rfl, @kept_of_run 1 (by decide) _ (Or.inl rfl) twoCalls _ rfl nofun⟩

/-! ## §3  Two semaphores -/

section Leads

variable {client : Client} {c c' : Client} {pc pc' : Pc} {front back : List Pc}

/-- One statement of one call, with the others before and behind it. -/
theorem leads_next (h : Runs c pc c' pc') :
    (calls client).machine.Leads ⟨c, front ++ pc :: back⟩ ⟨c', front ++ pc' :: back⟩ := by
  apply Machine.Leads.single (e := Move.act front.length Action.next)
  apply Program.next_act_iff.mpr
  refine ⟨pc, c', pc', by simp, statement_iff.mpr h, ?_⟩
  simp

theorem leads_spawn : (calls client).machine.Leads ⟨c, front⟩ ⟨c, front ++ [.start]⟩ := by
  apply Machine.Leads.single (e := Move.spawn ())
  rfl

/-- A call comes to the place where it makes a semaphore. -/
theorem leads_create (hmax : 0 < c.maxConcurrent) (hsem : c.sem = none) :
    (calls client).machine.Leads ⟨c, front⟩ ⟨c, front ++ [.create]⟩ :=
  leads_spawn.append ((leads_next (.gated hmax)).append (leads_next (.missing hsem)))

/-- A call that finds a free slot is past the gate. -/
theorem leads_past {k : ℕ} {sem : Semaphore} (hk : c.sem = some k) (hsem : c.sems[k]? = some sem)
    (hfree : (sem.taken : ℤ) < sem.max) : (calls client).machine.Leads
      ⟨c, front ++ .load :: back⟩
      ⟨{ c with sems := c.sems.set k { sem with taken := sem.taken + 1 } },
        front ++ .sending (some (k, k)) :: back⟩ :=
  (leads_next (.load hk)).append ((leads_next (.acquire hsem hfree)).append (leads_next (.defer hk)))

variable (client front back) in
/-- A call that makes a semaphore of its own is past the gate. -/
theorem leads_sending (hmax : 0 < c.maxConcurrent) : ∃ c' slot,
    (calls client).machine.Leads ⟨c, front ++ .create :: back⟩ ⟨c', front ++ .sending slot :: back⟩ ∧
      c'.maxConcurrent = c.maxConcurrent := by
  have hnew : (c.newSemaphore c.maxConcurrent).sems[c.sems.length]? = some ⟨c.maxConcurrent, 0⟩ :=
    List.getElem?_concat_length
  have hcreate : (calls client).machine.Leads ⟨c, front ++ .create :: back⟩
      ⟨c.newSemaphore c.maxConcurrent, front ++ .load :: back⟩ := leads_next .create
  exact ⟨_, _, hcreate.append (leads_past rfl hnew hmax), rfl⟩

theorem leads_creates (hmax : 0 < c.maxConcurrent) (hsem : c.sem = none) : ∀ k,
    (calls client).machine.Leads ⟨c, []⟩ ⟨c, List.replicate k .create⟩
  | 0 => Relation.ReflTransGen.refl
  | k + 1 => by
      rw [List.replicate_succ']
      exact (leads_creates hmax hsem k).append (leads_create hmax hsem)

variable (client) in
/-- So are all that have found none. -/
theorem leads_inFlight : ∀ (k : ℕ) (c : Client) (front : List Pc), 0 < c.maxConcurrent →
    ∃ c' back, (calls client).machine.Leads ⟨c, front ++ List.replicate k .create⟩ ⟨c', front ++ back⟩ ∧
      back.countP Pc.inFlight = k
  | 0, c, front, _ => ⟨c, [], Relation.ReflTransGen.refl, rfl⟩
  | k + 1, c, front, hmax => by
      obtain ⟨c', slot, hfirst, hsame⟩ :=
        leads_sending client front (List.replicate k .create) hmax
      obtain ⟨c'', back, hrest, hcount⟩ :=
        leads_inFlight k c' (front ++ [.sending slot]) (hsame ▸ hmax)
      refine ⟨c'', .sending slot :: back, ?_, ?_⟩
      · apply hfirst.append
        simpa using hrest
      · rw [List.countP_cons, hcount]
        rfl

end Leads

/-- **The race.** Where the semaphore is left to the first calls, any number of them can be past
the gate at once, whatever the maximum. -/
theorem race_unbounded {n : ℤ} (hn : 0 < n) (k : ℕ) : ∃ moves s,
    (calls (lazyClient n)).machine.run moves = some s ∧
      s.threads.countP Pc.inFlight = k := by
  have hcreates : (calls (lazyClient n)).machine.Leads
      (calls (lazyClient n)).machine.init _ := leads_creates hn rfl k
  obtain ⟨c, back, hflight, hcount⟩ := leads_inFlight (lazyClient n) k
    (lazyClient n) [] hn
  obtain ⟨moves, hrun⟩ := Machine.exists_run_of_leads (Machine.run_nil _)
    (hcreates.append hflight)
  exact ⟨moves, _, hrun, hcount⟩

theorem race_unbounded_two : ∃ moves s,
    (calls (lazyClient 1)).machine.run moves = some s ∧
      s.threads.countP Pc.inFlight = 2 :=
  race_unbounded (by decide) 2

/-! ## §4  A slot that is lost -/

/-- The first semaphore is full and no call will release it. -/
structure Stranded (n i : ℕ) (s : Threads Client Pc) : Prop where
  full : s.shared.sems[0]? = some ⟨n, n⟩
  replaced : ∃ k, s.shared.sem = some (k + 1)
  releases : ∀ k, .sending (some (k, 0)) ∉ s.threads
  waits : s.threads[i]? = some (.acquire 0)

section Stranded

variable {client : Client} {n i : ℕ} {s : Threads Client Pc}

theorem Stranded.step {m : Move Unit Action} {s' : Threads Client Pc} (h : Stranded n i s)
    (hm : m ≠ .act i .done) (hstep : (calls client).next s m = some s') : Stranded n i s' := by
  rcases m with r | ⟨j, a⟩
  · obtain rfl := Option.some.inj hstep
    refine ⟨h.full, h.replaced, fun k hk => ?_, ?_⟩
    · rcases List.mem_append.mp hk with hk | hk
      · exact h.releases k hk
      · cases List.mem_singleton.mp hk
    · exact getElem?_concat_iff.mpr (Or.inr h.waits)
  · obtain ⟨pc, c, pc', hj, hstatement, rfl⟩ := Program.next_act_iff.mp hstep
    obtain ⟨r, hr⟩ := h.replaced
    have hlength : 0 < s.shared.sems.length := (List.getElem?_eq_some_iff.mp h.full).1
    have hne : j ≠ i := by
      rintro rfl
      obtain rfl := Option.some.inj (hj.symm.trans h.waits)
      rcases step_cases hstatement with ⟨-, hruns⟩ | ⟨rfl, -⟩
      · cases hruns with
        | acquire hsem hfree =>
            obtain rfl := Option.some.inj (hsem.symm.trans h.full)
            exact absurd hfree (lt_irrefl _)
      · exact hm rfl
    have hset : ∀ (c : Client) (pc' : Pc), c.sems[0]? = some ⟨n, n⟩ →
        (∃ k, c.sem = some (k + 1)) → (∀ k, pc' ≠ .sending (some (k, 0))) →
        Stranded n i ⟨c, s.threads.set j pc'⟩ := by
      intro c pc' hfull hreplaced hpc
      refine ⟨hfull, hreplaced, fun k hk => ?_, ?_⟩
      · rcases List.mem_or_eq_of_mem_set hk with hk | hk
        · exact h.releases k hk
        · exact hpc k hk.symm
      · show (s.threads.set j pc')[i]? = _
        rw [List.getElem?_set_ne hne]
        exact h.waits
    rcases step_cases hstatement with ⟨-, hruns⟩ | ⟨-, -, rfl, rfl⟩
    · cases hruns with
      | create =>
          refine hset _ _ ?_ ?_ fun _ => nofun
          · exact (List.getElem?_append_left hlength).trans h.full
          · exact ⟨s.shared.sems.length - 1, congrArg some (by omega)⟩
      | @acquire k sem hsem hfree =>
          have hk : k ≠ 0 := by
            rintro rfl
            obtain rfl := Option.some.inj (hsem.symm.trans h.full)
            exact absurd hfree (lt_irrefl _)
          refine hset _ _ ?_ h.replaced fun _ => nofun
          exact (List.getElem?_set_ne hk).trans h.full
      | @defer k r' hr' =>
          apply hset _ _ h.full h.replaced
          intro k' heq
          obtain ⟨-, rfl⟩ := Prod.mk.inj (Option.some.inj (Pc.sending.inj heq))
          rw [hr] at hr'
          cases hr'
      | @release k r' sem hsem =>
          have hr' : r' ≠ 0 := by
            rintro rfl
            exact h.releases k (List.mem_of_getElem? hj)
          refine hset _ _ ?_ h.replaced fun _ => nofun
          exact (List.getElem?_set_ne hr').trans h.full
      | _ => exact hset _ _ h.full h.replaced fun _ => nofun
    · exact hset _ _ h.full h.replaced fun _ => nofun

/-- Nothing but its own context ends the wait. -/
theorem Stranded.forever {moves : List (Move Unit Action)} (h : Stranded n i s)
    (hrun : (calls client).machine.run moves = some s) {more : List (Move Unit Action)}
    {s' : Threads Client Pc} (hmore : .act i .done ∉ more)
    (hrun' : (calls client).machine.run (moves ++ more) = some s') :
    s'.threads[i]? = some (.acquire 0) := by
  refine (Machine.invariant_of_append (P := fun m => m ≠ .act i .done) hrun h ?_ ?_ hrun').waits
  · exact fun t m t' ht hm hstep => ht.step hm hstep
  · rintro m hm rfl
    exact hmore hm

end Stranded

section Lost

variable {client : Client} {n : ℕ}

/-- A call that finds a semaphore comes to its `Acquire`. -/
theorem leads_acquire {c : Client} {front : List Pc} {k : ℕ} (hmax : 0 < c.maxConcurrent)
    (hsem : c.sem = some k) :
    (calls client).machine.Leads ⟨c, front⟩ ⟨c, front ++ [.acquire k]⟩ := by
  have hfound : c.sem ≠ none := by
    rw [hsem]
    exact Option.some_ne_none k
  exact leads_spawn.append ((leads_next (.gated hmax)).append
    ((leads_next (.found hfound)).append (leads_next (.load hsem))))

/-- Calls fill the first semaphore. -/
theorem leads_full (front : List Pc) : ∀ k ≤ n, (calls client).machine.Leads
    ⟨⟨n, [⟨n, 0⟩], some 0⟩, front⟩ ⟨⟨n, [⟨n, k⟩], some 0⟩, front ++ List.replicate k (.defer 0)⟩
  | 0, _ => by
      rw [List.replicate_zero, List.append_nil]
      exact Relation.ReflTransGen.refl
  | k + 1, hk => by
      have hfree : ((k : ℕ) : ℤ) < n := by omega
      have hmax : (0 : ℤ) < n := by omega
      have htake : Runs ⟨n, [⟨n, k⟩], some 0⟩ (.acquire 0) ⟨n, [⟨n, (k + 1 : ℕ)⟩], some 0⟩ (.defer 0) :=
        .acquire (c := ⟨n, [⟨n, k⟩], some 0⟩) (s := ⟨n, k⟩) rfl hfree
      rw [List.replicate_succ', ← List.append_assoc]
      exact (leads_full front k (by omega)).append
        ((leads_acquire hmax rfl).append (leads_next htake))

/-- Nothing is taken of the second semaphore, and releasing it changes nothing. -/
theorem runs_release (k : ℕ) : Runs ⟨n, [⟨n, n⟩, ⟨n, 0⟩], some 1⟩ (.sending (some (k, 1)))
    ⟨n, [⟨n, n⟩, ⟨n, 0⟩], some 1⟩ .returned :=
  .release (c := ⟨n, [⟨n, n⟩, ⟨n, 0⟩], some 1⟩) (s := ⟨n, 0⟩) rfl

/-- Each of them, when the field points to another semaphore, releases that one, of which nothing
is taken. -/
theorem leads_returned (back : List Pc) : ∀ (k : ℕ) (front : List Pc), (calls client).machine.Leads
    ⟨⟨n, [⟨n, n⟩, ⟨n, 0⟩], some 1⟩, front ++ (List.replicate k (.defer 0) ++ back)⟩
    ⟨⟨n, [⟨n, n⟩, ⟨n, 0⟩], some 1⟩, front ++ (List.replicate k .returned ++ back)⟩
  | 0, _ => Relation.ReflTransGen.refl
  | k + 1, front => by
      have hfirst : (calls client).machine.Leads
          ⟨⟨n, [⟨n, n⟩, ⟨n, 0⟩], some 1⟩, front ++ .defer 0 :: (List.replicate k (.defer 0) ++ back)⟩
          ⟨⟨n, [⟨n, n⟩, ⟨n, 0⟩], some 1⟩, front ++ .returned :: (List.replicate k (.defer 0) ++ back)⟩ :=
        (leads_next (.defer rfl)).append (leads_next (runs_release 0))
      have hrest := leads_returned back k (front ++ [.returned])
      rw [List.append_assoc, List.append_assoc] at hrest
      exact hfirst.append hrest

/-- A call that made or found the second semaphore takes a slot of it and gives it back. -/
theorem leads_second (hn : 0 < n) (front back : List Pc) : (calls client).machine.Leads
    ⟨⟨n, [⟨n, n⟩, ⟨n, 0⟩], some 1⟩, front ++ .load :: back⟩
    ⟨⟨n, [⟨n, n⟩, ⟨n, 0⟩], some 1⟩, front ++ .returned :: back⟩ := by
  have hfree : ((0 : ℕ) : ℤ) < n := by omega
  have hgive : Runs ⟨n, [⟨n, n⟩, ⟨n, (0 + 1 : ℕ)⟩], some 1⟩ (.sending (some (1, 1)))
      ⟨n, [⟨n, n⟩, ⟨n, 0⟩], some 1⟩ .returned :=
    .release (c := ⟨n, [⟨n, n⟩, ⟨n, 0 + 1⟩], some 1⟩) (s := ⟨n, 0 + 1⟩) rfl
  exact (leads_past (c := ⟨n, [⟨n, n⟩, ⟨n, 0⟩], some 1⟩) rfl rfl hfree).append (leads_next hgive)

variable (client) in
/-- Two calls find no semaphore. The first one's is filled and one more call waits for it; then the
second makes another, which all of those that fill the first release. -/
theorem leads_lost (hn : 0 < n) : (calls client).machine.Leads ⟨⟨n, [], none⟩, []⟩
    ⟨⟨n, [⟨n, n⟩, ⟨n, 0⟩], some 1⟩,
      .returned :: .returned :: (List.replicate n .returned ++ [.acquire 0])⟩ := by
  have hmax : (0 : ℤ) < n := by omega
  have hfirst : Runs ⟨n, [], none⟩ .create ⟨n, [⟨n, 0⟩], some 0⟩ .load := .create
  have hsecond : Runs ⟨n, [⟨n, n⟩], some 0⟩ .create ⟨n, [⟨n, n⟩, ⟨n, 0⟩], some 1⟩ .load := .create
  have hwaits : (calls client).machine.Leads
      ⟨⟨n, [⟨n, n⟩], some 0⟩, [.load, .create] ++ List.replicate n (.defer 0)⟩
      ⟨⟨n, [⟨n, n⟩], some 0⟩, [.load] ++ .create :: (List.replicate n (.defer 0) ++ [.acquire 0])⟩ :=
    leads_acquire hmax rfl
  have hend : (calls client).machine.Leads
      ⟨⟨n, [⟨n, n⟩, ⟨n, 0⟩], some 1⟩,
        .load :: .load :: (List.replicate n .returned ++ [.acquire 0])⟩
      ⟨⟨n, [⟨n, n⟩, ⟨n, 0⟩], some 1⟩,
        [.returned] ++ .load :: (List.replicate n .returned ++ [.acquire 0])⟩ :=
    leads_second hn [] (.load :: (List.replicate n .returned ++ [.acquire 0]))
  calc (calls client).machine.Leads ⟨⟨n, [], none⟩, []⟩ ⟨⟨n, [], none⟩, [] ++ .create :: [.create]⟩ :=
        leads_creates hmax rfl 2
    (calls client).machine.Leads _ ⟨⟨n, [⟨n, 0⟩], some 0⟩, [.load, .create]⟩ := leads_next hfirst
    (calls client).machine.Leads _ _ := leads_full [.load, .create] n (Nat.le_refl n)
    (calls client).machine.Leads _ _ := hwaits
    (calls client).machine.Leads _ _ := leads_next hsecond
    (calls client).machine.Leads _ _ := leads_returned [.acquire 0] n [.load, .load]
    (calls client).machine.Leads _ _ := hend
    (calls client).machine.Leads _ _ := leads_second hn [.returned] _

end Lost

/-- **A slot can be lost for good.** Where the semaphore is left to the first calls, one call can
wait, though all the others have returned, until its own context ends. -/
theorem slot_lost {n : ℕ} (hn : 0 < n) : ∃ moves s i,
    (calls (lazyClient n)).machine.run moves = some s ∧
      (∀ j pc, s.threads[j]? = some pc → if j = i then pc = .acquire 0 else pc = .returned) ∧
        ∀ more s', .act i .done ∉ more →
          (calls (lazyClient n)).machine.run (moves ++ more) = some s' →
            s'.threads[i]? = some (.acquire 0) := by
  obtain ⟨moves, hrun⟩ := Machine.exists_run_of_leads (Machine.run_nil _)
    (leads_lost (lazyClient n) hn)
  have hothers : ∀ (j : ℕ) pc, (Pc.returned :: Pc.returned ::
      (List.replicate n Pc.returned ++ [.acquire 0]))[j]? = some pc →
        if j = n + 2 then pc = .acquire 0 else pc = .returned := by
    intro j pc hj
    have hsplit : (Pc.returned :: Pc.returned :: (List.replicate n Pc.returned ++ [.acquire 0])) =
        List.replicate (n + 2) Pc.returned ++ [.acquire 0] := rfl
    rw [hsplit] at hj
    rcases getElem?_concat_iff.mp hj with ⟨hlast, rfl⟩ | hj
    · rw [List.length_replicate] at hlast
      rw [if_pos hlast]
    · obtain ⟨hlt, hpc⟩ := List.getElem?_eq_some_iff.mp hj
      rw [List.length_replicate] at hlt
      rw [if_neg (Nat.ne_of_lt hlt), ← hpc, List.getElem_replicate]
  have hwaits : (Pc.returned :: Pc.returned ::
      (List.replicate n Pc.returned ++ [.acquire 0]))[n + 2]? = some (.acquire 0) := by
    simp
  have hstranded : Stranded n (n + 2) ⟨⟨n, [⟨n, n⟩, ⟨n, 0⟩], some 1⟩,
      .returned :: .returned :: (List.replicate n .returned ++ [.acquire 0])⟩ := by
    refine ⟨rfl, ⟨0, rfl⟩, fun k hk => ?_, hwaits⟩
    obtain ⟨j, hj⟩ := List.mem_iff_getElem?.mp hk
    have hpc := hothers j _ hj
    split at hpc <;> cases hpc
  exact ⟨moves, _, n + 2, hrun, hothers, fun more s' hmore hrun' =>
    hstranded.forever hrun hmore hrun'⟩

theorem slot_lost_one : ∃ moves s i,
    (calls (lazyClient 1)).machine.run moves = some s ∧
      (∀ j pc, s.threads[j]? = some pc → if j = i then pc = .acquire 0 else pc = .returned) ∧
        ∀ more s', .act i .done ∉ more →
          (calls (lazyClient 1)).machine.run (moves ++ more) = some s' →
            s'.threads[i]? = some (.acquire 0) :=
  slot_lost (Nat.succ_pos 0)

end SpecForge.Go.Gate
