import SpecForge.Lib.IndexMap
import SpecForge.Lib.Machine

/-!
# Shared runs

Requests with a key share a run: a request joins the run in the air with its key, if there
is one, and starts a run otherwise; a run leaves the air when it settles. Requests without a
key always start a run of their own. Calls and settlements come in any order (§1). A run in
the air has not settled, and a caller waits for a run with its key (§2). What else a caller's
run has in common with its request is decided when the request joins (§3).
-/

namespace SpecForge.Lib.SingleFlight

universe u v

/-- A caller, with the index of the run it waits for. -/
structure Caller (ρ : Type v) where
  request : ρ
  run : ℕ

/-- The runs in the air by their keys, the requests that runs were started for, the runs
that settled, and all callers. -/
structure Flights (κ : Type u) (ρ : Type v) where
  inFlight : IndexMap κ ℕ
  runs : List ρ
  settled : List ℕ
  callers : List (Caller ρ)

inductive Event (ρ : Type v) where
  | call (request : ρ)
  | settle (run : ℕ)

section Flights

variable {κ : Type u} {ρ : Type v} [DecidableEq κ] (key : ρ → Option κ)

namespace Flights

/-! ## §1  Calls and settlements -/

/-- The run in the air that a request joins. -/
def joined (s : Flights κ ρ) (r : ρ) : Option ℕ := (key r).bind s.inFlight.get

def call (s : Flights κ ρ) (r : ρ) : Flights κ ρ :=
  match s.joined key r with
  | some i => { s with callers := s.callers ++ [⟨r, i⟩] }
  | none =>
      { inFlight := match key r with
          | some k => s.inFlight.insert k s.runs.length
          | none => s.inFlight
        runs := s.runs ++ [r]
        settled := s.settled
        callers := s.callers ++ [⟨r, s.runs.length⟩] }

/-- A run settles once. -/
def settle (s : Flights κ ρ) (i : ℕ) : Option (Flights κ ρ) :=
  match s.runs[i]? with
  | none => none
  | some r =>
      if i ∈ s.settled then none
      else
        some { s with
          inFlight := match key r with
            | some k => s.inFlight.erase k
            | none => s.inFlight
          settled := s.settled ++ [i] }

def step (s : Flights κ ρ) : Event ρ → Option (Flights κ ρ)
  | .call r => some (s.call key r)
  | .settle i => s.settle key i

end Flights

def machine : Machine (Flights κ ρ) (Event ρ) :=
  ⟨⟨.empty, [], [], []⟩, Flights.step key⟩

variable {key}

theorem call_of_joined {s : Flights κ ρ} {r : ρ} {i : ℕ} (h : s.joined key r = some i) :
    s.call key r = { s with callers := s.callers ++ [⟨r, i⟩] } := by
  rw [Flights.call, h]

theorem call_of_not_joined {s : Flights κ ρ} {r : ρ} (h : s.joined key r = none) :
    s.call key r =
      { inFlight := match key r with
          | some k => s.inFlight.insert k s.runs.length
          | none => s.inFlight
        runs := s.runs ++ [r]
        settled := s.settled
        callers := s.callers ++ [⟨r, s.runs.length⟩] } := by
  rw [Flights.call, h]

theorem settle_eq_some {s s' : Flights κ ρ} {i : ℕ} (h : s.settle key i = some s') :
    ∃ r, s.runs[i]? = some r ∧ i ∉ s.settled ∧
      s' = { s with
        inFlight := match key r with
          | some k => s.inFlight.erase k
          | none => s.inFlight
        settled := s.settled ++ [i] } := by
  rw [Flights.settle] at h
  split at h
  · cases h
  · next r hr =>
      split at h
      · cases h
      · next hnew =>
          obtain rfl := Option.some.inj h
          exact ⟨r, hr, hnew, rfl⟩

/-! ## §2  What the runs in the air are -/

structure Sound (key : ρ → Option κ) (s : Flights κ ρ) : Prop where
  /-- The map holds runs that have not settled, by their keys. -/
  inAir : ∀ k i, s.inFlight.get k = some i →
    i ∉ s.settled ∧ ∃ r, s.runs[i]? = some r ∧ key r = some k
  /-- A run with a key that has not settled is in the map. -/
  found : ∀ i r k, s.runs[i]? = some r → i ∉ s.settled → key r = some k →
    s.inFlight.get k = some i
  waits : ∀ caller ∈ s.callers,
    ∃ r, s.runs[caller.run]? = some r ∧ key r = key caller.request
  started : ∀ i r, s.runs[i]? = some r → ⟨r, i⟩ ∈ s.callers
  isRun : ∀ i ∈ s.settled, i < s.runs.length

theorem sound_init : Sound key (machine key).init := by
  constructor
  · intro k i h
    cases h
  · intro i r k h
    cases h
  · intro caller h
    cases h
  · intro i r h
    cases h
  · intro i h
    cases h

theorem Sound.join {s : Flights κ ρ} (h : Sound key s) {r : ρ} {i : ℕ}
    (hjoin : s.joined key r = some i) : Sound key (s.call key r) := by
  rw [call_of_joined hjoin]
  rw [Flights.joined, Option.bind_eq_some_iff] at hjoin
  obtain ⟨k, hkey, hget⟩ := hjoin
  refine ⟨h.inAir, h.found, ?_, ?_, h.isRun⟩
  · intro caller hmem
    rcases List.mem_append.mp hmem with hmem | hmem
    · exact h.waits caller hmem
    · rw [List.mem_singleton] at hmem
      obtain ⟨-, r', hr', hkey'⟩ := h.inAir k i hget
      rw [hmem]
      exact ⟨r', hr', hkey'.trans hkey.symm⟩
  · intro j r' hr'
    exact List.mem_append_left _ (h.started j r' hr')

theorem Sound.start {s : Flights κ ρ} (h : Sound key s) {r : ρ}
    (hnew : s.joined key r = none) : Sound key (s.call key r) := by
  have hfresh : ∀ k, key r = some k → s.inFlight.get k = none := by
    intro k hk
    rwa [Flights.joined, hk, Option.bind_some] at hnew
  have hunsettled : s.runs.length ∉ s.settled := fun hmem => Nat.lt_irrefl _ (h.isRun _ hmem)
  have hget : ∀ k i, (s.call key r).inFlight.get k = some i ↔
      s.inFlight.get k = some i ∨ i = s.runs.length ∧ key r = some k := by
    intro k i
    rw [call_of_not_joined hnew]
    rcases hkey : key r with _ | k'
    · simp
    · dsimp only
      rw [IndexMap.get_insert]
      split
      · next heq =>
          rw [heq, hfresh k' hkey]
          simp [eq_comm]
      · next hne => simp [Ne.symm hne]
  refine ⟨?_, ?_, ?_, ?_, ?_⟩
  · intro k i hki
    rw [hget] at hki
    rw [call_of_not_joined hnew]
    rcases hki with hold | ⟨rfl, hkey⟩
    · obtain ⟨hair, r', hr', hkey'⟩ := h.inAir k i hold
      exact ⟨hair, r', getElem?_concat_iff.mpr (Or.inr hr'), hkey'⟩
    · exact ⟨hunsettled, r, getElem?_concat_iff.mpr (Or.inl ⟨rfl, rfl⟩), hkey⟩
  · intro i r' k hr' hair hkey'
    rw [hget]
    rw [call_of_not_joined hnew] at hr' hair
    rcases getElem?_concat_iff.mp hr' with ⟨rfl, rfl⟩ | hold
    · exact Or.inr ⟨rfl, hkey'⟩
    · exact Or.inl (h.found i r' k hold hair hkey')
  · intro caller hmem
    rw [call_of_not_joined hnew] at hmem ⊢
    rcases List.mem_append.mp hmem with hmem | hmem
    · obtain ⟨r', hr', hkey'⟩ := h.waits caller hmem
      exact ⟨r', getElem?_concat_iff.mpr (Or.inr hr'), hkey'⟩
    · rw [List.mem_singleton] at hmem
      rw [hmem]
      exact ⟨r, getElem?_concat_iff.mpr (Or.inl ⟨rfl, rfl⟩), rfl⟩
  · intro i r' hr'
    rw [call_of_not_joined hnew] at hr' ⊢
    rcases getElem?_concat_iff.mp hr' with ⟨rfl, rfl⟩ | hold
    · exact List.mem_append_right _ (List.mem_singleton.mpr rfl)
    · exact List.mem_append_left _ (h.started i r' hold)
  · intro i hi
    rw [call_of_not_joined hnew] at hi ⊢
    have := h.isRun i hi
    rw [List.length_append, List.length_singleton]
    omega

theorem Sound.settle {s s' : Flights κ ρ} (h : Sound key s) {i : ℕ}
    (hstep : s.settle key i = some s') : Sound key s' := by
  obtain ⟨r, hr, hair, rfl⟩ := settle_eq_some hstep
  have hnotMem : ∀ j, j ∉ s.settled ++ [i] ↔ j ∉ s.settled ∧ j ≠ i := by simp
  -- only the entry of the run that settles is gone
  have hget : ∀ k j, (match key r with
      | some k => s.inFlight.erase k
      | none => s.inFlight).get k = some j ↔ s.inFlight.get k = some j ∧ j ≠ i := by
    intro k j
    rcases hkey : key r with _ | k'
    · refine (and_iff_left_of_imp fun hkj => ?_).symm
      rintro rfl
      obtain ⟨-, r', hr', hkey'⟩ := h.inAir k j hkj
      rw [hr, Option.some.injEq] at hr'
      rw [← hr', hkey] at hkey'
      cases hkey'
    · dsimp only
      rw [IndexMap.get_erase]
      split
      · next heq =>
          refine iff_of_false (by simp) ?_
          rintro ⟨hkj, hne⟩
          rw [heq, h.found i r k' hr hair hkey, Option.some.injEq] at hkj
          exact hne hkj.symm
      · next hne =>
          refine (and_iff_left_of_imp fun hkj => ?_).symm
          rintro rfl
          obtain ⟨-, r', hr', hkey'⟩ := h.inAir k j hkj
          rw [hr, Option.some.injEq] at hr'
          rw [← hr', hkey, Option.some.injEq] at hkey'
          exact hne hkey'.symm
  refine ⟨?_, ?_, h.waits, h.started, ?_⟩
  · intro k j hkj
    rw [hget] at hkj
    obtain ⟨hair', hrun⟩ := h.inAir k j hkj.1
    exact ⟨(hnotMem j).mpr ⟨hair', hkj.2⟩, hrun⟩
  · intro j r' k hr' hj hkey
    rw [hnotMem] at hj
    exact (hget k j).mpr ⟨h.found j r' k hr' hj.1 hkey, hj.2⟩
  · intro j hj
    rcases List.mem_append.mp hj with hj | hj
    · exact h.isRun j hj
    · rw [List.mem_singleton.mp hj]
      exact (List.getElem?_eq_some_iff.mp hr).choose

theorem Sound.step {s s' : Flights κ ρ} (h : Sound key s) {e : Event ρ}
    (hstep : s.step key e = some s') : Sound key s' := by
  rcases e with r | i
  · obtain rfl := Option.some.inj hstep
    rcases hjoin : s.joined key r with _ | i
    · exact h.start hjoin
    · exact h.join hjoin
  · exact h.settle hstep

theorem sound_of_run {events : List (Event ρ)} {s : Flights κ ρ}
    (hrun : (machine key).run events = some s) : Sound key s :=
  Machine.reachable_invariant (M := machine key) sound_init
    (fun _ _ _ ht hstep => ht.step hstep) hrun

/-- A caller does not wait for a run that had settled when it came. -/
theorem Sound.call_unsettled {s : Flights κ ρ} (h : Sound key s) (r : ρ) :
    ∃ i, (s.call key r).callers = s.callers ++ [⟨r, i⟩] ∧ i ∉ s.settled := by
  rcases hjoin : s.joined key r with _ | i
  · refine ⟨s.runs.length, by rw [call_of_not_joined hjoin], ?_⟩
    exact fun hmem => Nat.lt_irrefl _ (h.isRun _ hmem)
  · refine ⟨i, by rw [call_of_joined hjoin], ?_⟩
    rw [Flights.joined, Option.bind_eq_some_iff] at hjoin
    obtain ⟨k, -, hget⟩ := hjoin
    exact (h.inAir k i hget).1

/-! ## §3  What callers have in common with their runs -/

/-- Every caller is in this relation to the request that its run was started for, and every
run that settled has this property. -/
def Served (same : ρ → ρ → Prop) (good : ρ → Prop) (s : Flights κ ρ) : Prop :=
  ∀ caller ∈ s.callers, ∀ r, s.runs[caller.run]? = some r →
    same caller.request r ∧ (caller.run ∈ s.settled → good r)

variable (key) in
/-- A request that joins a run is in the relation to it, and a run that settles has the
property. -/
def Fits (same : ρ → ρ → Prop) (good : ρ → Prop) (s : Flights κ ρ) : Event ρ → Prop
  | .call r => ∀ i ∈ s.joined key r, ∀ r' ∈ s.runs[i]?, same r r'
  | .settle i => ∀ r ∈ s.runs[i]?, good r

variable {same : ρ → ρ → Prop} {good : ρ → Prop}

theorem served_call_iff {s : Flights κ ρ} (h : Sound key s) (hrefl : ∀ r, same r r) (r : ρ) :
    Served same good (s.call key r) ↔
      Served same good s ∧ Fits key same good s (.call r) := by
  rcases hjoin : s.joined key r with _ | i
  · have hfits : Fits key same good s (.call r) := by
      intro i hi
      rw [hjoin] at hi
      cases hi
    rw [call_of_not_joined hjoin, and_iff_left hfits]
    constructor
    · intro hserved caller hmem r' hr'
      exact hserved caller (List.mem_append_left _ hmem) r'
        (getElem?_concat_iff.mpr (Or.inr hr'))
    · intro hserved caller hmem r' hr'
      rcases List.mem_append.mp hmem with hbefore | hmem
      · rcases getElem?_concat_iff.mp hr' with ⟨hlast, rfl⟩ | hold
        · obtain ⟨r'', hr'', -⟩ := h.waits caller hbefore
          rw [hlast, List.getElem?_eq_none (Nat.le_refl _)] at hr''
          cases hr''
        · exact hserved caller hbefore r' hold
      · rw [List.mem_singleton] at hmem
        subst hmem
        rcases getElem?_concat_iff.mp hr' with ⟨-, rfl⟩ | hold
        · exact ⟨hrefl r', fun hmem => absurd (h.isRun _ hmem) (Nat.lt_irrefl _)⟩
        · rw [List.getElem?_eq_none (Nat.le_refl _)] at hold
          cases hold
  · rw [call_of_joined hjoin]
    rw [Flights.joined, Option.bind_eq_some_iff] at hjoin
    obtain ⟨k, hkey, hget⟩ := hjoin
    obtain ⟨hair, -⟩ := h.inAir k i hget
    have hjoin' : s.joined key r = some i := by
      rw [Flights.joined, hkey, Option.bind_some, hget]
    constructor
    · intro hserved
      refine ⟨fun caller hmem => hserved caller (List.mem_append_left _ hmem), ?_⟩
      intro j hj r' hr'
      rw [hjoin', Option.mem_some_iff] at hj
      subst hj
      exact (hserved ⟨r, i⟩ (List.mem_append_right _ (List.mem_singleton.mpr rfl)) r' hr').1
    · rintro ⟨hserved, hfits⟩ caller hmem r' hr'
      rcases List.mem_append.mp hmem with hmem | hmem
      · exact hserved caller hmem r' hr'
      · rw [List.mem_singleton] at hmem
        subst hmem
        exact ⟨hfits i hjoin' r' hr', fun hmem => absurd hmem hair⟩

theorem served_settle_iff {s s' : Flights κ ρ} (h : Sound key s) {i : ℕ}
    (hstep : s.settle key i = some s') :
    Served same good s' ↔ Served same good s ∧ Fits key same good s (.settle i) := by
  obtain ⟨r, hr, hair, rfl⟩ := settle_eq_some hstep
  constructor
  · intro hserved
    constructor
    · intro caller hmem r' hr'
      obtain ⟨hsame, hgood⟩ := hserved caller hmem r' hr'
      exact ⟨hsame, fun hset => hgood (List.mem_append_left _ hset)⟩
    · intro r' hr'
      rw [hr, Option.mem_some_iff] at hr'
      subst hr'
      exact (hserved ⟨r, i⟩ (h.started i r hr) r hr).2
        (List.mem_append_right _ (List.mem_singleton.mpr rfl))
  · rintro ⟨hserved, hfits⟩ caller hmem r' hr'
    obtain ⟨hsame, hgood⟩ := hserved caller hmem r' hr'
    refine ⟨hsame, fun hset => ?_⟩
    rcases List.mem_append.mp hset with hset | hset
    · exact hgood hset
    · rw [List.mem_singleton.mp hset] at hr'
      exact hfits r' hr'

/-- All callers are served so exactly if every event fits. -/
theorem served_iff_throughout (hrefl : ∀ r, same r r) {events : List (Event ρ)}
    {s : Flights κ ρ} (hrun : (machine key).run events = some s) :
    Served same good s ↔ (machine key).Throughout (Fits key same good) events := by
  refine Machine.holds_iff_throughout (Q := Served same good) ?_ ?_ hrun
  · intro caller hmem
    cases hmem
  · intro events e t s ht hstep
    have hsound := sound_of_run ht
    rcases e with r | i
    · obtain rfl := Option.some.inj hstep
      exact served_call_iff hsound hrefl r
    · exact served_settle_iff hsound hstep

end Flights

end SpecForge.Lib.SingleFlight
