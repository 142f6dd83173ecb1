import SpecForge.Lib.Lists
import SpecForge.Lib.Machine

/-!
# Programs of many threads

Threads run one program over a shared state. A thread starts with an argument, at any time,
and then takes its actions, one at a time, between those of the others (§1). What holds of
the shared state, and of each thread in it, is shown for the thread that acts, with what its
action does to the others (§2).
-/

namespace SpecForge.Lib

universe u v w x

/-- What the threads share, and where each of them is. -/
structure Threads (σ : Type u) (τ : Type v) where
  shared : σ
  threads : List τ

/-- A thread starts, or one takes an action. -/
inductive Move (ρ : Type w) (α : Type x) where
  | spawn (argument : ρ)
  | act (i : ℕ) (action : α)

structure Program (σ : Type u) (τ : Type v) (ρ : Type w) (α : Type x) where
  init : σ
  start : ρ → τ
  /-- What an action of the thread with this index does, unless it is not its turn. -/
  step : ℕ → α → σ → τ → Option (σ × τ)

namespace Program

variable {σ : Type u} {τ : Type v} {ρ : Type w} {α : Type x} (p : Program σ τ ρ α)

/-! ## §1  Interleavings -/

def next (s : Threads σ τ) : Move ρ α → Option (Threads σ τ)
  | .spawn r => some ⟨s.shared, s.threads ++ [p.start r]⟩
  | .act i a =>
      s.threads[i]?.bind fun t =>
        (p.step i a s.shared t).map fun e => ⟨e.1, s.threads.set i e.2⟩

def machine : Machine (Threads σ τ) (Move ρ α) := ⟨⟨p.init, []⟩, p.next⟩

variable {p} {s s' : Threads σ τ}

theorem next_act_iff {i : ℕ} {a : α} :
    p.next s (.act i a) = some s' ↔
      ∃ t shared t', s.threads[i]? = some t ∧ p.step i a s.shared t = some (shared, t') ∧
        s' = ⟨shared, s.threads.set i t'⟩ := by
  rw [next, Option.bind_eq_some_iff]
  constructor
  · rintro ⟨t, ht, hmap⟩
    obtain ⟨⟨shared, t'⟩, hstep, heq⟩ := Option.map_eq_some_iff.mp hmap
    exact ⟨t, shared, t', ht, hstep, heq.symm⟩
  · rintro ⟨t, shared, t', ht, hstep, rfl⟩
    refine ⟨t, ht, ?_⟩
    rw [hstep]
    rfl

/-- What holds of the thread that acts, before, holds of all after if it holds of all before and
of where the thread is led. -/
theorem forall_set_iff {P : τ → Prop} {l : List τ} {i : ℕ} {t t' : τ} (ht : l[i]? = some t)
    (hbefore : P t) :
    (∀ (j : ℕ) u, (l.set i t')[j]? = some u → P u) ↔
      (∀ (j : ℕ) u, l[j]? = some u → P u) ∧ P t' := by
  constructor
  · intro h
    refine ⟨fun j u hu => ?_, h i t' ((getElem?_set_iff ht).mpr (Or.inl ⟨rfl, rfl⟩))⟩
    by_cases hji : j = i
    · subst hji
      rw [ht, Option.some.injEq] at hu
      exact hu ▸ hbefore
    · exact h j u ((getElem?_set_iff ht).mpr (Or.inr ⟨hji, hu⟩))
  · rintro ⟨h, hown⟩ j u hu
    rcases (getElem?_set_iff ht).mp hu with ⟨-, rfl⟩ | ⟨-, hu⟩
    · exact hown
    · exact h j u hu

theorem forall_spawn_iff {P : τ → Prop} {l : List τ} {t : τ} :
    (∀ (j : ℕ) u, (l ++ [t])[j]? = some u → P u) ↔
      (∀ (j : ℕ) u, l[j]? = some u → P u) ∧ P t := by
  constructor
  · intro h
    exact ⟨fun j u hu => h j u (getElem?_concat_iff.mpr (Or.inr hu)),
      h _ t (getElem?_concat_iff.mpr (Or.inl ⟨rfl, rfl⟩))⟩
  · rintro ⟨h, hnew⟩ j u hu
    rcases getElem?_concat_iff.mp hu with ⟨-, rfl⟩ | hu
    · exact hnew
    · exact h j u hu

theorem exists_spawn_iff {P : τ → Prop} {l : List τ} {t : τ} (h : ¬P t) :
    (∃ (j : ℕ) (u : τ), (l ++ [t])[j]? = some u ∧ P u) ↔
      ∃ (j : ℕ) (u : τ), l[j]? = some u ∧ P u := by
  constructor
  · rintro ⟨j, u, hu, hP⟩
    rcases getElem?_concat_iff.mp hu with ⟨-, rfl⟩ | hu
    · exact absurd hP h
    · exact ⟨j, u, hu, hP⟩
  · rintro ⟨j, u, hu, hP⟩
    exact ⟨j, u, getElem?_concat_iff.mpr (Or.inr hu), hP⟩

/-- A thread that is as it was, in some respect, does not matter. -/
theorem exists_set_iff {P : τ → Prop} {l : List τ} {i : ℕ} {t t' : τ} (ht : l[i]? = some t)
    (h : P t' ↔ P t) :
    (∃ (j : ℕ) (u : τ), (l.set i t')[j]? = some u ∧ P u) ↔
      ∃ (j : ℕ) (u : τ), l[j]? = some u ∧ P u := by
  constructor
  · rintro ⟨j, u, hu, hP⟩
    rcases (getElem?_set_iff ht).mp hu with ⟨rfl, rfl⟩ | ⟨-, hu⟩
    · exact ⟨j, t, ht, h.mp hP⟩
    · exact ⟨j, u, hu, hP⟩
  · rintro ⟨j, u, hu, hP⟩
    by_cases hji : j = i
    · subst hji
      obtain rfl := Option.some.inj (ht.symm.trans hu)
      exact ⟨j, t', (getElem?_set_iff ht).mpr (Or.inl ⟨rfl, rfl⟩), h.mpr hP⟩
    · exact ⟨j, u, (getElem?_set_iff ht).mpr (Or.inr ⟨hji, hu⟩), hP⟩

/-! ## §2  Invariants -/

/-- The shared state, with the number of threads, and each thread are as they should be. -/
structure Holds (G : σ → ℕ → Prop) (J : σ → ℕ → τ → Prop) (s : Threads σ τ) : Prop where
  shared : G s.shared s.threads.length
  thread : ∀ i t, s.threads[i]? = some t → J s.shared i t

variable {G : σ → ℕ → Prop} {J : σ → ℕ → τ → Prop}

theorem Holds.spawn (h : Holds G J s) {t : τ}
    (hspawn : G s.shared (s.threads.length + 1) ∧ J s.shared s.threads.length t) :
    Holds G J ⟨s.shared, s.threads ++ [t]⟩ := by
  constructor
  · rw [List.length_append, List.length_singleton]
    exact hspawn.1
  · intro j u hu
    rcases getElem?_concat_iff.mp hu with ⟨rfl, rfl⟩ | hu
    · exact hspawn.2
    · exact h.thread j u hu

/-- The thread that acts keeps what holds of the shared state and of itself, and does not
interfere with the others. -/
theorem Holds.act (h : Holds G J s) {i : ℕ} {t t' : τ} {shared : σ}
    (ht : s.threads[i]? = some t) (hshared : G shared s.threads.length)
    (hown : J shared i t')
    (hothers : ∀ j u, j ≠ i → s.threads[j]? = some u → J s.shared j u → J shared j u) :
    Holds G J ⟨shared, s.threads.set i t'⟩ := by
  constructor
  · rw [List.length_set]
    exact hshared
  · intro j u hu
    rcases (getElem?_set_iff ht).mp hu with ⟨rfl, rfl⟩ | ⟨hne, hu⟩
    · exact hown
    · exact hothers j u hne hu (h.thread j u hu)

/-- What holds at the start, for each new thread, and after each action of a thread that meets
the condition holds in every state of every run whose moves all meet it. -/
theorem holds_of_throughout {P : Threads σ τ → Move ρ α → Prop} (hinit : G p.init 0)
    (hspawn : ∀ shared n r, G shared n → G shared (n + 1) ∧ J shared n (p.start r))
    (hact : ∀ s i a t shared t', Holds G J s → P s (.act i a) → s.threads[i]? = some t →
      p.step i a s.shared t = some (shared, t') → G shared s.threads.length ∧ J shared i t' ∧
        ∀ j u, j ≠ i → s.threads[j]? = some u → J s.shared j u → J shared j u)
    {moves : List (Move ρ α)} (hrun : p.machine.run moves = some s)
    (hthroughout : p.machine.Throughout P moves) : Holds G J s := by
  refine Machine.run_invariant_of_throughout (I := fun _ s => Holds G J s) ?_ ?_ hrun hthroughout
  · exact ⟨hinit, fun i t h => by cases h⟩
  · intro moves m s s' _ h hcond hm
    rcases m with r | ⟨i, a⟩
    · obtain rfl := Option.some.inj hm
      exact h.spawn (hspawn _ _ r h.shared)
    · obtain ⟨t, shared, t', ht, hstep, rfl⟩ := next_act_iff.mp hm
      obtain ⟨hshared, hown, hothers⟩ := hact s i a t shared t' h hcond ht hstep
      exact h.act ht hshared hown hothers

theorem holds_of_run (hinit : G p.init 0)
    (hspawn : ∀ shared n r, G shared n → G shared (n + 1) ∧ J shared n (p.start r))
    (hact : ∀ s i a t shared t', Holds G J s → s.threads[i]? = some t →
      p.step i a s.shared t = some (shared, t') → G shared s.threads.length ∧ J shared i t' ∧
        ∀ j u, j ≠ i → s.threads[j]? = some u → J s.shared j u → J shared j u)
    {moves : List (Move ρ α)} (hrun : p.machine.run moves = some s) : Holds G J s := by
  refine holds_of_throughout (P := fun _ _ => True) hinit hspawn ?_ hrun ?_
  · exact fun s i a t shared t' h _ => hact s i a t shared t' h
  · exact fun _ _ _ _ _ _ => trivial

end Program

end SpecForge.Lib
