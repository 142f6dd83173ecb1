import Mathlib.Algebra.Order.Ring.Int
import Mathlib.Data.List.Pairwise
import Mathlib.Data.Option.Basic
import Mathlib.Logic.Function.Basic

/-!
# Maps whose entries expire

A store says what was put last under each key, and when; an entry that is too old is not read
(§1). Two stores are the same from some time on if nobody can tell them apart from then on (§2):
whoever drops what has expired does not change the store. A cache that keeps a store in this
sense answers every run of operations like the store that drops nothing (`answers_eq`, §3).
-/

namespace SpecForge.Lib

universe u v w

/-! ## §1  Stores -/

/-- A value, and when it was put. -/
structure Stamped (V : Type v) where
  value : V
  stamp : ℤ
deriving DecidableEq

def Stamped.isFresh {V : Type v} (ttl now : ℤ) (e : Stamped V) : Bool :=
  decide (now - e.stamp < ttl)

abbrev Store (K : Type u) (V : Type v) := K → Option (Stamped V)

namespace Store

variable {K : Type u} {V : Type v} {ttl now now' : ℤ} {m m' m'' : Store K V} {k : K}
  {e : Stamped V}

def empty : Store K V := fun _ => none

def read (ttl now : ℤ) (m : Store K V) (k : K) : Option (Stamped V) :=
  (m k).filter fun e => e.isFresh ttl now

/-- What has expired stays so. -/
theorem isFresh_of_le (hle : now ≤ now') (h : e.isFresh ttl now' = true) :
    e.isFresh ttl now = true := by
  rw [Stamped.isFresh, decide_eq_true_eq] at h ⊢
  omega

/-! ## §2  The same from some time on -/

def EqFrom (ttl now : ℤ) (m m' : Store K V) : Prop :=
  ∀ t, now ≤ t → ∀ k, m.read ttl t k = m'.read ttl t k

theorem EqFrom.refl (ttl now : ℤ) (m : Store K V) : EqFrom ttl now m m := fun _ _ _ => rfl

theorem EqFrom.trans (h : EqFrom ttl now m m') (h' : EqFrom ttl now m' m'') :
    EqFrom ttl now m m'' :=
  fun t ht k => (h t ht k).trans (h' t ht k)

theorem EqFrom.mono (h : EqFrom ttl now m m') (hle : now ≤ now') : EqFrom ttl now' m m' :=
  fun t ht k => h t (hle.trans ht) k

/-- `m'` has everything of `m` that has not expired, and nothing else. -/
structure Drops (ttl now : ℤ) (m m' : Store K V) : Prop where
  kept : ∀ k e, m' k = some e → m k = some e
  dropped : ∀ k e, m k = some e → m' k = none → e.isFresh ttl now = false

theorem Drops.refl (ttl now : ℤ) (m : Store K V) : Drops ttl now m m where
  kept _ _ he := he
  dropped _ _ hsome hnone := by
    rw [hsome] at hnone
    cases hnone

theorem Drops.eqFrom (h : Drops ttl now m m') : EqFrom ttl now m' m := by
  intro t ht k
  cases hnew : m' k with
  | some e => rw [read, read, hnew, h.kept k e hnew]
  | none =>
      rw [read, read, hnew, Option.filter_none]
      cases hold : m k with
      | none => rfl
      | some e =>
          have hexpired : e.isFresh ttl t = false := by
            apply Bool.eq_false_iff.mpr
            intro hfresh
            have hstale := h.dropped k e hold hnew
            rw [isFresh_of_le ht hfresh] at hstale
            cases hstale
          rw [Option.filter_some, hexpired]
          rfl

variable [DecidableEq K]

def put (m : Store K V) (now : ℤ) (k : K) (v : V) : Store K V :=
  Function.update m k (some ⟨v, now⟩)

theorem EqFrom.put (h : EqFrom ttl now m m') (k : K) (v : V) :
    EqFrom ttl now (m.put now k v) (m'.put now k v) := by
  intro t ht j
  rw [read, read, Store.put, Store.put]
  by_cases hj : j = k
  · rw [hj, Function.update_self, Function.update_self]
  · rw [Function.update_of_ne hj, Function.update_of_ne hj]
    exact h t ht j

end Store

/-! ## §3  Caches -/

namespace Store

inductive Op (K : Type u) (V : Type v) where
  | get (k : K)
  | set (k : K) (v : V)
  | clear

/-- The answers of a machine that takes one operation after the other. -/
def answers {σ : Type u} {ι : Type v} {α : Type w} (step : σ → ι → α × σ) : σ → List ι → List α
  | _, [] => []
  | s, i :: is => (step s i).1 :: answers step (step s i).2 is

variable {K : Type u} {V : Type v} {ttl now : ℤ} {m m' : Store K V}

/-- No entry is from after `now`. -/
def PutBy (now : ℤ) (m : Store K V) : Prop := ∀ k e, m k = some e → e.stamp ≤ now

theorem PutBy.mono {now' : ℤ} (h : PutBy now m) (hle : now ≤ now') : PutBy now' m :=
  fun k e he => (h k e he).trans hle

theorem PutBy.drops (h : PutBy now m) (hdrops : Drops ttl now m m') : PutBy now m' :=
  fun k e he => h k e (hdrops.kept k e he)

variable [DecidableEq K]

/-- The store that drops nothing. -/
def spec (ttl : ℤ) (m : Store K V) : ℤ × Op K V → Option (Stamped V) × Store K V
  | (now, .get k) => (m.read ttl now k, m)
  | (now, .set k v) => (none, m.put now k v)
  | (_, .clear) => (none, empty)

/-- A cache keeps a store: in the states of the invariant its view of an operation is that of the
store, as far as anyone can tell from then on. -/
structure Implements {σ : Type w} (step : σ → ℤ × Op K V → Option (Stamped V) × σ)
    (view : σ → Store K V) (I : σ → Prop) (ttl : ℤ) : Prop where
  kept : ∀ s op, I s → I (step s op).2
  answer : ∀ s now op, I s → PutBy now (view s) →
    (step s (now, op)).1 = (spec ttl (view s) (now, op)).1
  view : ∀ s now op, I s → PutBy now (view s) →
    Drops ttl now (spec ttl (view s) (now, op)).2 (view (step s (now, op)).2)

theorem PutBy.spec (h : PutBy now m) (op : Op K V) : PutBy now (spec ttl m (now, op)).2 := by
  cases op with
  | get k => exact h
  | set k v =>
      intro j e he
      change Function.update m k (some ⟨v, now⟩) j = some e at he
      by_cases hj : j = k
      · rw [hj, Function.update_self, Option.some.injEq] at he
        rw [← he]
      · rw [Function.update_of_ne hj] at he
        exact h j e he
  | clear => exact nofun

/-- The store cannot tell the two apart either. -/
theorem EqFrom.spec (h : EqFrom ttl now m m') (op : Op K V) :
    (Store.spec ttl m (now, op)).1 = (Store.spec ttl m' (now, op)).1 ∧
      EqFrom ttl now (Store.spec ttl m (now, op)).2 (Store.spec ttl m' (now, op)).2 := by
  cases op with
  | get k => exact ⟨h now le_rfl k, h⟩
  | set k v => exact ⟨rfl, h.put k v⟩
  | clear => exact ⟨rfl, EqFrom.refl _ _ _⟩

/-- **A cache that keeps a store answers like it**, as long as the clock does not go back. -/
theorem answers_eq {σ : Type w} {step : σ → ℤ × Op K V → Option (Stamped V) × σ}
    {view : σ → Store K V} {I : σ → Prop} (h : Implements step view I ttl) :
    ∀ {run : List (ℤ × Op K V)} {s : σ} {m : Store K V} {now : ℤ}, I s → PutBy now (view s) →
      EqFrom ttl now (view s) m → (now :: run.map Prod.fst).Pairwise (· ≤ ·) →
        answers step s run = answers (spec ttl) m run := by
  intro run
  induction run with
  | nil => exact fun _ _ _ _ => rfl
  | cons e run ih =>
      intro s m now hI hput heq htimes
      obtain ⟨t, op⟩ := e
      rw [List.map_cons, List.pairwise_cons] at htimes
      have hle : now ≤ t := htimes.1 t List.mem_cons_self
      have hput' := hput.mono hle
      obtain ⟨hanswer, hstore⟩ := (heq.mono hle).spec op
      have hdrops := h.view s t op hI hput'
      rw [answers, answers, h.answer s t op hI hput', hanswer]
      refine congrArg _ (ih (h.kept s (t, op) hI) ((hput'.spec op).drops hdrops) ?_ htimes.2)
      exact hdrops.eqFrom.trans hstore

end Store

end SpecForge.Lib
