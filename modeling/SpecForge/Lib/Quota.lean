import Mathlib.Algebra.Order.Field.Basic
import Mathlib.Algebra.Order.Ring.Rat
import Mathlib.Data.List.Basic
import Mathlib.Data.List.TakeWhile
import Mathlib.Tactic.Linarith
import Mathlib.Tactic.Ring

/-!
# Quotas

The times at which something was admitted, counted between two times (§1). An account holds
a level up to a cap and earns at a rate: while it covers what was admitted, admitting for one
unit of the level keeps every interval within the cap and what is earned in it (§2). Windows
of one length are kept within a cap by looking back from each admission (§3), for which the
times that have left them need not be kept (§4).
-/

namespace SpecForge.Lib.Quota

universe u

/-! ## §1  Counting -/

section Count

variable {K : Type u} [LinearOrder K]

/-- How many of the times are between two, both included. -/
def countIn (a b : K) (times : List K) : ℕ := times.countP fun t => decide (a ≤ t ∧ t ≤ b)

@[simp] theorem countIn_nil (a b : K) : countIn a b [] = 0 := rfl

theorem countIn_concat_of_mem {a b t : K} (ha : a ≤ t) (hb : t ≤ b) (times : List K) :
    countIn a b (times ++ [t]) = countIn a b times + 1 := by
  rw [countIn, List.countP_append, List.countP_singleton, if_pos (by simp [ha, hb])]
  rfl

theorem countIn_concat_of_not_mem {a b t : K} (h : ¬ (a ≤ t ∧ t ≤ b)) (times : List K) :
    countIn a b (times ++ [t]) = countIn a b times := by
  rw [countIn, List.countP_append, List.countP_singleton,
    if_neg (by simpa only [decide_eq_true_eq] using h)]
  rfl

theorem countIn_eq_zero {a b : K} {times : List K} (h : ∀ t ∈ times, t < a) :
    countIn a b times = 0 := by
  rw [countIn, List.countP_eq_zero]
  intro t ht
  simp [not_le.mpr (h t ht)]

/-- What is past is counted up to the clock. -/
theorem countIn_of_past {clock b : K} {times : List K} (h : ∀ t ∈ times, t ≤ clock)
    (hb : clock ≤ b) (a : K) : countIn a b times = countIn a clock times := by
  refine List.countP_congr fun t ht => ?_
  have hpast := h t ht
  simp [hpast, hpast.trans hb]

/-- How many of the times are later than one. -/
def countAfter (a : K) (times : List K) : ℕ := times.countP fun t => decide (a < t)

/-- What is counted in a set of times after one is counted after it. -/
theorem countP_le_countAfter {p : K → Bool} {a : K} {times : List K}
    (h : ∀ t ∈ times, p t = true → a < t) : times.countP p ≤ countAfter a times := by
  refine List.countP_mono_left fun t ht hp => ?_
  exact decide_eq_true (h t ht hp)

/-- Dropping what is not after a time, in order, leaves what is. -/
theorem lt_of_mem_dropWhile {a : K} {times : List K} (hsorted : times.Pairwise (· ≤ ·)) {t : K}
    (ht : t ∈ times.dropWhile fun t => decide (t ≤ a)) : a < t := by
  induction times with
  | nil => exact absurd ht List.not_mem_nil
  | cons r rest ih =>
      rw [List.pairwise_cons] at hsorted
      by_cases hr : r ≤ a
      · rw [List.dropWhile_cons_of_pos (by simpa using hr)] at ht
        exact ih hsorted.2 ht
      · rw [List.dropWhile_cons_of_neg (by simpa using hr)] at ht
        rcases List.mem_cons.mp ht with rfl | ht
        · exact not_le.mp hr
        · exact (not_le.mp hr).trans_le (hsorted.1 t ht)

end Count

/-! ## §2  Accounts -/

section Account

variable {K : Type u} [Field K] [LinearOrder K] [IsStrictOrderedRing K]

/-- An account with this level at this time covers what was admitted so far. -/
structure Covers (cap rate : K) (times : List K) (level clock : K) : Prop where
  past : ∀ t ∈ times, t ≤ clock
  nonneg : 0 ≤ level
  le_cap : level ≤ cap
  since : ∀ a, a ≤ clock → (countIn a clock times : K) + level ≤ cap + rate * (clock - a)
  within : ∀ a b, a ≤ b → (countIn a b times : K) ≤ cap + rate * (b - a)

variable {cap rate : K}

theorem covers_nil (hcap : 0 ≤ cap) (hrate : 0 ≤ rate) (clock : K) :
    Covers cap rate [] cap clock := by
  constructor
  · intro t ht
    exact absurd ht List.not_mem_nil
  · exact hcap
  · exact le_rfl
  · intro a ha
    have := mul_nonneg hrate (sub_nonneg.mpr ha)
    simp only [countIn_nil, Nat.cast_zero]
    linarith
  · intro a b hab
    have := mul_nonneg hrate (sub_nonneg.mpr hab)
    simp only [countIn_nil, Nat.cast_zero]
    linarith

variable {times : List K} {level clock : K}

/-- Time passes, and the level grows by at most what is earned. -/
theorem Covers.elapse (h : Covers cap rate times level clock) (hrate : 0 ≤ rate)
    {level' clock' : K} (hclock : clock ≤ clock') (hnonneg : 0 ≤ level') (hcap : level' ≤ cap)
    (hearned : level' ≤ level + rate * (clock' - clock)) :
    Covers cap rate times level' clock' := by
  constructor
  · intro t ht
    exact (h.past t ht).trans hclock
  · exact hnonneg
  · exact hcap
  · intro a ha
    rcases le_or_gt a clock with hbefore | hafter
    · have hsince := h.since a hbefore
      have hsplit : rate * (clock' - a) = rate * (clock' - clock) + rate * (clock - a) := by ring
      rw [countIn_of_past h.past hclock]
      linarith
    · have hzero : countIn a clock' times = 0 :=
        countIn_eq_zero fun t ht => lt_of_le_of_lt (h.past t ht) hafter
      have := mul_nonneg hrate (sub_nonneg.mpr ha)
      rw [hzero, Nat.cast_zero]
      linarith
  · exact h.within

/-- One unit of the level is spent to admit one at the clock. -/
theorem Covers.spend (h : Covers cap rate times level clock) (hrate : 0 ≤ rate)
    (hlevel : 1 ≤ level) : Covers cap rate (times ++ [clock]) (level - 1) clock := by
  have hle := h.le_cap
  have hsince : ∀ a, a ≤ clock →
      (countIn a clock (times ++ [clock]) : K) + (level - 1) ≤ cap + rate * (clock - a) := by
    intro a ha
    have hbefore := h.since a ha
    rw [countIn_concat_of_mem ha le_rfl, Nat.cast_add, Nat.cast_one]
    linarith
  have hpast : ∀ t ∈ times ++ [clock], t ≤ clock := by
    intro t ht
    rcases List.mem_append.mp ht with ht | ht
    · exact h.past t ht
    · exact (List.mem_singleton.mp ht).le
  constructor
  · exact hpast
  · linarith
  · linarith
  · exact hsince
  · intro a b hab
    by_cases hmem : a ≤ clock ∧ clock ≤ b
    · have hbound := hsince a hmem.1
      have hmono := mul_le_mul_of_nonneg_left (sub_le_sub_right hmem.2 a) hrate
      rw [countIn_of_past hpast hmem.2]
      linarith
    · rw [countIn_concat_of_not_mem hmem]
      exact h.within a b hab

end Account

/-! ## §3  Windows -/

section Window

variable {K : Type u} [CommRing K] [LinearOrder K] [IsStrictOrderedRing K]

/-- No half-open interval of this length has more of the times than the cap. -/
def Windowed (length cap : K) (times : List K) : Prop :=
  ∀ a, (times.countP (fun t => decide (a ≤ t ∧ t < a + length)) : K) ≤ cap ∧
    (times.countP (fun t => decide (a < t ∧ t ≤ a + length)) : K) ≤ cap

variable {length cap : K}

omit [IsStrictOrderedRing K] in
theorem windowed_nil (hcap : 0 ≤ cap) : Windowed length cap [] := fun _ => by simp [hcap]

theorem Windowed.of_concat {times : List K} {now : K} (h : Windowed length cap (times ++ [now])) :
    Windowed length cap times := by
  intro a
  obtain ⟨hleft, hright⟩ := h a
  rw [List.countP_append, Nat.cast_add] at hleft hright
  constructor
  · exact (le_add_of_nonneg_right (Nat.cast_nonneg _)).trans hleft
  · exact (le_add_of_nonneg_right (Nat.cast_nonneg _)).trans hright

/-- One more admission keeps the windows if the one that ends with it has room. -/
theorem windowed_concat {times : List K} {now : K} (hlength : 0 < length)
    (hpast : ∀ t ∈ times, t ≤ now) :
    Windowed length cap (times ++ [now]) ↔
      Windowed length cap times ∧ (countAfter (now - length) times : K) + 1 ≤ cap := by
  constructor
  · intro h
    refine ⟨h.of_concat, ?_⟩
    have hlast := (h (now - length)).2
    have hcount : (times ++ [now]).countP
        (fun t => decide (now - length < t ∧ t ≤ now - length + length)) =
          countAfter (now - length) times + 1 := by
      rw [sub_add_cancel, List.countP_append, List.countP_singleton, if_pos (by simp [hlength])]
      refine congrArg (· + 1) (List.countP_congr fun t ht => ?_)
      simp [hpast t ht]
    rw [hcount, Nat.cast_add, Nat.cast_one] at hlast
    exact hlast
  · rintro ⟨hbefore, hroom⟩ a
    have hbound : ∀ p : K → Bool, (times.countP p : K) ≤ cap →
        (p now = true → ∀ t ∈ times, p t = true → now - length < t) →
        ((times ++ [now]).countP p : K) ≤ cap := by
      intro p hcap hlater
      rw [List.countP_append, List.countP_singleton]
      by_cases hp : p now = true
      · have hle : (times.countP p : K) ≤ countAfter (now - length) times :=
          Nat.cast_le.mpr (countP_le_countAfter (hlater hp))
        rw [if_pos hp, Nat.cast_add, Nat.cast_one]
        linarith
      · rw [if_neg hp, Nat.add_zero]
        exact hcap
    constructor
    · refine hbound _ (hbefore a).1 ?_
      intro hnow t _ ht
      simp only [decide_eq_true_eq] at hnow ht
      linarith [hnow.2, ht.1]
    · refine hbound _ (hbefore a).2 ?_
      intro hnow t _ ht
      simp only [decide_eq_true_eq] at hnow ht
      linarith [hnow.2, ht.1]

omit [IsStrictOrderedRing K] in
/-- What is after a time and up to the clock is a window, or a part of one. -/
theorem Windowed.countAfter_le {times : List K} (h : Windowed length cap times) {a : K}
    (hpast : ∀ t ∈ times, t ≤ a + length) : (countAfter a times : K) ≤ cap := by
  have hwindow := (h a).2
  have hcount : countAfter a times =
      times.countP fun t => decide (a < t ∧ t ≤ a + length) := by
    refine List.countP_congr fun t ht => ?_
    simp [hpast t ht]
  rw [hcount]
  exact hwindow

end Window

/-! ## §4  What is kept -/

section Kept

variable {K : Type u} [CommRing K] [LinearOrder K] [IsStrictOrderedRing K]

/-- What is kept of all times: the others have left every window that ends from now on. -/
structure Kept (length : K) (kept times : List K) (clock : K) : Prop where
  sorted : times.Pairwise (· ≤ ·)
  past : ∀ t ∈ times, t ≤ clock
  split : ∃ left, times = left ++ kept ∧ ∀ t ∈ left, t ≤ clock - length

omit [IsStrictOrderedRing K] in
theorem kept_nil (length clock : K) : Kept length [] [] clock := by
  refine ⟨List.Pairwise.nil, ?_, [], rfl, ?_⟩
  · exact fun t ht => absurd ht List.not_mem_nil
  · exact fun t ht => absurd ht List.not_mem_nil

omit [CommRing K] [IsStrictOrderedRing K] in
/-- Of times in order, those after one are what is left when the others are dropped. -/
theorem filter_eq_dropWhile {a : K} : ∀ {times : List K}, times.Pairwise (· ≤ ·) →
    times.filter (fun t => decide (a < t)) = times.dropWhile fun t => decide (t ≤ a)
  | [], _ => rfl
  | t :: rest, hsorted => by
      rw [List.pairwise_cons] at hsorted
      by_cases ht : t ≤ a
      · rw [List.filter_cons_of_neg (by simpa using ht),
          List.dropWhile_cons_of_pos (by simpa using ht)]
        exact filter_eq_dropWhile hsorted.2
      · rw [List.dropWhile_cons_of_neg (by simpa using ht), List.filter_eq_self]
        intro t' ht'
        rcases List.mem_cons.mp ht' with rfl | ht'
        · exact decide_eq_true (not_le.mp ht)
        · exact decide_eq_true ((not_le.mp ht).trans_le (hsorted.1 t' ht'))

namespace Kept

variable {length clock now : K} {kept times : List K}

theorem elapse (h : Kept length kept times clock) (hclock : clock ≤ now) :
    Kept length kept times now := by
  obtain ⟨left, hsplit, hleft⟩ := h.split
  refine ⟨h.sorted, ?_, left, hsplit, ?_⟩
  · exact fun t ht => (h.past t ht).trans hclock
  · exact fun t ht => (hleft t ht).trans (sub_le_sub_right hclock length)

omit [IsStrictOrderedRing K] in
theorem kept_sorted (h : Kept length kept times clock) : kept.Pairwise (· ≤ ·) := by
  obtain ⟨left, hsplit, -⟩ := h.split
  have hall := h.sorted
  rw [hsplit] at hall
  exact (List.pairwise_append.mp hall).2.1

/-- What has left the window is dropped. -/
theorem evict (h : Kept length kept times clock) (hclock : clock ≤ now) :
    Kept length (kept.dropWhile fun t => decide (t ≤ now - length)) times now := by
  have hlater := h.elapse hclock
  obtain ⟨left, hsplit, hleft⟩ := hlater.split
  refine ⟨h.sorted, hlater.past, ?_⟩
  refine ⟨left ++ kept.takeWhile fun t => decide (t ≤ now - length), ?_, ?_⟩
  · rw [List.append_assoc, List.takeWhile_append_dropWhile, hsplit]
  · intro t ht
    rcases List.mem_append.mp ht with ht | ht
    · exact hleft t ht
    · have hout := List.mem_takeWhile_imp ht
      exact of_decide_eq_true hout

theorem push (h : Kept length kept times clock) (hclock : clock ≤ now) :
    Kept length (kept ++ [now]) (times ++ [now]) now := by
  have hlater := h.elapse hclock
  obtain ⟨left, hsplit, hleft⟩ := hlater.split
  refine ⟨?_, ?_, left, ?_, hleft⟩
  · rw [List.pairwise_append]
    refine ⟨h.sorted, List.pairwise_singleton _ _, ?_⟩
    intro t ht t' ht'
    rw [List.mem_singleton] at ht'
    exact ht' ▸ hlater.past t ht
  · intro t ht
    rcases List.mem_append.mp ht with ht | ht
    · exact hlater.past t ht
    · exact (List.mem_singleton.mp ht).le
  · rw [hsplit, List.append_assoc]

/-- What has left the window is not counted in one that ends later. -/
theorem countAfter_eq (h : Kept length kept times clock) (hclock : clock ≤ now) :
    countAfter (now - length) times = countAfter (now - length) kept := by
  obtain ⟨left, hsplit, hleft⟩ := (h.elapse hclock).split
  have hzero : left.countP (fun t => decide (now - length < t)) = 0 := by
    rw [List.countP_eq_zero]
    intro t ht
    simp [hleft t ht]
  rw [countAfter, hsplit, List.countP_append, hzero, Nat.zero_add]
  rfl

/-- There is room for one more as long as fewer are kept than the cap. -/
theorem windowed_push {cap : K} (h : Kept length kept times clock) (hlength : 0 < length)
    (hclock : clock ≤ now) (hwindowed : Windowed length cap times)
    (hroom : (kept.length : K) + 1 ≤ cap) : Windowed length cap (times ++ [now]) := by
  rw [windowed_concat hlength (h.elapse hclock).past, h.countAfter_eq hclock]
  have hcount : (countAfter (now - length) kept : K) ≤ kept.length :=
    Nat.cast_le.mpr List.countP_le_length
  exact ⟨hwindowed, (add_le_add_left hcount 1).trans hroom⟩

end Kept

end Kept

end SpecForge.Lib.Quota
