import Mathlib.Algebra.Ring.Nat
import Mathlib.Data.List.Basic
import Mathlib.Logic.Function.Iterate
import Mathlib.Order.Nat

/-!
# The proleptic Gregorian calendar

A date carries its validity. The distance between two dates is the number of times `next` leads
from one to the other.

- §1 years and months; §2 dates; §3 months and years as distances.
-/

namespace SpecForge.Lib.Calendar

/-! ## §1  Years and months -/

def IsLeap (y : ℕ) : Prop := 4 ∣ y ∧ (¬ 100 ∣ y ∨ 400 ∣ y)

instance : DecidablePred IsLeap := fun _ => inferInstanceAs (Decidable (_ ∧ _))

/-- The number of days in a month; months count from one. -/
def monthLength (y m : ℕ) : ℕ :=
  match m with
  | 2 => if IsLeap y then 29 else 28
  | 4 | 6 | 9 | 11 => 30
  | _ => 31

def yearLength (y : ℕ) : ℕ := if IsLeap y then 366 else 365

/-- The lengths of `k` months from `m` on. -/
def monthLengths (y m k : ℕ) : List ℕ := (List.range' m k).map (monthLength y)

theorem monthLength_pos (y m : ℕ) : 0 < monthLength y m := by
  unfold monthLength
  split
  · split <;> decide
  all_goals decide

theorem monthLengths_succ (y m k : ℕ) :
    monthLengths y m (k + 1) = monthLength y m :: monthLengths y (m + 1) k := rfl

theorem sum_monthLengths (y : ℕ) : (monthLengths y 1 12).sum = yearLength y := by
  by_cases h : IsLeap y <;> simp [monthLengths, List.range', monthLength, yearLength, h]

/-! ## §2  Dates -/

@[ext]
structure Date where
  year : ℕ
  month : ℕ
  day : ℕ
  month_pos : 1 ≤ month
  month_le : month ≤ 12
  day_pos : 1 ≤ day
  day_le : day ≤ monthLength year month

namespace Date

/-- The first day of a month. -/
def first (y m : ℕ) (hpos : 1 ≤ m) (hle : m ≤ 12) : Date where
  year := y
  month := m
  day := 1
  month_pos := hpos
  month_le := hle
  day_pos := le_refl 1
  day_le := monthLength_pos y m

def newYear (y : ℕ) : Date := first y 1 (le_refl 1) (by decide)

/-- The next day. -/
def next (d : Date) : Date :=
  if hday : d.day < monthLength d.year d.month then
    { d with
      day := d.day + 1
      day_pos := Nat.le_add_left 1 d.day
      day_le := hday }
  else if hmonth : d.month < 12 then first d.year (d.month + 1) (Nat.le_add_left 1 d.month) hmonth
  else newYear (d.year + 1)

/-! ## §3  Distances -/

/-- `k` days after the first of a month. -/
theorem iterate_next_first {y m : ℕ} (hpos : 1 ≤ m) (hle : m ≤ 12) : ∀ {k : ℕ}
    (hk : k < monthLength y m), next^[k] (first y m hpos hle) =
      ⟨y, m, 1 + k, hpos, hle, Nat.le_add_right 1 k, by omega⟩
  | 0, _ => rfl
  | k + 1, hk => by
      rw [Function.iterate_succ_apply', iterate_next_first hpos hle (Nat.lt_of_succ_lt hk), next]
      have hday : 1 + k < monthLength y m := by omega
      rw [dif_pos hday]
      rfl

/-- A month later it is the day after the last of the month. -/
theorem iterate_next_monthLength {y m : ℕ} (hpos : 1 ≤ m) (hle : m ≤ 12) :
    next^[monthLength y m] (first y m hpos hle) =
      next ⟨y, m, monthLength y m, hpos, hle, monthLength_pos y m, le_refl _⟩ := by
  obtain ⟨k, hk⟩ := Nat.exists_eq_add_one.mpr (monthLength_pos y m)
  have hlast : k < monthLength y m := by omega
  have hiter := iterate_next_first hpos hle hlast
  have hday : 1 + k = monthLength y m := by omega
  conv_lhs => rw [hk]
  rw [Function.iterate_succ_apply', hiter]
  congr

theorem iterate_next_month {y m : ℕ} (hpos : 1 ≤ m) (hlt : m < 12) :
    next^[monthLength y m] (first y m hpos hlt.le) = first y (m + 1) (Nat.le_add_left 1 m) hlt := by
  rw [iterate_next_monthLength, next, dif_neg (lt_irrefl _), dif_pos hlt]

theorem iterate_next_december (y : ℕ) :
    next^[monthLength y 12] (first y 12 (by decide) (le_refl 12)) = newYear (y + 1) := by
  rw [iterate_next_monthLength, next, dif_neg (lt_irrefl _), dif_neg (lt_irrefl _)]

/-- After `k` months. -/
theorem iterate_next_months {y : ℕ} : ∀ {m k : ℕ} (hpos : 1 ≤ m) (hle : m + k ≤ 12),
    next^[(monthLengths y m k).sum] (first y m hpos (by omega)) =
      first y (m + k) (by omega) hle
  | _, 0, _, _ => rfl
  | m, k + 1, hpos, hle => by
      rw [monthLengths_succ, List.sum_cons, Nat.add_comm, Function.iterate_add_apply,
        iterate_next_month hpos (by omega), iterate_next_months (Nat.le_add_left 1 m) (by omega)]
      congr 1
      omega

theorem iterate_next_year (y : ℕ) : next^[yearLength y] (newYear y) = newYear (y + 1) := by
  have hsum : yearLength y = monthLength y 12 + (monthLengths y 1 11).sum := by
    rw [← sum_monthLengths]
    simp [monthLengths, List.range', monthLength]
    omega
  rw [hsum, Function.iterate_add_apply, newYear, iterate_next_months (by decide) (by decide)]
  exact iterate_next_december y

end Date

end SpecForge.Lib.Calendar
