import SpecForge.Lib.Calendar
import SpecForge.Lib.Fuel

/-!
# Date stamps (`changelog.rs`, `lib.rs` of the TypeScript emitter)

Both stamps count the days since the first of January 1970, first in years and then in months. The
numbers are those of an `i64` that no `u64` number of seconds overflows.
-/

namespace SpecForge

open Lib Lib.Calendar

def isLeap (y : ℕ) : Bool := (y % 4 == 0 && y % 100 != 0) || y % 400 == 0

def daysInYear (y : ℕ) : ℕ := if isLeap y then 366 else 365

/-- The loop over the years: the year, and the days that remain in it. -/
def yearLoop : ℕ → ℕ → ℕ → Option (ℕ × ℕ)
  | 0, _, _ => none
  | fuel + 1, y, remaining =>
      if remaining < daysInYear y then some (y, remaining)
      else yearLoop fuel (y + 1) (remaining - daysInYear y)

def monthDays (leap : Bool) : List ℕ :=
  [31, if leap then 29 else 28, 31, 30, 31, 30, 31, 31, 30, 31, 30, 31]

/-- The loop over the months: the month, and the days that remain in it. -/
def monthLoop : List ℕ → ℕ → ℕ → ℕ × ℕ
  | [], m, remaining => (m, remaining)
  | md :: rest, m, remaining =>
      if remaining < md then (m, remaining) else monthLoop rest (m + 1) (remaining - md)

/-- Year, month and day. -/
def civil (fuel days : ℕ) : Option (ℕ × ℕ × ℕ) :=
  (yearLoop fuel 1970 days).map fun (y, remaining) =>
    let (m, remaining) := monthLoop (monthDays (isLeap y)) 1 remaining
    (y, m, remaining + 1)

/-- A number in decimal, filled up with zeros. -/
def zeroPadded (width n : ℕ) : String :=
  let digits := Nat.toDigits 10 n
  String.ofList (List.replicate (width - digits.length) '0' ++ digits)

def currentDate (fuel secs : ℕ) : Option String :=
  (civil fuel (secs / 86400)).map fun (y, m, d) =>
    zeroPadded 4 y ++ "-" ++ zeroPadded 2 m ++ "-" ++ zeroPadded 2 d

def chronoFreeTimestamp (fuel secs : ℕ) : Option String :=
  let timeOfDay := secs % 86400
  let hours := timeOfDay / 3600
  let minutes := timeOfDay % 3600 / 60
  let seconds := timeOfDay % 60
  (civil fuel (secs / 86400)).map fun (y, m, d) =>
    zeroPadded 4 y ++ "-" ++ zeroPadded 2 m ++ "-" ++ zeroPadded 2 d ++ "T" ++
      zeroPadded 2 hours ++ ":" ++ zeroPadded 2 minutes ++ ":" ++ zeroPadded 2 seconds ++ "Z"

theorem isLeap_iff {y : ℕ} : isLeap y = true ↔ IsLeap y := by
  simp only [isLeap, IsLeap, Bool.or_eq_true, Bool.and_eq_true, beq_iff_eq, bne_iff_ne]
  omega

theorem daysInYear_eq (y : ℕ) : daysInYear y = yearLength y := by
  simp only [daysInYear, yearLength, isLeap_iff]

theorem monthDays_eq (y : ℕ) : monthDays (isLeap y) = monthLengths y 1 12 := by
  simp only [monthDays, isLeap_iff]
  rfl

/-- The loop over the years stays at one date: what it takes from the days it adds to the year. -/
theorem yearLoop_spec : ∀ {fuel y remaining : ℕ}, remaining < fuel →
    ∃ y' remaining', yearLoop fuel y remaining = some (y', remaining') ∧
      remaining' < yearLength y' ∧
      Date.next^[remaining] (Date.newYear y) = Date.next^[remaining'] (Date.newYear y')
  | fuel + 1, y, remaining, hfuel => by
      rw [yearLoop, daysInYear_eq]
      by_cases hlt : remaining < yearLength y
      · exact ⟨y, remaining, if_pos hlt, hlt, rfl⟩
      · have hpos : 0 < yearLength y := by
          unfold yearLength
          split <;> decide
        have hfuel' : remaining - yearLength y < fuel := by omega
        obtain ⟨y', remaining', hloop, hlt', hdate⟩ := yearLoop_spec (y := y + 1) hfuel'
        refine ⟨y', remaining', (if_neg hlt).trans hloop, hlt', ?_⟩
        rw [← hdate, ← Date.iterate_next_year, ← Function.iterate_add_apply]
        congr 1
        omega

/-- The loop over the months stays at one date, too, and does not leave the year. -/
theorem monthLoop_spec {y : ℕ} : ∀ {k m remaining : ℕ} (hpos : 1 ≤ m) (hm : m + k = 12),
    remaining < (monthLengths y m (k + 1)).sum → ∃ m' remaining' hpos' hle',
      monthLoop (monthLengths y m (k + 1)) m remaining = (m', remaining') ∧
      remaining' < monthLength y m' ∧
      Date.next^[remaining] (Date.first y m hpos (by omega)) =
        Date.next^[remaining'] (Date.first y m' hpos' hle') := by
  intro k
  induction k with
  | zero =>
      intro m remaining hpos hm hlt
      have hlt' : remaining < monthLength y m := by simpa [monthLengths] using hlt
      exact ⟨m, remaining, hpos, by omega, if_pos hlt', hlt', rfl⟩
  | succ k ih =>
      intro m remaining hpos hm hlt
      rw [monthLengths_succ] at hlt ⊢
      rw [List.sum_cons] at hlt
      by_cases hlt' : remaining < monthLength y m
      · exact ⟨m, remaining, hpos, by omega, if_pos hlt', hlt', rfl⟩
      · have hrest : remaining - monthLength y m < (monthLengths y (m + 1) (k + 1)).sum := by omega
        obtain ⟨m', remaining', hpos', hle', hloop, hlt'', hdate⟩ :=
          ih (Nat.le_add_left 1 m) (by omega) hrest
        refine ⟨m', remaining', hpos', hle', (if_neg hlt').trans hloop, hlt'', ?_⟩
        rw [← hdate, ← Date.iterate_next_month hpos (by omega), ← Function.iterate_add_apply]
        congr 1
        omega

def epoch : Date := Date.newYear 1970

/-- The date so many days after the first of January 1970. -/
def dateAfter (days : ℕ) : Date := Date.next^[days] epoch

theorem civil_returns (days : ℕ) : Returns (civil · days)
    ((dateAfter days).year, (dateAfter days).month, (dateAfter days).day) := by
  obtain ⟨y, remaining, hyear, hlt, hdate⟩ := yearLoop_spec (y := 1970) (Nat.lt_succ_self days)
  rw [← sum_monthLengths] at hlt
  obtain ⟨m, remaining', hpos, hle, hmonth, hlt', hdate'⟩ :=
    monthLoop_spec (k := 11) (le_refl 1) rfl hlt
  have heq : dateAfter days = ⟨y, m, 1 + remaining', hpos, hle, by omega, by omega⟩ := by
    rw [← Date.iterate_next_first hpos hle hlt', ← hdate']
    exact hdate
  refine ⟨days + 1, ?_⟩
  dsimp only [civil]
  rw [hyear, heq, Option.map_some]
  dsimp only
  rw [monthDays_eq, hmonth, Nat.add_comm 1 remaining']

theorem yearLoop_succ : ∀ {fuel y remaining : ℕ} {found : ℕ × ℕ},
    yearLoop fuel y remaining = some found → yearLoop (fuel + 1) y remaining = some found
  | fuel + 1, y, remaining, found, h => by
      rw [yearLoop] at h ⊢
      split at h
      · next hlt => exact (if_pos hlt).trans h
      · next hlt => exact (if_neg hlt).trans (yearLoop_succ h)

/-- What is made of the date in the end does not depend on the budget. -/
theorem civil_map_stable {β : Type} (days : ℕ) (text : ℕ × ℕ × ℕ → β) :
    Stable fun fuel => (civil fuel days).map text := by
  intro fuel b h
  obtain ⟨ymd, hcivil, rfl⟩ := Option.map_eq_some_iff.mp h
  obtain ⟨found, hloop, rfl⟩ := Option.map_eq_some_iff.mp hcivil
  dsimp only [civil]
  rw [yearLoop_succ hloop]
  rfl

def dateText (d : Date) : String :=
  zeroPadded 4 d.year ++ "-" ++ zeroPadded 2 d.month ++ "-" ++ zeroPadded 2 d.day

/-- The time of a day in seconds. -/
def timeText (seconds : ℕ) : String :=
  "T" ++ zeroPadded 2 (seconds / 3600) ++ ":" ++ zeroPadded 2 (seconds % 3600 / 60) ++ ":" ++
    zeroPadded 2 (seconds % 60) ++ "Z"

/-- **Both stamps have the date that is as many days after the first of January 1970 as the seconds
make**, which is a date of the calendar as all of them are. -/
theorem stamps_correct (secs : ℕ) :
    (∀ ymd, Returns (civil · (secs / 86400)) ymd ↔ ymd = ((dateAfter (secs / 86400)).year,
      (dateAfter (secs / 86400)).month, (dateAfter (secs / 86400)).day)) ∧
    (∀ s, Returns (currentDate · secs) s ↔ s = dateText (dateAfter (secs / 86400))) ∧
    ∀ s, Returns (chronoFreeTimestamp · secs) s ↔
      s = dateText (dateAfter (secs / 86400)) ++ timeText (secs % 86400) := by
  have hreturns := civil_returns (secs / 86400)
  refine ⟨fun ymd => ?_, fun s => ?_, fun s => ?_⟩
  · have hid : Returns _ ymd ↔ _ := (hreturns.map id).iff_eq (civil_map_stable _ id)
    simpa only [Option.map_id_fun, id_eq] using hid
  · exact (hreturns.map _).iff_eq (civil_map_stable _ _)
  · apply ((hreturns.map _).iff_eq (civil_map_stable _ _)).trans
    simp only [dateText, timeText, String.append_assoc]

example : currentDate 31 951782400 = some "2000-02-29" := by decide +kernel

end SpecForge
