import Mathlib.Data.List.Basic

/-!
# ASCII letters

`Char.toUpper` and `Char.toLower` move within the ASCII letters and leave every other
character alone.
-/

namespace SpecForge.Lib.Ascii

theorem isLower_iff {c : Char} :
    c.isLower = true ↔ 'a'.val ≤ c.val ∧ c.val ≤ 'z'.val := by
  show (decide (c.val ≥ 'a'.val) && decide (c.val ≤ 'z'.val)) = true ↔ _
  simp

theorem isUpper_iff {c : Char} :
    c.isUpper = true ↔ 'A'.val ≤ c.val ∧ c.val ≤ 'Z'.val := by
  show decide (c.val ≥ 'A'.val ∧ c.val ≤ 'Z'.val) = true ↔ _
  simp

theorem isAlphanum_of_isUpper {c : Char} (h : c.isUpper = true) : c.isAlphanum = true := by
  show (c.isUpper || c.isLower || c.isDigit) = true
  rw [h, Bool.true_or, Bool.true_or]

theorem isAlphanum_of_isDigit {c : Char} (h : c.isDigit = true) : c.isAlphanum = true := by
  rw [Char.isAlphanum, h, Bool.or_true]

/-- A letter is in one case, and a digit in neither. -/
theorem isLower_eq_false_of_isUpper {c : Char} (h : c.isUpper = true) :
    c.isLower = false := by
  rw [← Bool.not_eq_true, isLower_iff]
  rw [isUpper_iff] at h
  rintro ⟨hlow, -⟩
  exact absurd (UInt32.le_trans hlow h.2) (by decide)

theorem isLower_eq_false_of_isDigit {c : Char} (h : c.isDigit = true) :
    c.isLower = false := by
  have h' : '0'.val ≤ c.val ∧ c.val ≤ '9'.val := by simpa [Char.isDigit] using h
  rw [← Bool.not_eq_true, isLower_iff]
  rintro ⟨hlow, -⟩
  exact absurd (UInt32.le_trans hlow h'.2) (by decide)

theorem isDigit_eq_false_of_isUpper {c : Char} (h : c.isUpper = true) :
    c.isDigit = false := by
  rw [← Bool.not_eq_true]
  intro hd
  have h' : '0'.val ≤ c.val ∧ c.val ≤ '9'.val := by simpa [Char.isDigit] using hd
  exact absurd (UInt32.le_trans (isUpper_iff.mp h).1 h'.2) (by decide)

theorem isDigit_eq_false_of_isLower {c : Char} (h : c.isLower = true) :
    c.isDigit = false := by
  rw [← Bool.not_eq_true]
  intro hd
  rw [isLower_eq_false_of_isDigit hd] at h
  cases h

theorem toUpper_eq_self {c : Char} (h : c.isLower = false) : c.toUpper = c := by
  unfold Char.toUpper
  rw [dif_neg]
  rwa [← isLower_iff, Bool.not_eq_true]

theorem isUpper_toUpper {c : Char} (h : c.isLower = true) : c.toUpper.isUpper = true := by
  have h' := isLower_iff.mp h
  have hlow := UInt32.le_iff_toNat_le.mp h'.1
  have hhigh := UInt32.le_iff_toNat_le.mp h'.2
  have ha : 'a'.val.toNat = 97 := rfl
  have hz : 'z'.val.toNat = 122 := rfl
  have hA : 'A'.val.toNat = 65 := rfl
  have hZ : 'Z'.val.toNat = 90 := rfl
  -- the shift is by `-32` modulo the width
  have hshift : ('A'.val - 'a'.val).toNat = 4294967264 := rfl
  unfold Char.toUpper
  rw [dif_pos h', isUpper_iff]
  simp only [UInt32.le_iff_toNat_le, UInt32.toNat_add]
  omega

/-- What `toUpper` makes of a letter or a digit. -/
theorem toUpper_alphanum {c : Char} (h : c.isAlphanum = true) :
    c.toUpper.isUpper = true ∨ c.toUpper.isDigit = true := by
  change (c.isUpper || c.isLower || c.isDigit) = true at h
  rw [Bool.or_eq_true, Bool.or_eq_true] at h
  rcases h with (h | h) | h
  · rw [toUpper_eq_self (isLower_eq_false_of_isUpper h)]
    exact Or.inl h
  · exact Or.inl (isUpper_toUpper h)
  · rw [toUpper_eq_self (isLower_eq_false_of_isDigit h)]
    exact Or.inr h

theorem toLower_eq_self {c : Char} (h : c.isUpper = false) : c.toLower = c := by
  unfold Char.toLower
  rw [dif_neg]
  rwa [← isUpper_iff, Bool.not_eq_true]

theorem isLower_toLower {c : Char} (h : c.isUpper = true) : c.toLower.isLower = true := by
  have h' := isUpper_iff.mp h
  have hlow := UInt32.le_iff_toNat_le.mp h'.1
  have hhigh := UInt32.le_iff_toNat_le.mp h'.2
  have ha : 'a'.val.toNat = 97 := rfl
  have hz : 'z'.val.toNat = 122 := rfl
  have hA : 'A'.val.toNat = 65 := rfl
  have hZ : 'Z'.val.toNat = 90 := rfl
  have hshift : ('a'.val - 'A'.val).toNat = 32 := rfl
  unfold Char.toLower
  rw [dif_pos h', isLower_iff]
  simp only [UInt32.le_iff_toNat_le, UInt32.toNat_add]
  omega

/-- A letter or a digit stays one. -/
theorem alphanum_toLower {c : Char} (h : c.isAlphanum = true) : c.toLower.isAlphanum = true := by
  cases hupper : c.isUpper with
  | true =>
      show (c.toLower.isUpper || c.toLower.isLower || c.toLower.isDigit) = true
      rw [isLower_toLower hupper, Bool.or_true, Bool.true_or]
  | false => rwa [toLower_eq_self hupper]

theorem isDigit_toUpper (c : Char) : c.toUpper.isDigit = c.isDigit := by
  cases hlower : c.isLower with
  | true =>
      rw [isDigit_eq_false_of_isLower hlower, isDigit_eq_false_of_isUpper (isUpper_toUpper hlower)]
  | false => rw [toUpper_eq_self hlower]

theorem isDigit_toLower (c : Char) : c.toLower.isDigit = c.isDigit := by
  cases hupper : c.isUpper with
  | true =>
      rw [isDigit_eq_false_of_isUpper hupper, isDigit_eq_false_of_isLower (isLower_toLower hupper)]
  | false => rw [toLower_eq_self hupper]

theorem toLower_inj {c d : Char} (hc : c.isUpper = true) (hd : d.isUpper = true)
    (h : c.toLower = d.toLower) : c = d := by
  unfold Char.toLower at h
  rw [dif_pos (isUpper_iff.mp hc), dif_pos (isUpper_iff.mp hd)] at h
  exact Char.ext ((UInt32.add_left_inj _).mp (congrArg Char.val h))

theorem toLower_ne_underscore {c : Char} (hc : c.isUpper = true) : c.toLower ≠ '_' := by
  have h' := isUpper_iff.mp hc
  have hlow := UInt32.le_iff_toNat_le.mp h'.1
  have hhigh := UInt32.le_iff_toNat_le.mp h'.2
  have hA : 'A'.val.toNat = 65 := rfl
  have hZ : 'Z'.val.toNat = 90 := rfl
  have hshift : ('a'.val - 'A'.val).toNat = 32 := rfl
  have hunderscore : '_'.val.toNat = 95 := rfl
  unfold Char.toLower
  rw [dif_pos h']
  intro h
  have hval := congrArg (fun x : Char => x.val.toNat) h
  simp only [UInt32.toNat_add] at hval
  omega

end SpecForge.Lib.Ascii
