import Mathlib.Data.Nat.Bitwise

/-!
# Maps that keep exclusive or

A map that is made of shifts, masks and exclusive ors is linear over the bits of its argument
(§1). Such a map tells the numbers below `2 ^ w` apart exactly if its values at the powers of two
are independent (`injOn_iff_independent`), and that is decided by elimination (§2): every column
takes its highest bit out of the ones that come after it.
-/

namespace SpecForge.Lib

/-! ## §1  Linear maps -/

def XorLinear (f : ℕ → ℕ) : Prop := ∀ x y, f (x ^^^ y) = f x ^^^ f y

namespace XorLinear

variable {f g : ℕ → ℕ}

theorem map_zero (hf : XorLinear f) : f 0 = 0 := by
  have h := hf 0 0
  rwa [Nat.xor_self, Nat.xor_self] at h

theorem id : XorLinear fun x => x := fun _ _ => rfl

theorem comp (hf : XorLinear f) (hg : XorLinear g) : XorLinear fun x => f (g x) := by
  intro x y
  show f (g (x ^^^ y)) = _
  rw [hg, hf]

theorem xor (hf : XorLinear f) (hg : XorLinear g) : XorLinear fun x => f x ^^^ g x := by
  intro x y
  show f (x ^^^ y) ^^^ g (x ^^^ y) = f x ^^^ g x ^^^ (f y ^^^ g y)
  rw [hf, hg]
  ac_rfl

theorem shiftLeft (hf : XorLinear f) (k : ℕ) : XorLinear fun x => f x <<< k := by
  intro x y
  show f (x ^^^ y) <<< k = _
  rw [hf, Nat.shiftLeft_xor_distrib]

theorem shiftRight (hf : XorLinear f) (k : ℕ) : XorLinear fun x => f x >>> k := by
  intro x y
  show f (x ^^^ y) >>> k = _
  rw [hf, Nat.shiftRight_xor_distrib]

theorem mod_two_pow (hf : XorLinear f) (k : ℕ) : XorLinear fun x => f x % 2 ^ k := by
  intro x y
  show f (x ^^^ y) % 2 ^ k = _
  rw [hf, Nat.xor_mod_two_pow]

theorem iterate (hf : XorLinear f) (n : ℕ) : XorLinear f^[n] := by
  induction n with
  | zero => exact id
  | succ n ih => exact ih.comp hf

end XorLinear

/-! ## §2  Elimination -/

/-- `y` without the highest bit of `d`. -/
def eliminate (d y : ℕ) : ℕ := if y.testBit d.log2 then y ^^^ d else y

/-- The values of `f` at the powers of two below `2 ^ w` are independent. -/
def independent : ℕ → (ℕ → ℕ) → Bool
  | 0, _ => true
  | w + 1, f =>
      -- the match evaluates the column before it is used
      match f (2 ^ w) with
      | 0 => false
      | d + 1 => independent w fun x => eliminate (d + 1) (f x)

theorem xorLinear_eliminate (d : ℕ) : XorLinear (eliminate d) := by
  intro x y
  rw [eliminate, eliminate, eliminate, Nat.testBit_xor]
  cases x.testBit d.log2 <;> cases y.testBit d.log2
  · rfl
  · exact Nat.xor_assoc x y d
  · show x ^^^ y ^^^ d = x ^^^ d ^^^ y
    ac_rfl
  · show x ^^^ y = x ^^^ d ^^^ (y ^^^ d)
    rw [Nat.xor_comm y, Nat.xor_assoc, Nat.xor_xor_cancel_left]

theorem eliminate_self {d : ℕ} (hd : d ≠ 0) : eliminate d d = 0 := by
  rw [eliminate, if_pos (Nat.testBit_log2 hd), Nat.xor_self]

theorem eliminate_eq_zero {d y : ℕ} (hd : d ≠ 0) : eliminate d y = 0 ↔ y = 0 ∨ y = d := by
  constructor
  · intro h
    rw [eliminate] at h
    split at h
    · exact .inr (Nat.xor_eq_zero_iff.mp h)
    · exact .inl h
  · rintro (rfl | rfl)
    · exact (xorLinear_eliminate d).map_zero
    · exact eliminate_self hd

/-- A number below `2 ^ (w + 1)` has the bit `w` or not. -/
theorem eq_xor_two_pow {w x : ℕ} (h : x < 2 ^ (w + 1)) (hbit : ¬ x < 2 ^ w) :
    ∃ y < 2 ^ w, x = 2 ^ w ^^^ y := by
  have hset : x.testBit w = true :=
    Nat.testBit_of_two_pow_le_and_two_pow_add_one_gt (not_lt.mp hbit) h
  refine ⟨2 ^ w ^^^ x, ?_, (Nat.xor_xor_cancel_left _ _).symm⟩
  apply Nat.lt_pow_two_of_testBit
  intro i hi
  rw [Nat.testBit_xor]
  rcases Nat.eq_or_lt_of_le hi with rfl | hlt
  · rw [hset, Nat.testBit_two_pow_self, Bool.xor_self]
  · rw [Nat.testBit_lt_two_pow (h.trans_le (Nat.pow_le_pow_right Nat.zero_lt_two hlt)),
      Nat.testBit_two_pow_of_ne hlt.ne, Bool.xor_self]

/-- **The kernel is trivial exactly if the columns are independent.** -/
theorem independent_iff {f : ℕ → ℕ} (hf : XorLinear f) (w : ℕ) :
    independent w f = true ↔ ∀ x < 2 ^ w, f x = 0 → x = 0 := by
  induction w generalizing f with
  | zero =>
      refine iff_of_true rfl fun x hx _ => ?_
      exact Nat.lt_one_iff.mp hx
  | succ w ih =>
      rw [independent]
      have hle : 2 ^ w < 2 ^ (w + 1) := Nat.pow_lt_pow_right Nat.one_lt_two (Nat.lt_succ_self w)
      split
      · next hzero =>
        -- the column is zero, and so is the value at a number that is not
        refine iff_of_false nofun fun h => ?_
        exact absurd (h _ hle hzero) (Nat.two_pow_pos w).ne'
      · next d hd =>
        have hne : d + 1 ≠ 0 := nofun
        rw [ih ((xorLinear_eliminate _).comp hf)]
        constructor
        · intro h x hx hfx
          by_cases hbit : x < 2 ^ w
          · refine h x hbit ?_
            show eliminate (d + 1) (f x) = 0
            rw [hfx, (xorLinear_eliminate _).map_zero]
          · obtain ⟨y, hy, rfl⟩ := eq_xor_two_pow hx hbit
            rw [hf, hd, Nat.xor_eq_zero_iff] at hfx
            have hyzero : y = 0 := h y hy ((eliminate_eq_zero hne).mpr (.inr hfx.symm))
            rw [hyzero, hf.map_zero] at hfx
            cases hfx
        · intro h x hx helim
          rcases (eliminate_eq_zero hne).mp helim with hfx | hfx
          · exact h x (hx.trans hle) hfx
          · have hsum : f (2 ^ w ^^^ x) = 0 := by rw [hf, hd, hfx, Nat.xor_self]
            have hbelow : 2 ^ w ^^^ x < 2 ^ (w + 1) :=
              Nat.xor_lt_two_pow hle (hx.trans hle)
            have hsame := Nat.xor_eq_zero_iff.mp (h _ hbelow hsum)
            exact absurd hx (by rw [← hsame]; exact lt_irrefl _)

theorem injOn_iff_independent {f : ℕ → ℕ} (hf : XorLinear f) (w : ℕ) :
    Set.InjOn f {x | x < 2 ^ w} ↔ independent w f = true := by
  rw [independent_iff hf]
  constructor
  · intro h x hx hfx
    exact h hx (Nat.two_pow_pos w) (hfx.trans hf.map_zero.symm)
  · intro h x hx y hy hxy
    apply Nat.xor_eq_zero_iff.mp
    exact h _ (Nat.xor_lt_two_pow hx hy) (by rw [hf, hxy, Nat.xor_self])

end SpecForge.Lib
