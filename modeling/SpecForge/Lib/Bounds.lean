import Mathlib.Order.UpperLower.Basic

/-!
# Ranges by their bounds

A range of numbers is what an upper set and a lower set have in common, and says which, if
it is not empty (§1). A bound may be given with an exclusive bound next to it, or with a
flag that makes it strict; §2 compares the two as sets, §3 the ranges they make.
-/

namespace SpecForge.Lib.Bounds

universe u

variable {α : Type u} [LinearOrder α]

/-! ## §1  Upper and lower sets -/

section Inter

variable {L L' U U' : Set α}

theorem subset_of_inter_eq {p : α} (hU : IsLowerSet U) (hL' : IsUpperSet L')
    (h : L ∩ U = L' ∩ U') (hpU : p ∈ U) (hpL' : p ∈ L') : L ⊆ L' := by
  intro x hx
  rcases le_total x p with hle | hge
  · have hboth : x ∈ L' ∩ U' := h ▸ ⟨hx, hU hle hpU⟩
    exact hboth.1
  · exact hL' hge hpL'

/-- A range that is not empty determines its upper and its lower set. -/
theorem inter_eq_inter_iff (hL : IsUpperSet L) (hL' : IsUpperSet L') (hU : IsLowerSet U)
    (hU' : IsLowerSet U') :
    L ∩ U = L' ∩ U' ↔ (L = L' ∧ U = U') ∨ (L ∩ U = ∅ ∧ L' ∩ U' = ∅) := by
  constructor
  · intro h
    rcases Set.eq_empty_or_nonempty (L ∩ U) with hempty | ⟨p, hp⟩
    · exact Or.inr ⟨hempty, h ▸ hempty⟩
    · have hp' : p ∈ L' ∩ U' := h ▸ hp
      have hswap : U ∩ L = U' ∩ L' := by rw [Set.inter_comm, h, Set.inter_comm]
      left
      constructor
      · apply Set.Subset.antisymm
        · exact subset_of_inter_eq hU hL' h hp.2 hp'.1
        · exact subset_of_inter_eq hU' hL h.symm hp'.2 hp.1
      · apply Set.Subset.antisymm
        · exact @subset_of_inter_eq αᵒᵈ _ _ _ _ _ _ hL.toDual hU'.toDual hswap hp.1 hp'.2
        · exact @subset_of_inter_eq αᵒᵈ _ _ _ _ _ _ hL'.toDual hU.toDual hswap.symm hp'.1 hp.2
  · rintro (⟨rfl, rfl⟩ | ⟨hempty, hempty'⟩)
    · rfl
    · rw [hempty, hempty']

end Inter

/-! ## §2  Bounds from below and from above -/

/-- Above a bound and strictly above an exclusive one. -/
def above (bound exclusive : Option α) : Set α :=
  {x | (∀ m ∈ bound, m ≤ x) ∧ ∀ e ∈ exclusive, e < x}

/-- Above a bound, strictly if it is exclusive. -/
def aboveFlagged (bound : Option α) (exclusive : Bool) : Set α :=
  {x | ∀ m ∈ bound, if exclusive then m < x else m ≤ x}

def below (bound exclusive : Option α) : Set α :=
  {x | (∀ m ∈ bound, x ≤ m) ∧ ∀ e ∈ exclusive, x < e}

def belowFlagged (bound : Option α) (exclusive : Bool) : Set α :=
  {x | ∀ m ∈ bound, if exclusive then x < m else x ≤ m}

/-- The bound with its flag says what the bound says with the exclusive one next to it. -/
def Agree (bound exclusive : Option α) (flag : Bool) : Prop :=
  match exclusive with
  | some e => bound = some e
  | none => bound = none ∨ flag = false

section Bounds

variable {bound exclusive upper upperExclusive : Option α} {flag upperFlag : Bool}

theorem isUpperSet_above : IsUpperSet (above bound exclusive) := by
  intro x y hxy hx
  exact ⟨fun m hm => (hx.1 m hm).trans hxy, fun e he => (hx.2 e he).trans_le hxy⟩

theorem isUpperSet_aboveFlagged : IsUpperSet (aboveFlagged bound flag) := by
  intro x y hxy hx m hm
  have hxm := hx m hm
  rcases flag with _ | _
  · exact le_trans hxm hxy
  · exact lt_of_lt_of_le hxm hxy

theorem isLowerSet_below : IsLowerSet (below bound exclusive) := by
  intro x y hyx hx
  exact ⟨fun m hm => hyx.trans (hx.1 m hm), fun e he => hyx.trans_lt (hx.2 e he)⟩

theorem isLowerSet_belowFlagged : IsLowerSet (belowFlagged bound flag) := by
  intro x y hyx hx m hm
  have hxm := hx m hm
  rcases flag with _ | _
  · exact le_trans hyx hxm
  · exact lt_of_le_of_lt hyx hxm

/-- The two agree exactly if an exclusive bound is the bound itself, and the flag is not set
without one. -/
theorem above_eq_aboveFlagged_iff (hflag : exclusive.isSome = true → flag = true) :
    above bound exclusive = aboveFlagged bound flag ↔ Agree bound exclusive flag := by
  rw [Set.ext_iff]
  rcases exclusive with _ | e
  · rcases bound with _ | m
    · refine iff_of_true (fun x => ?_) (Or.inl rfl)
      simp [above, aboveFlagged]
    · rcases flag with _ | _
      · refine iff_of_true (fun x => ?_) (Or.inr rfl)
        simp [above, aboveFlagged]
      · refine iff_of_false (fun h => ?_) (by simp [Agree])
        have hm := (h m).mp ⟨by simp, by simp⟩ m rfl
        exact lt_irrefl m hm
  · rw [hflag rfl]
    rcases bound with _ | m
    · refine iff_of_false (fun h => ?_) (by simp [Agree])
      have he := ((h e).mpr (by simp [aboveFlagged])).2 e rfl
      exact lt_irrefl e he
    · constructor
      · intro h
        rcases lt_trichotomy m e with hlt | rfl | hgt
        · have he := ((h e).mpr (by simpa [aboveFlagged] using hlt)).2 e rfl
          exact absurd he (lt_irrefl e)
        · rfl
        · have hm := (h m).mp ⟨by simp, by simpa using hgt⟩ m rfl
          exact absurd hm (lt_irrefl m)
      · intro h x
        obtain rfl : m = e := Option.some.inj h
        constructor
        · rintro ⟨-, hx⟩ m' hm'
          exact hx m' hm'
        · intro hx
          exact ⟨fun m' hm' => le_of_lt (hx m' hm'), hx⟩

theorem below_eq_belowFlagged_iff (hflag : exclusive.isSome = true → flag = true) :
    below bound exclusive = belowFlagged bound flag ↔ Agree bound exclusive flag :=
  @above_eq_aboveFlagged_iff αᵒᵈ _ _ _ _ hflag

/-! ## §3  Ranges -/

/-- No number is between the bounds, whether the exclusive ones are read as bounds or as
flags: the bounds cross, or meet where an exclusive one forbids it. -/
def Crossed (bound exclusive upper upperExclusive : Option α) : Prop :=
  ∃ m M, bound = some m ∧ upper = some M ∧
    (M < m ∨ M = m ∧ ((∃ e, exclusive = some e ∧ m ≤ e) ∨
      ∃ e, upperExclusive = some e ∧ e ≤ M))

theorem empty_iff_crossed [DenselyOrdered α] [NoMinOrder α] [NoMaxOrder α] [Nonempty α]
    (hflag : exclusive.isSome = true → flag = true)
    (hupper : upperExclusive.isSome = true → upperFlag = true) :
    (above bound exclusive ∩ below upper upperExclusive = ∅ ∧
      aboveFlagged bound flag ∩ belowFlagged upper upperFlag = ∅) ↔
    Crossed bound exclusive upper upperExclusive := by
  rw [Set.eq_empty_iff_forall_notMem, Set.eq_empty_iff_forall_notMem]
  constructor
  · rintro ⟨hempty, hflagged⟩
    rcases bound with _ | m
    · obtain ⟨x, hx⟩ : ∃ x, x ∈ belowFlagged upper upperFlag := by
        rcases upper with _ | M
        · exact ⟨Classical.arbitrary α, by simp [belowFlagged]⟩
        · obtain ⟨x, hx⟩ := exists_lt M
          refine ⟨x, ?_⟩
          rintro _ ⟨⟩
          split
          · exact hx
          · exact hx.le
      exact absurd ⟨by simp [aboveFlagged], hx⟩ (hflagged x)
    · rcases upper with _ | M
      · obtain ⟨x, hx⟩ := exists_gt m
        refine absurd ⟨?_, by simp [belowFlagged]⟩ (hflagged x)
        rintro _ ⟨⟩
        split
        · exact hx
        · exact hx.le
      · refine ⟨m, M, rfl, rfl, ?_⟩
        rcases lt_trichotomy M m with hlt | rfl | hgt
        · exact Or.inl hlt
        · right
          refine ⟨rfl, ?_⟩
          by_contra hnone
          rw [not_or] at hnone
          refine hempty M ⟨⟨?_, ?_⟩, ?_, ?_⟩
          · rintro _ ⟨⟩
            exact le_rfl
          · intro e he
            by_contra hle
            exact hnone.1 ⟨e, he, not_lt.mp hle⟩
          · rintro _ ⟨⟩
            exact le_rfl
          · intro e he
            by_contra hle
            exact hnone.2 ⟨e, he, not_lt.mp hle⟩
        · obtain ⟨x, hmx, hxM⟩ := exists_between hgt
          refine absurd ⟨?_, ?_⟩ (hflagged x)
          · rintro _ ⟨⟩
            split
            · exact hmx
            · exact hmx.le
          · rintro _ ⟨⟩
            split
            · exact hxM
            · exact hxM.le
  · rintro ⟨m, M, rfl, rfl, hcross⟩
    have hweak : ∀ x, x ∈ aboveFlagged (some m) flag → x ∈ belowFlagged (some M) upperFlag →
        m ≤ x ∧ x ≤ M := by
      intro x hx hx'
      have hm := hx m rfl
      have hM := hx' M rfl
      constructor
      · split at hm
        · exact hm.le
        · exact hm
      · split at hM
        · exact hM.le
        · exact hM
    constructor
    · rintro x ⟨⟨hm, he⟩, hM, hE⟩
      have hle := (hm m rfl).trans (hM M rfl)
      rcases hcross with hlt | ⟨rfl, ⟨e, rfl, hge⟩ | ⟨e, rfl, hle'⟩⟩
      · exact absurd hlt (not_lt.mpr hle)
      · exact absurd ((he e rfl).trans_le (hM M rfl)) (not_lt.mpr hge)
      · exact absurd ((hm M rfl).trans_lt (hE e rfl)) (not_lt.mpr hle')
    · rintro x ⟨hx, hx'⟩
      obtain ⟨hm, hM⟩ := hweak x hx hx'
      rcases hcross with hlt | ⟨rfl, ⟨e, rfl, -⟩ | ⟨e, rfl, -⟩⟩
      · exact absurd hlt (not_lt.mpr (hm.trans hM))
      · have hstrict := hx M rfl
        rw [hflag rfl, if_pos rfl] at hstrict
        exact absurd hstrict (not_lt.mpr hM)
      · have hstrict := hx' M rfl
        rw [hupper rfl, if_pos rfl] at hstrict
        exact absurd hstrict (not_lt.mpr hm)

/-- The ranges are the same exactly if the bounds agree on both sides, or there is no number
in either. -/
theorem range_eq_iff [DenselyOrdered α] [NoMinOrder α] [NoMaxOrder α] [Nonempty α]
    (hflag : exclusive.isSome = true → flag = true)
    (hupper : upperExclusive.isSome = true → upperFlag = true) :
    above bound exclusive ∩ below upper upperExclusive =
        aboveFlagged bound flag ∩ belowFlagged upper upperFlag ↔
      (Agree bound exclusive flag ∧ Agree upper upperExclusive upperFlag) ∨
        Crossed bound exclusive upper upperExclusive := by
  rw [inter_eq_inter_iff isUpperSet_above isUpperSet_aboveFlagged isLowerSet_below
    isLowerSet_belowFlagged, above_eq_aboveFlagged_iff hflag, below_eq_belowFlagged_iff hupper,
    empty_iff_crossed hflag hupper]

end Bounds

end SpecForge.Lib.Bounds
