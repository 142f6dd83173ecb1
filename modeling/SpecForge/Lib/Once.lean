import Mathlib.Data.List.Basic
import Mathlib.Data.List.Count
import Mathlib.Data.List.Pairwise

/-!
# Lists that keep each thing once

Lists of things that may be the same without being equal. Lists are brought together into one that
has each thing once, as the first of them has it.

- §1 what it means; §2 adding the entries of one list; §3 adding those of many.
-/

namespace SpecForge.Lib.Once

universe u

variable {α : Type u} {same : α → α → Bool}

/-! ## §1  Once -/

structure IsSame (same : α → α → Bool) : Prop where
  refl : ∀ a, same a a = true
  symm : ∀ a b, same a b = same b a
  trans : ∀ {a b c}, same a b = true → same b c = true → same a c = true

def Distinct (same : α → α → Bool) (xs : List α) : Prop := xs.Pairwise fun a b => same a b = false

/-- Every entry of the inputs is in the merged list exactly once, as the first of the inputs has
it, and nothing else is there. -/
structure KeptOnce (same : α → α → Bool) (merged inputs : List α) : Prop where
  once : ∀ e ∈ inputs, merged.countP (same e) = 1
  first : ∀ e ∈ inputs, merged.find? (same e) = inputs.find? (same e)
  only : ∀ e ∈ merged, e ∈ inputs

section Basics

variable {merged inputs xs : List α} {e : α}

theorem countP_eq_one (hsame : IsSame same) (hd : Distinct same xs)
    (he : ∃ x ∈ xs, same e x = true) : xs.countP (same e) = 1 := by
  induction xs with
  | nil =>
      obtain ⟨x, hx, -⟩ := he
      cases hx
  | cons a xs ih =>
      obtain ⟨ha, hxs⟩ := List.pairwise_cons.mp hd
      by_cases hea : same e a = true
      · have hnone : xs.countP (same e) = 0 := by
          apply List.countP_eq_zero.mpr
          intro b hb heb
          have hab : same a b = true := hsame.trans (hsame.symm e a ▸ hea) heb
          rw [ha b hb] at hab
          cases hab
        rw [List.countP_cons_of_pos hea, hnone]
      · obtain ⟨x, hx, hex⟩ := he
        rw [List.countP_cons_of_neg hea]
        apply ih hxs
        rcases List.mem_cons.mp hx with rfl | hx
        · exact absurd hex hea
        · exact ⟨x, hx, hex⟩

/-- **What is kept once is told apart, comes from the inputs, and looks the same in both.** -/
theorem keptOnce_iff (hsame : IsSame same) : KeptOnce same merged inputs ↔
    Distinct same merged ∧ (∀ e ∈ inputs, merged.find? (same e) = inputs.find? (same e)) ∧
      ∀ e ∈ merged, e ∈ inputs := by
  constructor
  · intro h
    refine ⟨?_, h.first, h.only⟩
    apply List.pairwise_iff_forall_sublist.mpr
    intro a b hab
    by_contra hne
    have htwo : [a, b].countP (same a) = 2 := by
      rw [List.countP_cons_of_pos (hsame.refl a), List.countP_singleton]
      simp [Bool.not_eq_false _ ▸ hne]
    have hle : [a, b].countP (same a) ≤ merged.countP (same a) := hab.countP_le
    rw [htwo, h.once a (h.only a (hab.subset List.mem_cons_self))] at hle
    exact absurd hle (by decide)
  · rintro ⟨hd, hfirst, honly⟩
    refine ⟨fun e he => ?_, hfirst, honly⟩
    apply countP_eq_one hsame hd
    cases hfind : inputs.find? (same e) with
    | none => exact absurd (hsame.refl e) (List.find?_eq_none.mp hfind e he)
    | some x =>
        rw [← hfirst e he] at hfind
        exact ⟨x, List.mem_of_find?_eq_some hfind, List.find?_some hfind⟩

theorem keptOnce_nil : KeptOnce same [] inputs ↔ inputs = [] := by
  constructor
  · intro h
    apply List.eq_nil_iff_forall_not_mem.mpr
    intro e he
    have honce := h.once e he
    cases honce
  · rintro rfl
    exact ⟨fun e he => (by cases he), fun e he => (by cases he), fun e he => (by cases he)⟩

end Basics

/-! ## §2  One list -/

/-- The entries that are not there yet, one after the other. -/
def addUnique (same : α → α → Bool) (arr news : List α) : List α :=
  news.foldl (fun arr e => if arr.any (same · e) then arr else arr ++ [e]) arr

section Add

variable {arr news : List α} {e x : α}

theorem addUnique_cons : addUnique same arr (x :: news) =
    addUnique same (if arr.any (same · x) then arr else arr ++ [x]) news :=
  rfl

theorem distinct_addUnique (h : Distinct same arr) : Distinct same (addUnique same arr news) := by
  induction news generalizing arr with
  | nil => exact h
  | cons x news ih =>
      rw [addUnique_cons]
      apply ih
      split
      · exact h
      · next hnew =>
          apply List.pairwise_append.mpr
          refine ⟨h, List.pairwise_singleton _ _, fun a ha b hb => ?_⟩
          rw [List.mem_singleton.mp hb]
          by_contra hax
          exact hnew (List.any_eq_true.mpr ⟨a, ha, Bool.not_eq_false _ ▸ hax⟩)

theorem find?_addUnique (hsame : IsSame same) :
    (addUnique same arr news).find? (same e) = (arr ++ news).find? (same e) := by
  induction news generalizing arr with
  | nil => rw [List.append_nil]; rfl
  | cons x news ih =>
      have hstep : (if arr.any (same · x) then arr else arr ++ [x]).find? (same e) =
          (arr ++ [x]).find? (same e) := by
        split
        · next hany =>
            obtain ⟨a, ha, hax⟩ := List.any_eq_true.mp hany
            rw [List.find?_append]
            by_cases hex : same e x = true
            · have hea : same e a = true := hsame.trans hex (hsame.symm a x ▸ hax)
              cases hfind : arr.find? (same e) with
              | none => exact absurd hea (List.find?_eq_none.mp hfind a ha)
              | some b => rfl
            · rw [List.find?_singleton, if_neg hex, Option.or_none]
        · rfl
      have hsplit : arr ++ x :: news = (arr ++ [x]) ++ news := by simp
      rw [addUnique_cons, ih, hsplit, List.find?_append, hstep, ← List.find?_append]

theorem mem_of_mem_addUnique (h : x ∈ addUnique same arr news) : x ∈ arr ++ news := by
  induction news generalizing arr with
  | nil => exact List.mem_append_left _ h
  | cons y news ih =>
      rw [addUnique_cons] at h
      have hmem := ih h
      split at hmem
      · rcases List.mem_append.mp hmem with hmem | hmem
        · exact List.mem_append_left _ hmem
        · exact List.mem_append_right _ (List.mem_cons_of_mem _ hmem)
      · simpa using hmem

end Add

/-! ## §3  Many lists -/

section Many

variable {add : List α → List α → List α} {lists : List (List α)} {arr : List α} {e x : α}

theorem find?_foldl_add
    (hadd : ∀ arr news, (add arr news).find? (same e) = (arr ++ news).find? (same e)) :
    (lists.foldl add arr).find? (same e) = (arr ++ lists.flatten).find? (same e) := by
  induction lists generalizing arr with
  | nil => rw [List.flatten_nil, List.append_nil]; rfl
  | cons news lists ih =>
      rw [List.foldl_cons, ih, List.find?_append, hadd, ← List.find?_append, List.append_assoc]
      rfl

theorem mem_of_mem_foldl_add (hadd : ∀ {arr news x}, x ∈ add arr news → x ∈ arr ++ news)
    (h : x ∈ lists.foldl add arr) : x ∈ arr ++ lists.flatten := by
  induction lists generalizing arr with
  | nil => exact List.mem_append_left _ h
  | cons news lists ih =>
      rcases List.mem_append.mp (ih h) with hmem | hmem
      · rcases List.mem_append.mp (hadd hmem) with hmem | hmem
        · exact List.mem_append_left _ hmem
        · exact List.mem_append_right _ (List.mem_append_left _ hmem)
      · exact List.mem_append_right _ (List.mem_append_right _ hmem)

/-- **Lists brought together have each thing once if the result is told apart.** -/
theorem keptOnce_foldl_iff (hsame : IsSame same)
    (hfind : ∀ e arr news, (add arr news).find? (same e) = (arr ++ news).find? (same e))
    (hmem : ∀ {arr news x}, x ∈ add arr news → x ∈ arr ++ news) :
    KeptOnce same (lists.foldl add arr) (arr ++ lists.flatten) ↔
      Distinct same (lists.foldl add arr) := by
  rw [keptOnce_iff hsame]
  refine ⟨fun h => h.1, fun h => ⟨h, fun e _ => find?_foldl_add (hfind e), fun e he => ?_⟩⟩
  exact mem_of_mem_foldl_add hmem he

end Many

end SpecForge.Lib.Once
