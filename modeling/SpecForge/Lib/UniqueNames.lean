import Mathlib.Data.List.Nodup
import Mathlib.Data.List.Perm.Subperm

/-!
# Unique names

A name that is taken gets a number, the first one that makes it free. Where names are handed out
one after the other in this way, no two are the same.

- §1 numbers in decimal; §2 one name; §3 a list of names.
-/

namespace SpecForge.Lib.UniqueNames

/-! ## §1  Numbers -/

theorem toString_injective : Function.Injective (toString : ℕ → String) := by
  intro m n h
  have hdigits : Nat.toDigits 10 m = Nat.toDigits 10 n := by
    simpa using congrArg String.toList h
  have hvalue := congrArg (fun digits => Nat.ofDigitChars 10 digits 0) hdigits
  simpa using hvalue

theorem append_toString_injective (front : String) :
    Function.Injective fun n : ℕ => front ++ toString n := by
  intro m n h
  apply toString_injective
  have hlists := congrArg String.toList h
  rw [String.toList_append, String.toList_append] at hlists
  exact String.toList_inj.mp (List.append_cancel_left hlists)

theorem isDigit_of_mem_toString {n : ℕ} {c : Char} (h : c ∈ (toString n).toList) :
    c.isDigit = true := by
  have hmem : c ∈ Nat.toDigits 10 n := by simpa using h
  exact Nat.isDigit_of_mem_toDigits (by decide) (by decide) hmem

/-- A number ends in a digit. -/
theorem exists_getLast?_append_toString (front : String) (n : ℕ) :
    ∃ c, (front ++ toString n).toList.getLast? = some c ∧ c.isDigit = true := by
  have hne : (toString n).toList ≠ [] := by simp
  refine ⟨(toString n).toList.getLast hne, ?_, isDigit_of_mem_toString (List.getLast_mem hne)⟩
  rw [String.toList_append, List.getLast?_append_of_ne_nil _ hne,
    List.getLast?_eq_some_getLast hne]

/-! ## §2  One name -/

/-- The first free one of the numbered names; of so many, one is. -/
def firstFree (name : ℕ → String) (used : List String) : ℕ → ℕ → String
  | 0, n => name n
  | attempts + 1, n =>
      if name n ∈ used then firstFree name used attempts (n + 1) else name n

/-- `while !used.insert(candidate)`, from 2 on. -/
def unique (numbered : String → ℕ → String) (base : String) (used : List String) : String :=
  if base ∈ used then firstFree (numbered base) used used.length 2 else base

section Unique

variable {name : ℕ → String} {numbered : String → ℕ → String} {base : String} {used : List String}

theorem exists_firstFree (name : ℕ → String) (used : List String) : ∀ attempts n : ℕ,
    ∃ m, n ≤ m ∧ firstFree name used attempts n = name m
  | 0, n => ⟨n, Nat.le_refl n, rfl⟩
  | attempts + 1, n => by
      rw [firstFree]
      split
      · obtain ⟨m, hm, heq⟩ := exists_firstFree name used attempts (n + 1)
        exact ⟨m, Nat.le_of_succ_le hm, heq⟩
      · exact ⟨n, Nat.le_refl n, rfl⟩

/-- Where no attempt finds a free name, all names that are tried are taken. -/
theorem mem_of_firstFree_mem : ∀ {attempts n : ℕ}, firstFree name used attempts n ∈ used →
    ∀ k ≤ attempts, name (n + k) ∈ used
  | 0, n, h, k, hk => by
      obtain rfl := Nat.le_zero.mp hk
      exact h
  | attempts + 1, n, h, k, hk => by
      rw [firstFree] at h
      split at h
      · next hn =>
          cases k with
          | zero => exact hn
          | succ k =>
              have hrest := mem_of_firstFree_mem h k (Nat.le_of_succ_le_succ hk)
              rw [Nat.add_assoc, Nat.add_comm 1 k] at hrest
              exact hrest
      · next hn => exact absurd h hn

/-- There are more names than are taken. -/
theorem firstFree_notMem (hname : Function.Injective name) (n : ℕ) :
    firstFree name used used.length n ∉ used := by
  intro h
  have htaken := mem_of_firstFree_mem h
  have hnodup : ((List.range (used.length + 1)).map fun k => name (n + k)).Nodup := by
    refine List.nodup_range.map fun i j hij => ?_
    exact Nat.add_left_cancel (hname hij)
  have hsubset : ((List.range (used.length + 1)).map fun k => name (n + k)) ⊆ used := by
    intro x hx
    obtain ⟨k, hk, rfl⟩ := List.mem_map.mp hx
    exact htaken k (Nat.le_of_lt_succ (List.mem_range.mp hk))
  have hle := (hnodup.subperm hsubset).length_le
  rw [List.length_map, List.length_range] at hle
  omega

theorem unique_notMem (hnumbered : ∀ base, Function.Injective (numbered base)) (base : String)
    (used : List String) : unique numbered base used ∉ used := by
  rw [unique]
  split
  · exact firstFree_notMem (hnumbered base) 2
  · next h => exact h

/-- The name itself, or the name with a number. -/
theorem unique_cases (numbered : String → ℕ → String) (base : String) (used : List String) :
    unique numbered base used = base ∨ ∃ n, 2 ≤ n ∧ unique numbered base used = numbered base n := by
  rw [unique]
  split
  · obtain ⟨m, hm, heq⟩ := exists_firstFree (numbered base) used used.length 2
    exact Or.inr ⟨m, hm, heq⟩
  · exact Or.inl rfl

end Unique

/-! ## §3  A list of names -/

/-- The names that a list gets, one after the other. -/
def uniques (numbered : String → ℕ → String) (used : List String) : List String → List String
  | [] => []
  | base :: bases =>
      unique numbered base used ::
        uniques numbered (used ++ [unique numbered base used]) bases

section Uniques

variable {numbered : String → ℕ → String}

theorem length_uniques (used bases : List String) :
    (uniques numbered used bases).length = bases.length := by
  induction bases generalizing used with
  | nil => rfl
  | cons base bases ih => rw [uniques, List.length_cons, List.length_cons, ih]

/-- A name comes from one of the list. -/
theorem exists_of_mem_uniques {ident : String} {used bases : List String}
    (h : ident ∈ uniques numbered used bases) :
    ∃ base ∈ bases, ident = base ∨ ∃ n, 2 ≤ n ∧ ident = numbered base n := by
  induction bases generalizing used with
  | nil => cases h
  | cons base bases ih =>
      rcases List.mem_cons.mp h with rfl | h
      · exact ⟨base, List.mem_cons_self, unique_cases numbered base used⟩
      · obtain ⟨base', hmem, hcases⟩ := ih h
        exact ⟨base', List.mem_cons_of_mem _ hmem, hcases⟩

/-- Every name is handed out as it is, unless it was taken. -/
theorem mem_uniques {base : String} {used bases : List String} (h : base ∈ bases)
    (hused : base ∉ used) : base ∈ uniques numbered used bases := by
  induction bases generalizing used with
  | nil => cases h
  | cons base' bases ih =>
      rw [uniques, List.mem_cons]
      by_cases hsame : base = unique numbered base' used
      · exact Or.inl hsame
      · refine Or.inr (ih ?_ ?_)
        · refine (List.mem_cons.mp h).resolve_left ?_
          rintro rfl
          rw [unique, if_neg hused] at hsame
          exact hsame rfl
        · rw [List.mem_append, List.mem_singleton, not_or]
          exact ⟨hused, hsame⟩

variable (hnumbered : ∀ base, Function.Injective (numbered base))
include hnumbered

theorem notMem_uniques {ident : String} {used bases : List String}
    (h : ident ∈ uniques numbered used bases) : ident ∉ used := by
  induction bases generalizing used with
  | nil => cases h
  | cons base bases ih =>
      rcases List.mem_cons.mp h with rfl | h
      · exact unique_notMem hnumbered base used
      · exact fun hused => ih h (List.mem_append_left _ hused)

/-- **No name is handed out twice.** -/
theorem nodup_uniques (used bases : List String) : (uniques numbered used bases).Nodup := by
  induction bases generalizing used with
  | nil => exact List.nodup_nil
  | cons base bases ih =>
      rw [uniques, List.nodup_cons]
      refine ⟨fun h => ?_, ih _⟩
      exact notMem_uniques hnumbered h (List.mem_append_right _ (List.mem_singleton.mpr rfl))

end Uniques

end SpecForge.Lib.UniqueNames
