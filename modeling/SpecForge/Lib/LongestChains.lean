import Mathlib.Order.Bounds.Basic
import SpecForge.Lib.Acyclic
import SpecForge.Lib.Depth

/-!
# Longest chains

Where no chain comes back to its start, a memoized depth-first walk finds the length of the
longest chain from each node it visits, whatever it has found out before.

- §1 chains and their lengths; §2 the depths that go by levels; §3 the walk finds them.
-/

namespace SpecForge.Lib.Depth

universe u

variable {α : Type u}

/-! ## §1  Chains -/

/-- The numbers of steps of the chains that start at `a`. -/
def chainLengths (R : α → α → Prop) (a : α) : Set ℕ :=
  {n | ∃ p : List α, (a :: p).IsChain R ∧ p.length = n}

section Chains

variable {R : α → α → Prop} {a b : α} {n : ℕ}

theorem zero_mem_chainLengths : 0 ∈ chainLengths R a := ⟨[], .singleton a, rfl⟩

theorem succ_mem_chainLengths : n + 1 ∈ chainLengths R a ↔ ∃ b, R a b ∧ n ∈ chainLengths R b := by
  constructor
  · rintro ⟨p, hp, hlen⟩
    cases p with
    | nil => cases hlen
    | cons b p =>
        obtain ⟨hab, hchain⟩ := List.isChain_cons_cons.mp hp
        exact ⟨b, hab, p, hchain, Nat.succ.inj hlen⟩
  · rintro ⟨b, hab, p, hp, rfl⟩
    exact ⟨b :: p, List.isChain_cons_cons.mpr ⟨hab, hp⟩, rfl⟩

end Chains

/-! ## §2  Levels -/

/-- Each node stands one above the highest of its targets. -/
def Levelled (targets : α → List α) (f : α → ℕ) : Prop :=
  ∀ a, f a = level (targets a) (peak f (targets a))

section Levels

variable {targets : α → List α} {f : α → ℕ} {a t : α} {n : ℕ}

theorem exists_peak_eq {l : List α} (hne : l ≠ []) : ∃ a ∈ l, f a = peak f l := by
  induction l with
  | nil => exact absurd rfl hne
  | cons a l ih =>
      have hpeak : peak f (a :: l) = max (f a) (peak f l) := rfl
      rw [hpeak]
      rcases Nat.le_total (peak f l) (f a) with hle | hle
      · exact ⟨a, List.mem_cons_self, (Nat.max_eq_left hle).symm⟩
      · by_cases hl : l = []
        · subst hl
          exact ⟨a, List.mem_cons_self, (Nat.max_eq_left (Nat.zero_le _)).symm⟩
        · obtain ⟨b, hb, hpeak⟩ := ih hl
          exact ⟨b, List.mem_cons_of_mem a hb, hpeak.trans (Nat.max_eq_right hle).symm⟩

theorem Levelled.lt (hf : Levelled targets f) (ht : t ∈ targets a) : f t < f a := by
  have hle : f t ≤ peak f (targets a) := le_peak ht
  rw [hf a, level, if_neg]
  · exact Nat.lt_succ_of_le hle
  · rw [List.isEmpty_iff]
    exact List.ne_nil_of_mem ht

theorem Levelled.exists_target (hf : Levelled targets f) (h : f a = n + 1) :
    ∃ t ∈ targets a, f t = n := by
  rw [hf a, level] at h
  split at h
  · cases h
  · next hne =>
      obtain ⟨t, ht, hpeak⟩ := exists_peak_eq (f := f) (mt List.isEmpty_iff.mpr hne)
      exact ⟨t, ht, hpeak.trans (Nat.succ.inj h)⟩

/-- **The level of a node is the length of the longest chain from it.** -/
theorem Levelled.isGreatest (hf : Levelled targets f) (a : α) :
    IsGreatest (chainLengths (Edge targets) a) (f a) := by
  constructor
  · generalize hn : f a = n
    induction n generalizing a with
    | zero => exact zero_mem_chainLengths
    | succ n ih =>
        obtain ⟨t, ht, hlevel⟩ := hf.exists_target hn
        exact succ_mem_chainLengths.mpr ⟨t, ht, ih t hlevel⟩
  · intro n hn
    induction n generalizing a with
    | zero => exact Nat.zero_le _
    | succ n ih =>
        obtain ⟨t, ht, hrest⟩ := succ_mem_chainLengths.mp hn
        exact Nat.lt_of_le_of_lt (ih t hrest) (hf.lt ht)

/-- Without cycles there are levels. -/
theorem exists_levelled (hac : Acyclic (Edge targets)) (sources : List α)
    (hsources : ∀ a t, t ∈ targets a → a ∈ sources) : ∃ f, Levelled targets f := by
  have hwf : WellFounded fun b a => Edge targets a b := hac.wellFounded sources hsources
  let f : α → ℕ := hwf.fix fun a below =>
    level (targets a) (peak (fun t => below t.1 t.2) (targets a).attach)
  refine ⟨f, fun a => ?_⟩
  have hfix : f a = level (targets a) (peak (fun t => f t.1) (targets a).attach) := hwf.fix_eq _ a
  have hattach : peak (fun t : {t // t ∈ targets a} => f t.1) (targets a).attach =
      peak f (targets a) := by
    have hfold : ∀ l : List {t // t ∈ targets a},
        peak (fun t : {t // t ∈ targets a} => f t.1) l = peak f (l.map Subtype.val) := by
      intro l
      induction l with
      | nil => rfl
      | cons t l ih => exact congrArg (max (f t.1)) ih
    rw [hfold, List.attach_map_subtype_val]
  rw [hfix, hattach]

end Levels

/-! ## §3  Walks -/

section Walks

variable [DecidableEq α] {targets : α → List α} {f : α → ℕ} {as : List α} {m m' : Memo α}
  {n : ℕ} {a b : α} {d : ℕ}

/-- The table has the right depth for whatever it knows of what the nodes lead to. -/
def KnowsBelow (targets : α → List α) (f : α → ℕ) (m : Memo α) (as : List α) : Prop :=
  ∀ a ∈ as, ∀ b, Relation.ReflTransGen (Edge targets) a b → ∀ d, m.get b = some d → d = f b

theorem knowsBelow_cons : KnowsBelow targets f m (a :: as) ↔
    (∀ b, Relation.ReflTransGen (Edge targets) a b → ∀ d, m.get b = some d → d = f b) ∧
      KnowsBelow targets f m as := List.forall_mem_cons

/-- A node in progress is not met again, as nothing leads back to it. -/
theorem KnowsBelow.insert (h : KnowsBelow targets f m [a]) (hac : Acyclic (Edge targets)) (n : ℕ) :
    KnowsBelow targets f (m.insert a n) (targets a) := by
  intro t ht b htb d hd
  have hne : b ≠ a := by
    rintro rfl
    exact hac b (Relation.TransGen.head' ht htb)
  rw [IndexMap.get_insert, if_neg hne] at hd
  exact h a (List.mem_singleton.mpr rfl) b (.head ht htb) d hd

/-- **The walk yields the largest level of its nodes and notes levels only.** -/
theorem Visits.levels (hf : Levelled targets f) (hac : Acyclic (Edge targets))
    (h : Visits targets as m n m') (hknows : KnowsBelow targets f m as) :
    n = peak f as ∧ ∀ b d, m'.get b = some d → m.get b = some d ∨ d = f b := by
  induction h with
  | nil => exact ⟨rfl, fun b d hd => Or.inl hd⟩
  | @cached a as m d n m' hget _ ih =>
      obtain ⟨ha, has⟩ := knowsBelow_cons.mp hknows
      obtain ⟨rfl, hnoted⟩ := ih has
      rw [ha a .refl d hget]
      exact ⟨rfl, hnoted⟩
  | @fresh a as m n m₁ d n' m' hnew hin hd hrest ih₁ ih₂ =>
      obtain ⟨ha, has⟩ := knowsBelow_cons.mp hknows
      have hsingle : KnowsBelow targets f m [a] := by
        intro a' ha'
        rw [List.mem_singleton.mp ha']
        exact ha
      obtain ⟨rfl, hnoted₁⟩ := ih₁ (hsingle.insert hac 0)
      rw [← hf a] at hd
      subst hd
      -- what the inner walk has left behind, with the depth of `a` in place of 0
      have hmid : ∀ b d, (m₁.insert a (f a)).get b = some d → m.get b = some d ∨ d = f b := by
        intro b d hd
        rw [IndexMap.get_insert] at hd
        split at hd
        · next heq =>
            subst heq
            exact Or.inr (Option.some.inj hd).symm
        · next hne =>
            rcases hnoted₁ b d hd with hold | hlevel
            · rw [IndexMap.get_insert, if_neg hne] at hold
              exact Or.inl hold
            · exact Or.inr hlevel
      have hknows₂ : KnowsBelow targets f (m₁.insert a (f a)) as := by
        intro a' ha' b hab d hd
        rcases hmid b d hd with hold | hlevel
        · exact has a' ha' b hab d hold
        · exact hlevel
      obtain ⟨rfl, hnoted₂⟩ := ih₂ hknows₂
      refine ⟨rfl, fun b d hd => ?_⟩
      rcases hnoted₂ b d hd with hold | hlevel
      · exact hmid b d hold
      · exact Or.inr hlevel

end Walks

end SpecForge.Lib.Depth
