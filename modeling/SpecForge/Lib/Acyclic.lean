import Mathlib.Algebra.Order.BigOperators.Group.List
import Mathlib.Algebra.Order.Group.Nat
import Mathlib.Algebra.Ring.Nat
import Mathlib.Data.Fintype.Card
import Mathlib.Data.Set.Finite.List
import Mathlib.Logic.Relation

/-!
# Acyclic references

`r a b` reads "`a` refers to `b`". When only finitely many things refer to
anything and no chain of references comes back to its start, every chain ends;
so a property that passes from all targets of `a` to `a` holds everywhere. And if
what `a` refers to are its parts, things have a size exactly if there is no cycle.
-/

namespace SpecForge.Lib

universe u

variable {α : Type u} {r : α → α → Prop}

/-- No chain of references returns to its start. -/
def Acyclic (r : α → α → Prop) : Prop := ∀ a, ¬ Relation.TransGen r a a

theorem Acyclic.wellFounded (hac : Acyclic r) (sources : List α)
    (hsrc : ∀ a b, r a b → a ∈ sources) : WellFounded fun b a => r a b := by
  let below : {a // a ∈ sources} → {a // a ∈ sources} → Prop :=
    fun b a => Relation.TransGen r a.1 b.1
  have : Finite {a // a ∈ sources} := (List.finite_toSet sources).to_subtype
  have : IsTrans _ below := ⟨fun _ _ _ hab hbc => hbc.trans hab⟩
  have : Std.Irrefl below := ⟨fun a => hac a.1⟩
  have hwf : WellFounded below := Finite.wellFounded_of_trans_of_irrefl below
  have hleaf : ∀ a, a ∉ sources → Acc (fun b a => r a b) a :=
    fun a ha => ⟨a, fun b hb => absurd (hsrc a b hb) ha⟩
  have hsource : ∀ a : {a // a ∈ sources}, Acc (fun b a => r a b) a.1 := by
    intro a
    induction a using hwf.induction with
    | h a ih =>
        refine ⟨a.1, fun b hb => ?_⟩
        by_cases hmem : b ∈ sources
        · exact ih ⟨b, hmem⟩ (Relation.TransGen.single hb)
        · exact hleaf b hmem
  refine ⟨fun a => ?_⟩
  by_cases hmem : a ∈ sources
  · exact hsource ⟨a, hmem⟩
  · exact hleaf a hmem

/-- Induction along the references. -/
theorem Acyclic.induction (hac : Acyclic r) (sources : List α)
    (hsrc : ∀ a b, r a b → a ∈ sources) {P : α → Prop}
    (hstep : ∀ a, (∀ b, r a b → P b) → P a) (a : α) : P a :=
  (hac.wellFounded sources hsrc).induction a hstep

/-- A quantity that gets smaller along the references rules out cycles. -/
theorem acyclic_of_lt (size : α → ℕ) (h : ∀ a b, r a b → size b < size a) : Acyclic r := by
  intro a ha
  have hlt : ∀ b, Relation.TransGen r a b → size b < size a := by
    intro b hb
    induction hb with
    | single hab => exact h a _ hab
    | tail _ hbc ih => exact (h _ _ hbc).trans ih
  exact (hlt a ha).false

/-- **Things have a size, one more than those of their parts together, exactly if nothing
is a part of itself.** -/
theorem acyclic_iff_exists_size {parts : α → List α} (sources : List α)
    (hsrc : ∀ a b, b ∈ parts a → a ∈ sources) : Acyclic (fun a b => b ∈ parts a) ↔
      ∃ size : α → ℕ, ∀ a, size a = 1 + ((parts a).map size).sum := by
  constructor
  · intro hac
    have hwf : WellFounded fun b a => b ∈ parts a := hac.wellFounded sources hsrc
    refine ⟨hwf.fix fun a sizes => 1 + ((parts a).attach.map fun b => sizes b.1 b.2).sum,
      fun a => ?_⟩
    rw [hwf.fix_eq, List.attach_map_val]
  · rintro ⟨size, hsize⟩
    refine acyclic_of_lt size fun a b hab => ?_
    have hle : size b ≤ ((parts a).map size).sum :=
      List.le_sum_of_mem (List.mem_map_of_mem hab)
    rw [hsize a]
    omega

end SpecForge.Lib
