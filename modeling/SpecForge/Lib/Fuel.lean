import Mathlib.Data.Nat.Init
import Mathlib.Logic.Relation
import SpecForge.Lib.Lists

/-!
# Recursion under a budget

A recursive procedure that need not terminate is a family `f : ℕ → Option β`:
`f n` is its result when the call depth is capped at `n`, and `none` when the
cap is hit. The procedure *returns* `b` when some cap is large enough.

- §1 `Stable` families, `Returns`, and that a result is unique.
- §2 Loops over a list (`mapM`, `allM`, `anyM`): what they compute when each
  step has a result, and one cap that serves every step.
- §3 `Recurses`: a procedure and the calls it makes. It returns exactly where
  every chain of calls ends.
-/

namespace SpecForge.Lib

universe u

/-! ## §1  Results -/

section Results

variable {β : Type u}

/-- A larger cap never changes a result. -/
def Stable (f : ℕ → Option β) : Prop := ∀ n b, f n = some b → f (n + 1) = some b

/-- The procedure returns `b`. -/
def Returns (f : ℕ → Option β) (b : β) : Prop := ∃ n, f n = some b

theorem Stable.le {f : ℕ → Option β} (hf : Stable f) {n m : ℕ} (h : n ≤ m) {b : β}
    (hb : f n = some b) : f m = some b := by
  induction h with
  | refl => exact hb
  | step _ ih => exact hf _ _ ih

theorem Returns.unique {f : ℕ → Option β} (hf : Stable f) {b b' : β}
    (h : Returns f b) (h' : Returns f b') : b = b' := by
  obtain ⟨n, hn⟩ := h
  obtain ⟨m, hm⟩ := h'
  have h1 := hf.le (Nat.le_max_left n m) hn
  have h2 := hf.le (Nat.le_max_right n m) hm
  exact Option.some.inj (h1.symm.trans h2)

theorem Returns.iff_eq {f : ℕ → Option β} (hf : Stable f) {b b' : β} (h : Returns f b) :
    Returns f b' ↔ b' = b := by
  constructor
  · exact fun h' => h'.unique hf h
  · rintro rfl
    exact h

/-- One unfolding of a recursive procedure: it returns what its body returns
with the recursive calls capped one lower. -/
theorem returns_succ_iff {f g : ℕ → Option β} (h0 : f 0 = none)
    (h : ∀ n, f (n + 1) = g n) {b : β} : Returns f b ↔ Returns g b := by
  constructor
  · rintro ⟨n, hn⟩
    cases n with
    | zero =>
        rw [h0] at hn
        exact absurd hn (by simp)
    | succ n => exact ⟨n, (h n).symm.trans hn⟩
  · rintro ⟨n, hn⟩
    exact ⟨n + 1, (h n).trans hn⟩

theorem Returns.map {γ : Type u} {f : ℕ → Option β} {b : β} (h : Returns f b) (g : β → γ) :
    Returns (fun n => (f n).map g) (g b) := by
  obtain ⟨n, hn⟩ := h
  exact ⟨n, congrArg (Option.map g) hn⟩

theorem returns_const {b b' : β} : Returns (fun _ => some b) b' ↔ b = b' :=
  ⟨fun ⟨_, h⟩ => Option.some.inj h, fun h => ⟨0, congrArg some h⟩⟩

end Results

/-! ## §2  Loops -/

section Loops

variable {α : Type u} {β : Type}

theorem mapM_eq_some {f : α → Option β} : ∀ {l : List α} {bs : List β},
    l.mapM f = some bs ↔ List.Forall₂ (fun a b => f a = some b) l bs
  | [], bs => by
      simp only [List.mapM_nil, List.forall₂_nil_left_iff]
      exact ⟨fun h => (Option.some.inj h).symm, fun h => congrArg some h.symm⟩
  | a :: l, bs => by
      rw [List.mapM_cons, List.forall₂_cons_left_iff]
      constructor
      · intro h
        obtain ⟨b, hb, h'⟩ := Option.bind_eq_some_iff.mp h
        obtain ⟨bs', hbs, h''⟩ := Option.bind_eq_some_iff.mp h'
        exact ⟨b, bs', hb, mapM_eq_some.mp hbs, (Option.some.inj h'').symm⟩
      · rintro ⟨b, bs', hb, hbs, rfl⟩
        rw [hb, mapM_eq_some.mpr hbs]
        rfl

/-- A loop whose steps all return. -/
theorem mapM_eq_some_map {f : α → Option β} {g : α → β} {l : List α}
    (h : ∀ a ∈ l, f a = some (g a)) : l.mapM f = some (l.map g) := by
  rw [mapM_eq_some, List.forall₂_map_right_iff, List.forall₂_same]
  exact h

theorem allM_eq_some {f : α → Option Bool} {l : List α} {bs : List Bool}
    (h : List.Forall₂ (fun a b => f a = some b) l bs) :
    l.allM f = some (bs.all id) := by
  induction h with
  | nil => rfl
  | @cons a b l bs hab _ ih =>
      rw [List.allM_cons, hab]
      cases b with
      | true => simpa using ih
      | false => rfl

theorem allM_eq_true {f : α → Option Bool} : ∀ {l : List α},
    l.allM f = some true ↔ ∀ a ∈ l, f a = some true
  | [] => by simp
  | a :: l => by
      rw [List.allM_cons, List.forall_mem_cons, ← allM_eq_true (l := l)]
      cases f a with
      | none => simp
      | some b => cases b <;> simp

theorem anyM_eq_some {f : α → Option Bool} {l : List α} {bs : List Bool}
    (h : List.Forall₂ (fun a b => f a = some b) l bs) :
    l.anyM f = some (bs.any id) := by
  induction h with
  | nil => rfl
  | @cons a b l bs hab _ ih =>
      rw [List.anyM_cons, hab]
      cases b with
      | true => rfl
      | false => simpa using ih

theorem mapM_stable {f g : α → Option β} {l : List α}
    (h : ∀ a ∈ l, ∀ b, f a = some b → g a = some b) {bs : List β}
    (hf : l.mapM f = some bs) : l.mapM g = some bs := by
  rw [mapM_eq_some] at hf ⊢
  induction hf with
  | nil => exact List.Forall₂.nil
  | cons hab _ ih =>
      exact List.Forall₂.cons (h _ List.mem_cons_self _ hab)
        (ih fun a ha => h a (List.mem_cons_of_mem _ ha))

theorem mapM_map_stable {γ : Type} {f g : α → Option β} {l : List α} {k : List β → γ}
    (h : ∀ a ∈ l, ∀ b, f a = some b → g a = some b) {c : γ}
    (hf : (l.mapM f).map k = some c) : (l.mapM g).map k = some c := by
  obtain ⟨bs, hbs, hk⟩ := Option.map_eq_some_iff.mp hf
  exact Option.map_eq_some_iff.mpr ⟨bs, mapM_stable h hbs, hk⟩

/-- A loop returns if each of its steps does. -/
theorem isSome_mapM_iff {f : α → Option β} : ∀ {l : List α},
    (l.mapM f).isSome ↔ ∀ a ∈ l, (f a).isSome
  | [] => by simp
  | a :: l => by
      rw [List.mapM_cons, List.forall_mem_cons, ← isSome_mapM_iff (l := l)]
      cases f a with
      | none => simp
      | some b => cases l.mapM f <;> simp

theorem isSome_of_mapM {γ : Type} {f : α → Option β} {k : List β → γ} {l : List α}
    (h : ((l.mapM f).map k).isSome) {a : α} (ha : a ∈ l) : (f a).isSome := by
  rw [Option.isSome_map] at h
  exact isSome_mapM_iff.mp h a ha

theorem allM_stable {f g : α → Option Bool} : ∀ {l : List α},
    (∀ a ∈ l, ∀ b, f a = some b → g a = some b) → ∀ {b : Bool},
    l.allM f = some b → l.allM g = some b
  | [], _, _, hf => hf
  | a :: l, h, b, hf => by
      rw [List.allM_cons] at hf ⊢
      obtain ⟨c, hc, hrest⟩ := Option.bind_eq_some_iff.mp hf
      refine Option.bind_eq_some_iff.mpr ⟨c, h a List.mem_cons_self c hc, ?_⟩
      cases c with
      | true => exact allM_stable (fun x hx => h x (List.mem_cons_of_mem _ hx)) hrest
      | false => exact hrest

theorem anyM_stable {f g : α → Option Bool} : ∀ {l : List α},
    (∀ a ∈ l, ∀ b, f a = some b → g a = some b) → ∀ {b : Bool},
    l.anyM f = some b → l.anyM g = some b
  | [], _, _, hf => hf
  | a :: l, h, b, hf => by
      rw [List.anyM_cons] at hf ⊢
      obtain ⟨c, hc, hrest⟩ := Option.bind_eq_some_iff.mp hf
      refine Option.bind_eq_some_iff.mpr ⟨c, h a List.mem_cons_self c hc, ?_⟩
      cases c with
      | true => exact hrest
      | false => exact anyM_stable (fun x hx => h x (List.mem_cons_of_mem _ hx)) hrest

/-- Forgetting part of each result commutes with the loop. -/
theorem mapM_forget {γ : Type} {f : α → Option β} {g : α → Option γ} (k : β → γ) :
    ∀ {l : List α}, (∀ a ∈ l, (f a).map k = g a) → (l.mapM f).map (List.map k) = l.mapM g
  | [], _ => rfl
  | a :: l, h => by
      have hhead := h a List.mem_cons_self
      have htail := mapM_forget k fun x hx => h x (List.mem_cons_of_mem a hx)
      rw [List.mapM_cons, List.mapM_cons, ← hhead, ← htail]
      cases f a with
      | none => rfl
      | some b =>
          cases l.mapM f with
          | none => rfl
          | some bs => rfl

/-- If every element's procedure returns, one cap serves the whole loop. -/
theorem exists_common_fuel {f : ℕ → α → Option β} {P : α → β → Prop} : ∀ {l : List α},
    (∀ a ∈ l, Stable fun n => f n a) →
    (∀ a ∈ l, ∃ b, Returns (fun n => f n a) b ∧ P a b) →
    ∃ n bs, List.Forall₂ (fun a b => f n a = some b ∧ P a b) l bs
  | [], _, _ => ⟨0, [], List.Forall₂.nil⟩
  | a :: l, hst, hret => by
      obtain ⟨b, ⟨n, hn⟩, hP⟩ := hret a List.mem_cons_self
      obtain ⟨m, bs, hbs⟩ := exists_common_fuel (l := l)
        (fun x hx => hst x (List.mem_cons_of_mem _ hx))
        (fun x hx => hret x (List.mem_cons_of_mem _ hx))
      have hhead : f (max n m) a = some b :=
        (hst a List.mem_cons_self).le (Nat.le_max_left n m) hn
      have htail : List.Forall₂ (fun x y => f (max n m) x = some y ∧ P x y) l bs := by
        have hmem : List.Forall₂ (fun x y => x ∈ l ∧ f m x = some y ∧ P x y) l bs :=
          (List.forall₂_and_left l bs).mpr ⟨fun x hx => hx, hbs⟩
        refine hmem.imp ?_
        rintro x y ⟨hx, hy, hPy⟩
        exact ⟨(hst x (List.mem_cons_of_mem _ hx)).le (Nat.le_max_right n m) hy, hPy⟩
      exact ⟨max n m, b :: bs, List.Forall₂.cons ⟨hhead, hP⟩ htail⟩

theorem exists_returns_loop {f : ℕ → α → Option β} {l : List α}
    (hst : ∀ a ∈ l, Stable fun n => f n a)
    (hret : ∀ a ∈ l, ∃ b, Returns (fun n => f n a) b) :
    ∃ n bs, List.Forall₂ (fun a b => f n a = some b) l bs := by
  obtain ⟨n, bs, hbs⟩ := exists_common_fuel (P := fun _ _ => True) hst
    (fun a ha => by
      obtain ⟨b, hb⟩ := hret a ha
      exact ⟨b, hb, trivial⟩)
  exact ⟨n, bs, hbs.imp fun _ _ h => h.1⟩

theorem exists_returns_mapM {γ : Type} {f : ℕ → α → Option β} {l : List α}
    (hst : ∀ a ∈ l, Stable fun n => f n a)
    (hret : ∀ a ∈ l, ∃ b, Returns (fun n => f n a) b) (k : List β → γ) :
    ∃ c, Returns (fun n => (l.mapM (f n)).map k) c := by
  obtain ⟨n, bs, hbs⟩ := exists_returns_loop hst hret
  exact ⟨_, n, congrArg (Option.map k) (mapM_eq_some.mpr hbs)⟩

theorem exists_returns_allM {f : ℕ → α → Option Bool} {l : List α}
    (hst : ∀ a ∈ l, Stable fun n => f n a)
    (hret : ∀ a ∈ l, ∃ b, Returns (fun n => f n a) b) :
    ∃ b, Returns (fun n => l.allM (f n)) b := by
  obtain ⟨n, bs, hbs⟩ := exists_returns_loop hst hret
  exact ⟨_, n, allM_eq_some hbs⟩

/-- A loop returns the results of its steps. -/
theorem returns_mapM_iff {f : ℕ → α → Option β} {l : List α} {bs : List β}
    (hst : ∀ a ∈ l, Stable fun n => f n a) :
    Returns (fun n => l.mapM (f n)) bs ↔
      List.Forall₂ (fun a b => Returns (fun n => f n a) b) l bs := by
  constructor
  · rintro ⟨n, hn⟩
    exact (mapM_eq_some.mp hn).imp fun _ _ h => ⟨n, h⟩
  · intro h
    have hret : ∀ a ∈ l, ∃ b, Returns (fun n => f n a) b := by
      intro a ha
      obtain ⟨b, -, hb⟩ := forall₂_mem_left h ha
      exact ⟨b, hb⟩
    obtain ⟨n, bs', hbs'⟩ := exists_returns_loop hst hret
    refine ⟨n, mapM_eq_some.mpr ?_⟩
    have hmem : List.Forall₂ (fun a b => a ∈ l ∧ f n a = some b) l bs' :=
      (List.forall₂_and_left l bs').mpr ⟨fun a ha => ha, hbs'⟩
    rw [List.forall₂_iff_get] at h hmem ⊢
    refine ⟨h.1, fun i hi hi' => ?_⟩
    obtain ⟨ha, hb⟩ := hmem.2 i hi (hmem.1 ▸ hi)
    have hunique := Returns.unique (hst _ ha) (h.2 i hi hi') ⟨n, hb⟩
    rw [hunique]
    exact hb

/-- A loop that runs every step and asks whether all said yes. -/
theorem returns_all_true {f : ℕ → α → Option Bool} {l : List α}
    (hst : ∀ a ∈ l, Stable fun n => f n a) :
    Returns (fun n => (l.mapM (f n)).map (·.all id)) true ↔
      ∀ a ∈ l, Returns (fun n => f n a) true := by
  constructor
  · rintro ⟨n, hn⟩ a ha
    obtain ⟨bs, hbs, hall⟩ := Option.map_eq_some_iff.mp hn
    obtain ⟨b, hb, hab⟩ := forall₂_mem_left (mapM_eq_some.mp hbs) ha
    have hbt : b = true := List.all_eq_true.mp hall b hb
    exact ⟨n, hbt ▸ hab⟩
  · intro h
    obtain ⟨n, bs, hbs⟩ := exists_common_fuel (P := fun _ b => b = true) hst
      (fun a ha => ⟨true, h a ha, rfl⟩)
    refine ⟨n, Option.map_eq_some_iff.mpr ⟨bs, ?_, ?_⟩⟩
    · exact mapM_eq_some.mpr (hbs.imp fun _ _ hab => hab.1)
    · refine List.all_eq_true.mpr fun b hb => ?_
      obtain ⟨a, -, hab⟩ := forall₂_mem_right hbs hb
      exact hab.2

/-- A loop that runs every step and asks whether one said yes. -/
theorem returns_any_true {f : ℕ → α → Option Bool} {l : List α}
    (hst : ∀ a ∈ l, Stable fun n => f n a)
    (hret : ∀ a ∈ l, ∃ b, Returns (fun n => f n a) b) :
    Returns (fun n => (l.mapM (f n)).map (·.any id)) true ↔
      ∃ a ∈ l, Returns (fun n => f n a) true := by
  constructor
  · rintro ⟨n, hn⟩
    obtain ⟨bs, hbs, hany⟩ := Option.map_eq_some_iff.mp hn
    obtain ⟨b, hb, hbt⟩ := List.any_eq_true.mp hany
    obtain ⟨a, ha, hab⟩ := forall₂_mem_right (mapM_eq_some.mp hbs) hb
    have hbt' : b = true := hbt
    exact ⟨a, ha, n, hbt' ▸ hab⟩
  · rintro ⟨a, ha, htrue⟩
    obtain ⟨n, bs, hbs⟩ := exists_returns_loop hst hret
    obtain ⟨b, hb, hab⟩ := forall₂_mem_left hbs ha
    have hbt : b = true := Returns.unique (hst a ha) ⟨n, hab⟩ htrue
    refine ⟨n, Option.map_eq_some_iff.mpr ⟨bs, mapM_eq_some.mpr hbs, ?_⟩⟩
    exact List.any_eq_true.mpr ⟨b, hb, hbt⟩

/-- A loop that stops at the first no. -/
theorem returns_allM_true {f : ℕ → α → Option Bool} {l : List α}
    (hst : ∀ a ∈ l, Stable fun n => f n a) :
    Returns (fun n => l.allM (f n)) true ↔ ∀ a ∈ l, Returns (fun n => f n a) true := by
  constructor
  · rintro ⟨n, hn⟩ a ha
    exact ⟨n, allM_eq_true.mp hn a ha⟩
  · intro h
    obtain ⟨n, bs, hbs⟩ := exists_common_fuel (P := fun _ b => b = true) hst
      (fun a ha => ⟨true, h a ha, rfl⟩)
    refine ⟨n, allM_eq_true.mpr fun a ha => ?_⟩
    obtain ⟨b, -, hab, rfl⟩ := forall₂_mem_left hbs ha
    exact hab

/-- A loop that stops at the first yes. -/
theorem returns_anyM_true {f : ℕ → α → Option Bool} {l : List α}
    (hst : ∀ a ∈ l, Stable fun n => f n a)
    (hret : ∀ a ∈ l, ∃ b, Returns (fun n => f n a) b) :
    Returns (fun n => l.anyM (f n)) true ↔ ∃ a ∈ l, Returns (fun n => f n a) true := by
  obtain ⟨n, bs, hbs⟩ := exists_returns_loop hst hret
  have hrun : Returns (fun n => l.anyM (f n)) (bs.any id) := ⟨n, anyM_eq_some hbs⟩
  have hst' : Stable fun n => l.anyM (f n) :=
    fun m b hb => anyM_stable (fun a ha c hc => hst a ha m c hc) hb
  constructor
  · intro h
    obtain ⟨b, hb, hbt⟩ := List.any_eq_true.mp (hrun.unique hst' h)
    obtain ⟨a, ha, hab⟩ := forall₂_mem_right hbs hb
    have hbt' : b = true := hbt
    exact ⟨a, ha, n, hbt' ▸ hab⟩
  · rintro ⟨a, ha, htrue⟩
    obtain ⟨b, hb, hab⟩ := forall₂_mem_left hbs ha
    have hbt : b = true := Returns.unique (hst a ha) ⟨n, hab⟩ htrue
    have hany : bs.any id = true := List.any_eq_true.mpr ⟨b, hb, hbt⟩
    exact hany ▸ hrun

end Loops

/-! ## §3  Calls -/

section Calls

variable {α : Type u} {β : Type} {f : ℕ → α → Option β} {calls : α → α → Prop}

/-- A recursive procedure makes the calls `calls a` on the argument `a`: it returns
if they all do, and its budget serves each of them, less one. -/
structure Recurses (f : ℕ → α → Option β) (calls : α → α → Prop) : Prop where
  zero : ∀ a, f 0 a = none
  returns : ∀ a, (∀ b, calls a b → ∃ r, Returns (fun n => f n b) r) →
    ∃ r, Returns (fun n => f n a) r
  callee : ∀ n a b, calls a b → (f (n + 1) a).isSome → (f n b).isSome

/-- **A recursive procedure returns exactly where every chain of calls ends.** -/
theorem Recurses.returns_iff_acc (h : Recurses f calls) (a : α) :
    (∃ r, Returns (fun n => f n a) r) ↔ Acc (fun b a => calls a b) a := by
  constructor
  · rintro ⟨r, n, hn⟩
    have hsome : (f n a).isSome := Option.isSome_iff_exists.mpr ⟨r, hn⟩
    clear hn
    induction n generalizing a with
    | zero =>
        rw [h.zero] at hsome
        exact absurd hsome Bool.false_ne_true
    | succ n ih => exact ⟨a, fun b hb => ih b (h.callee n a b hb hsome)⟩
  · intro hacc
    induction hacc with
    | intro a _ ih => exact h.returns a ih

/-- If every step of `q` is matched by steps of `r`, chains of `q` end where the
chains of `r` do. -/
theorem acc_of_simulates {γ : Type u} {q : γ → γ → Prop} {r : α → α → Prop} {R : γ → α → Prop}
    (hsim : ∀ a b x, q a b → R a x → ∃ y, R b y ∧ Relation.TransGen r x y) {a : γ} {x : α}
    (hR : R a x) (hx : Acc (fun y x => r x y) x) : Acc (fun b a => q a b) a := by
  have hacc := hx.transGen
  clear hx
  induction hacc generalizing a with
  | intro x _ ih =>
      refine ⟨a, fun b hb => ?_⟩
      obtain ⟨y, hRy, hrun⟩ := hsim a b x hb hR
      exact ih y (Relation.transGen_swap.mp hrun) hRy

theorem acc_of_reflTransGen {r : α → α → Prop} {a b : α} (h : Acc (fun b a => r a b) a)
    (hab : Relation.ReflTransGen r a b) : Acc (fun b a => r a b) b := by
  induction hab with
  | refl => exact h
  | tail _ hbc ih => exact ih.inv hbc

/-- No chain of calls from where the procedure returns comes back to its start. -/
theorem not_transGen_of_acc {r : α → α → Prop} {a : α} (h : Acc (fun b a => r a b) a) :
    ¬Relation.TransGen r a a := by
  induction h with
  | intro a _ ih =>
      intro hcycle
      obtain ⟨b, hab, hba⟩ := Relation.TransGen.head'_iff.mp hcycle
      exact ih b hab (Relation.TransGen.tail' hba hab)

end Calls

end SpecForge.Lib
