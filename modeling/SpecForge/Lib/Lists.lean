import Mathlib.Data.List.Forall2
import Mathlib.Data.List.Nodup

/-!
# Lists

- §1 lists related element by element.
- §2 the elements of a list found by a key that tells them apart.
- §3 `firstOccurrences`, the order in which an insertion-ordered map lists its
  keys.
- §4 overlays. Several runs lay out one block for each element of a list; the
  overlay takes each block from a run that has it, every other run leaving it
  empty. What it contains, its last entry for a key, and that it has the key
  order which all the runs have (`Overlays.firstOccurrences`).
- §5 updates of one element, and one more at the end; `modifyFirst` is an update of the
  first that passes a test.
- §6 `keepNew`, the first element of each key. Where an element may be left out
  is told by what stands before and behind it (`foldl_keepNew_filterMap_iff`).
-/

namespace SpecForge.Lib

universe u v w

/-! ## §1  Related elements -/

section Related

variable {α : Type u} {β : Type v} {R : α → β → Prop}

theorem forall₂_mem_left {l : List α} {bs : List β}
    (h : List.Forall₂ R l bs) {a : α} (ha : a ∈ l) : ∃ b ∈ bs, R a b := by
  induction h with
  | nil => exact absurd ha List.not_mem_nil
  | @cons x b l bs hxb _ ih =>
      rcases List.mem_cons.mp ha with rfl | hmem
      · exact ⟨b, List.mem_cons_self, hxb⟩
      · obtain ⟨y, hy, hay⟩ := ih hmem
        exact ⟨y, List.mem_cons_of_mem _ hy, hay⟩

theorem forall₂_mem_right {l : List α} {bs : List β}
    (h : List.Forall₂ R l bs) {b : β} (hb : b ∈ bs) : ∃ a ∈ l, R a b := by
  induction h with
  | nil => exact absurd hb List.not_mem_nil
  | @cons a x l bs hax _ ih =>
      rcases List.mem_cons.mp hb with rfl | hmem
      · exact ⟨a, List.mem_cons_self, hax⟩
      · obtain ⟨y, hy, hyb⟩ := ih hmem
        exact ⟨y, List.mem_cons_of_mem _ hy, hyb⟩

theorem exists_mem_zip {as : List α} {bs : List β} (hlen : bs.length = as.length)
    {a : α} (ha : a ∈ as) : ∃ b, (a, b) ∈ as.zip bs := by
  obtain ⟨i, hi, rfl⟩ := List.getElem_of_mem ha
  refine ⟨bs[i], List.mem_iff_getElem.mpr ⟨i, ?_, List.getElem_zip⟩⟩
  rw [List.length_zip]
  omega

theorem forall₂_getElem?_left {l : List α} {bs : List β} (h : List.Forall₂ R l bs) {a : α} :
    ∀ {i : ℕ}, l[i]? = some a → ∃ b, bs[i]? = some b ∧ R a b := by
  induction h with
  | nil => exact fun hi => nomatch hi
  | @cons x b l bs hxb _ ih =>
      intro i hi
      rcases i with _ | i
      · exact ⟨b, rfl, Option.some.inj hi ▸ hxb⟩
      · exact ih hi

theorem forall₂_getElem?_right {l : List α} {bs : List β} (h : List.Forall₂ R l bs) {b : β}
    {i : ℕ} (hi : bs[i]? = some b) : ∃ a, l[i]? = some a ∧ R a b :=
  forall₂_getElem?_left (R := fun b a => R a b) h.flip hi

end Related

/-- A list of values of a function, each at an argument with a property. -/
theorem exists_map_eq {α : Type u} {β : Type v} {f : α → β} {P : α → Prop} :
    ∀ {bs : List β}, (∀ b ∈ bs, ∃ a, P a ∧ f a = b) →
      ∃ l : List α, l.map f = bs ∧ ∀ a ∈ l, P a
  | [], _ => ⟨[], rfl, List.forall_mem_nil P⟩
  | b :: bs, h => by
      obtain ⟨a, ha, rfl⟩ := h b List.mem_cons_self
      obtain ⟨l, rfl, hl⟩ := exists_map_eq fun x hx => h x (List.mem_cons_of_mem _ hx)
      exact ⟨a :: l, rfl, List.forall_mem_cons.mpr ⟨ha, hl⟩⟩

/-! ## §2  Keys -/

theorem find?_key {α : Type u} {K : Type v} [DecidableEq K] {key : α → K} {l : List α}
    (hnd : (l.map key).Nodup) {a : α} (ha : a ∈ l) :
    (l.find? fun x => key x == key a) = some a := by
  cases hfind : l.find? fun x => key x == key a with
  | none => exact absurd (beq_self_eq_true _) (List.find?_eq_none.mp hfind a ha)
  | some b =>
      have htest : (key b == key a) = true :=
        List.find?_some (p := fun x => key x == key a) hfind
      have hb : b ∈ l := List.mem_of_find?_eq_some hfind
      rw [List.inj_on_of_nodup_map hnd hb ha (beq_iff_eq.mp htest)]

/-- The one element that passes a test. -/
theorem filter_eq_singleton {α : Type u} {p : α → Bool} {l : List α} {a : α} (hnd : l.Nodup)
    (ha : a ∈ l) (h : ∀ x ∈ l, p x = true ↔ x = a) : l.filter p = [a] := by
  refine List.perm_singleton.mp ?_
  rw [List.perm_ext_iff_of_nodup (hnd.filter p) (List.nodup_singleton a)]
  intro x
  rw [List.mem_filter, List.mem_singleton]
  constructor
  · rintro ⟨hx, hp⟩
    exact (h x hx).mp hp
  · rintro rfl
    exact ⟨ha, (h x ha).mpr rfl⟩

/-! ## §3  First occurrences -/

section First

variable {K : Type u} [DecidableEq K]

def addKey (ks : List K) (k : K) : List K := if k ∈ ks then ks else ks ++ [k]

/-- The elements in the order of their first occurrences. -/
def firstOccurrences (l : List K) : List K := l.foldl addKey []

theorem prefix_addKey (ks : List K) (k : K) : ks <+: addKey ks k := by
  unfold addKey
  split
  · exact List.prefix_refl ks
  · exact List.prefix_append ks [k]

theorem prefix_foldl_addKey (l : List K) : ∀ ks : List K, ks <+: l.foldl addKey ks := by
  induction l with
  | nil => intro ks; exact List.prefix_refl ks
  | cons k l ih => intro ks; exact (prefix_addKey ks k).trans (ih _)

/-- Two prefixes of one order stay prefixes of it, and of one another, when a key
is added that keeps the shorter one in order. -/
theorem addKey_prefix_mono {order u v : List K} {k : K} (huv : u <+: v)
    (hv : v <+: order) (hu : addKey u k <+: order) :
    addKey v k <+: order ∧ addKey u k <+: addKey v k := by
  by_cases hku : k ∈ u
  · have hkv : k ∈ v := huv.subset hku
    rw [addKey, addKey, if_pos hku, if_pos hkv]
    exact ⟨hv, huv⟩
  · have hgrow : addKey u k = u ++ [k] := if_neg hku
    rw [hgrow] at hu ⊢
    rcases eq_or_ne u v with rfl | hne
    · rw [hgrow]
      exact ⟨hu, List.prefix_refl _⟩
    · have hlen : (u ++ [k]).length ≤ v.length := by
        have hle := huv.length_le
        have hlt : u.length ≠ v.length := fun heq => hne (huv.eq_of_length heq)
        rw [List.length_append, List.length_singleton]
        omega
      have huv' : u ++ [k] <+: v := List.prefix_of_prefix_length_le hu hv hlen
      have hkv : k ∈ v := huv'.subset (by simp)
      rw [addKey, if_pos hkv]
      exact ⟨hv, huv'⟩

theorem foldl_addKey_prefix_mono {order : List K} (l : List K) :
    ∀ {u v : List K}, u <+: v → v <+: order → l.foldl addKey u <+: order →
      l.foldl addKey v <+: order ∧ l.foldl addKey u <+: l.foldl addKey v := by
  induction l with
  | nil =>
      intro u v huv hv _
      exact ⟨hv, huv⟩
  | cons k l ih =>
      intro u v huv hv hu
      have hu' : addKey u k <+: order := (prefix_foldl_addKey l _).trans hu
      obtain ⟨hv', huv'⟩ := addKey_prefix_mono huv hv hu'
      exact ih huv' hv' hu

end First

/-! ## §4  Overlays -/

section Overlay

variable {ι : Type u} {α : Type v} {β : Type w}

/-- Block by block, `g` is the block of some run and every other run has that
block or none. -/
def Overlays (l : List α) (f : ι → α → List β) (g : α → List β) : Prop :=
  ∀ a ∈ l, (∃ i, f i a = g a) ∧ ∀ i, f i a = g a ∨ f i a = []

namespace Overlays

theorem of_cons {a : α} {l : List α} {f : ι → α → List β} {g : α → List β}
    (h : Overlays (a :: l) f g) : Overlays l f g :=
  fun b hb => h b (List.mem_cons_of_mem a hb)

theorem map {γ : Type w} {l : List α} {f : ι → α → List β} {g : α → List β}
    (h : Overlays l f g) (k : β → γ) :
    Overlays l (fun i a => (f i a).map k) fun a => (g a).map k := by
  intro a ha
  obtain ⟨⟨i, hi⟩, hall⟩ := h a ha
  refine ⟨⟨i, congrArg (List.map k) hi⟩, fun j => ?_⟩
  rcases hall j with hj | hj
  · exact Or.inl (congrArg (List.map k) hj)
  · exact Or.inr (congrArg (List.map k) hj)

theorem mem_iff {l : List α} {f : ι → α → List β} {g : α → List β} (h : Overlays l f g)
    {b : β} : b ∈ l.flatMap g ↔ ∃ i, b ∈ l.flatMap (f i) := by
  simp only [List.mem_flatMap]
  constructor
  · rintro ⟨a, ha, hb⟩
    obtain ⟨⟨i, hi⟩, -⟩ := h a ha
    exact ⟨i, a, ha, hi ▸ hb⟩
  · rintro ⟨i, a, ha, hb⟩
    rcases (h a ha).2 i with hi | hi
    · exact ⟨a, ha, hi ▸ hb⟩
    · rw [hi] at hb
      exact absurd hb List.not_mem_nil

variable {K : Type w} [DecidableEq K]

/-- The last entry for a key is the last one of some run. -/
theorem lookup_last {V : Type w} {k : K} {x : V} :
    ∀ {l : List α} {f : ι → α → List (K × V)} {g : α → List (K × V)}, Overlays l f g →
      (l.flatMap g).reverse.lookup k = some x →
      ∃ i, (l.flatMap (f i)).reverse.lookup k = some x
  | [], f, g, _, hx => by simp at hx
  | a :: l, f, g, h, hx => by
      simp only [List.flatMap_cons, List.reverse_append, List.lookup_append] at hx ⊢
      cases htail : (l.flatMap g).reverse.lookup k with
      | some y =>
          rw [htail, Option.some_or] at hx
          obtain ⟨i, hi⟩ := lookup_last h.of_cons htail
          exact ⟨i, by rw [hi, Option.some_or, hx]⟩
      | none =>
          rw [htail, Option.none_or] at hx
          obtain ⟨⟨i, hi⟩, -⟩ := h a List.mem_cons_self
          have hnone : (l.flatMap (f i)).reverse.lookup k = none := by
            rw [List.lookup_eq_none_iff] at htail ⊢
            intro e he
            refine htail e (List.mem_reverse.mpr (h.of_cons.mem_iff.mpr ⟨i, ?_⟩))
            exact List.mem_reverse.mp he
          exact ⟨i, by rw [hnone, Option.none_or, hi, hx]⟩

theorem foldl_addKey {order : List K} [Nonempty ι] :
    ∀ {l : List α} {f : ι → α → List K} {g : α → List K}, Overlays l f g →
      ∀ {u : ι → List K} {v : List K}, (∀ i, u i <+: v) → v <+: order →
      (∀ i, (l.flatMap (f i)).foldl addKey (u i) = order) →
      (l.flatMap g).foldl addKey v = order
  | [], f, g, _, u, v, hu, hv, hrun => by
      obtain ⟨i⟩ := ‹Nonempty ι›
      have horder : u i = order := hrun i
      exact hv.eq_of_length (Nat.le_antisymm hv.length_le (horder ▸ (hu i).length_le))
  | a :: l, f, g, h, u, v, hu, hv, hrun => by
      simp only [List.flatMap_cons, List.foldl_append] at hrun ⊢
      obtain ⟨⟨i, hi⟩, hall⟩ := h a List.mem_cons_self
      have hstep : ∀ j, (f j a).foldl addKey (u j) <+: order :=
        fun j => hrun j ▸ prefix_foldl_addKey _ _
      have hv' : (g a).foldl addKey v <+: order :=
        (foldl_addKey_prefix_mono (g a) (hu i) hv (hi ▸ hstep i)).1
      refine foldl_addKey h.of_cons (fun j => ?_) hv' hrun
      rcases hall j with hj | hj
      · rw [hj]
        exact (foldl_addKey_prefix_mono (g a) (hu j) hv (hj ▸ hstep j)).2
      · rw [hj]
        exact (hu j).trans (prefix_foldl_addKey _ _)

/-- **If all the runs list the keys in one order, so does their overlay.** -/
theorem firstOccurrences [Nonempty ι] {l : List α} {f : ι → α → List K} {g : α → List K}
    (h : Overlays l f g) {order : List K}
    (hrun : ∀ i, Lib.firstOccurrences (l.flatMap (f i)) = order) :
    Lib.firstOccurrences (l.flatMap g) = order :=
  foldl_addKey h (u := fun _ => []) (fun _ => List.prefix_refl []) List.nil_prefix hrun

end Overlays

end Overlay

/-! ## §5  Updating one element -/

/-- An element that yields what the one in its place yielded. -/
theorem filterMap_set {α : Type u} {β : Type v} {f : α → Option β} {a b : α} (hf : f b = f a) :
    ∀ {l : List α} {i : ℕ}, l[i]? = some a → (l.set i b).filterMap f = l.filterMap f
  | x :: l, 0, h => by
      obtain rfl : x = a := Option.some.inj h
      rw [List.set_cons_zero, List.filterMap_cons, List.filterMap_cons, hf]
  | x :: l, i + 1, h => by
      rw [List.set_cons_succ, List.filterMap_cons, List.filterMap_cons,
        filterMap_set hf (List.getElem?_cons_succ.symm.trans h)]

/-- The elements after an update of one that is there. -/
theorem getElem?_set_iff {α : Type u} {l : List α} {i j : ℕ} {a b c : α} (ha : l[i]? = some a) :
    (l.set i b)[j]? = some c ↔ j = i ∧ c = b ∨ j ≠ i ∧ l[j]? = some c := by
  have hi : i < l.length := (List.getElem?_eq_some_iff.mp ha).1
  by_cases hj : j = i
  · subst hj
    rw [List.getElem?_set_self hi, Option.some.injEq]
    simp [eq_comm]
  · rw [List.getElem?_set_ne (Ne.symm hj)]
    simp [hj]

/-- An appended element is the last one. -/
theorem getElem?_concat_iff {α : Type u} {l : List α} {i : ℕ} {a b : α} :
    (l ++ [a])[i]? = some b ↔ i = l.length ∧ b = a ∨ l[i]? = some b := by
  rcases Nat.lt_trichotomy i l.length with hlt | rfl | hgt
  · rw [List.getElem?_append_left hlt]
    simp [Nat.ne_of_lt hlt]
  · rw [List.getElem?_concat_length, List.getElem?_eq_none (Nat.le_refl _)]
    simp [eq_comm]
  · rw [List.getElem?_eq_none (by rw [List.length_append, List.length_singleton]; omega),
      List.getElem?_eq_none (Nat.le_of_lt hgt)]
    simp [Nat.ne_of_gt hgt]

section Modify

variable {α : Type u} {p q : α → Bool} {f : α → α}

/-- Look for the first element that passes the test and update it in place. -/
def modifyFirst (p : α → Bool) (f : α → α) : List α → List α
  | [] => []
  | a :: l => if p a then f a :: l else a :: modifyFirst p f l

/-- An update that keeps the test is an update of the first match. -/
theorem filter_modifyFirst (hf : ∀ a, p (f a) = p a) : ∀ l : List α,
    (modifyFirst p f l).filter p = (l.filter p).modifyHead f
  | [] => rfl
  | a :: l => by
      have ih := filter_modifyFirst hf l
      by_cases ha : p a
      · rw [modifyFirst, if_pos ha, List.filter_cons_of_pos ((hf a).trans ha),
          List.filter_cons_of_pos ha, List.modifyHead_cons]
      · rw [modifyFirst, if_neg ha, List.filter_cons_of_neg ha, List.filter_cons_of_neg ha, ih]

/-- It does not touch what the test rules out. -/
theorem filter_modifyFirst_of_disjoint (hf : ∀ a, p (f a) = p a)
    (hpq : ∀ a, p a = true → q a = false) : ∀ l : List α,
    (modifyFirst p f l).filter q = l.filter q
  | [] => rfl
  | a :: l => by
      have ih := filter_modifyFirst_of_disjoint hf hpq l
      by_cases ha : p a
      · have hqa : ¬q a = true := Bool.eq_false_iff.mp (hpq a ha)
        have hqf : ¬q (f a) = true := Bool.eq_false_iff.mp (hpq (f a) ((hf a).trans ha))
        rw [modifyFirst, if_pos ha, List.filter_cons_of_neg hqf, List.filter_cons_of_neg hqa]
      · rw [modifyFirst, if_neg ha, List.filter_cons, List.filter_cons, ih]

end Modify

/-! ## §6  The first element of each key -/

section KeepNew

variable {α : Type u} {β : Type v} {K : Type w} [DecidableEq K] {key : α → K}

/-- Keep an element unless one with its key is kept already. -/
def keepNew (key : α → K) (kept : List α) (a : α) : List α :=
  if kept.any fun x => key x == key a then kept else kept ++ [a]

theorem keepNew_of_mem {kept : List α} {a : α} (h : key a ∈ kept.map key) :
    keepNew key kept a = kept := by
  obtain ⟨x, hx, heq⟩ := List.mem_map.mp h
  exact if_pos (List.any_eq_true.mpr ⟨x, hx, by simpa using heq⟩)

theorem keepNew_of_notMem {kept : List α} {a : α} (h : key a ∉ kept.map key) :
    keepNew key kept a = kept ++ [a] := by
  refine if_neg fun hany => h ?_
  obtain ⟨x, hx, heq⟩ := List.any_eq_true.mp hany
  exact List.mem_map.mpr ⟨x, hx, beq_iff_eq.mp heq⟩

theorem mem_keys_keepNew {kept : List α} {a : α} {k : K} :
    k ∈ (keepNew key kept a).map key ↔ k ∈ kept.map key ∨ k = key a := by
  by_cases h : key a ∈ kept.map key
  · rw [keepNew_of_mem h]
    constructor
    · exact Or.inl
    · rintro (hk | rfl)
      · exact hk
      · exact h
  · rw [keepNew_of_notMem h, List.map_append, List.mem_append, List.map_singleton,
      List.mem_singleton]

theorem mem_keys_foldl_keepNew {k : K} : ∀ {l kept : List α},
    k ∈ (l.foldl (keepNew key) kept).map key ↔ k ∈ kept.map key ∨ k ∈ l.map key
  | [], kept => by simp
  | a :: l, kept => by
      rw [List.foldl_cons, mem_keys_foldl_keepNew, mem_keys_keepNew, List.map_cons,
        List.mem_cons, or_assoc]

theorem nodup_keys_foldl_keepNew : ∀ {l kept : List α}, (kept.map key).Nodup →
    ((l.foldl (keepNew key) kept).map key).Nodup
  | [], _, hnd => hnd
  | a :: l, kept, hnd => by
      rw [List.foldl_cons]
      apply nodup_keys_foldl_keepNew
      by_cases h : key a ∈ kept.map key
      · rw [keepNew_of_mem h]
        exact hnd
      · rw [keepNew_of_notMem h, List.map_append]
        exact List.nodup_append.mpr ⟨hnd, List.nodup_singleton _, by simpa using h⟩

/-- Of the elements with one key the first is kept. -/
theorem mem_foldl_keepNew_iff {a : α} : ∀ {l kept : List α},
    a ∈ l.foldl (keepNew key) kept ↔
      a ∈ kept ∨ key a ∉ kept.map key ∧ l.find? (fun x => key x == key a) = some a
  | [], kept => by simp
  | x :: l, kept => by
      rw [List.foldl_cons, mem_foldl_keepNew_iff]
      by_cases hx : key x = key a
      · rw [List.find?_cons_of_pos (by simpa using hx), Option.some.injEq]
        by_cases hold : key x ∈ kept.map key
        · -- the key is taken, so neither side looks at `l`
          rw [keepNew_of_mem hold]
          simp only [← hx, hold, not_true_eq_false, false_and]
        · rw [keepNew_of_notMem hold, List.mem_append, List.mem_singleton, eq_comm (a := x)]
          have hnew : key a ∈ (kept ++ [x]).map key := by simp [hx]
          rw [or_iff_left fun h => h.1 hnew, and_iff_right (hx ▸ hold)]
      · rw [List.find?_cons_of_neg (by simpa using hx)]
        by_cases hold : key x ∈ kept.map key
        · rw [keepNew_of_mem hold]
        · rw [keepNew_of_notMem hold, List.mem_append, List.mem_singleton, List.map_append,
            List.mem_append, List.map_singleton, List.mem_singleton]
          have hne : a ≠ x := fun heq => hx (heq ▸ rfl)
          simp only [hne, or_false, Ne.symm hx]

/-- What is kept stays, in its place. -/
theorem prefix_foldl_keepNew : ∀ l kept : List α, kept <+: l.foldl (keepNew key) kept
  | [], kept => List.prefix_rfl
  | a :: l, kept => by
      refine List.IsPrefix.trans ?_ (prefix_foldl_keepNew l (keepNew key kept a))
      by_cases h : key a ∈ kept.map key
      · exact (keepNew_of_mem h).symm ▸ List.prefix_rfl
      · exact (keepNew_of_notMem h).symm ▸ List.prefix_append kept [a]

/-- The next element whose key none of the earlier ones has. -/
def nextNew (key : α → K) (earlier later : List α) : Option α :=
  later.find? fun x => decide (key x ∉ earlier.map key)

/-- Between these elements one more of the same key makes no difference: the key
was there before, or the next new element is the very same. -/
def Redundant (key : α → K) (a : α) (earlier later : List α) : Prop :=
  key a ∈ earlier.map key ∨ nextNew key earlier later = some a

theorem foldl_keepNew_of_nextNew {kept : List α} {a : α} (hnew : key a ∉ kept.map key) :
    ∀ {l : List α}, nextNew key kept l = some a →
      l.foldl (keepNew key) kept = l.foldl (keepNew key) (kept ++ [a])
  | x :: l, h => by
      rw [List.foldl_cons, List.foldl_cons]
      by_cases hx : key x ∈ kept.map key
      · have hx' : key x ∈ (kept ++ [a]).map key := by
          rw [List.map_append]
          exact List.mem_append_left _ hx
        rw [nextNew, List.find?_cons_of_neg (by simpa using hx)] at h
        rw [keepNew_of_mem hx, keepNew_of_mem hx', foldl_keepNew_of_nextNew hnew h]
      · rw [nextNew, List.find?_cons_of_pos (by simpa using hx)] at h
        obtain rfl : x = a := Option.some.inj h
        have hx' : key x ∈ (kept ++ [x]).map key := by simp
        rw [keepNew_of_notMem hx, keepNew_of_mem hx']

/-- Otherwise the first new element is kept, whichever it is. -/
theorem nextNew_of_front {kept : List α} {a : α} : ∀ {l : List α},
    kept ++ [a] <+: l.foldl (keepNew key) kept → nextNew key kept l = some a
  | [], h => absurd h.length_le (by simp)
  | x :: l, h => by
      rw [List.foldl_cons] at h
      by_cases hx : key x ∈ kept.map key
      · rw [keepNew_of_mem hx] at h
        rw [nextNew, List.find?_cons_of_neg (by simpa using hx)]
        exact nextNew_of_front h
      · rw [keepNew_of_notMem hx] at h
        have hsame : kept ++ [a] = kept ++ [x] :=
          (List.prefix_of_prefix_length_le h (prefix_foldl_keepNew l _) (by simp)).eq_of_length
            (by simp)
        obtain rfl : a = x := List.singleton_inj.mp (List.append_cancel_left hsame)
        rw [nextNew, List.find?_cons_of_pos (by simpa using hx)]

theorem foldl_keepNew_cons_iff {kept : List α} {a : α} {l : List α} :
    (a :: l).foldl (keepNew key) kept = l.foldl (keepNew key) kept ↔
      Redundant key a kept l := by
  rw [List.foldl_cons]
  by_cases ha : key a ∈ kept.map key
  · rw [keepNew_of_mem ha]
    exact iff_of_true rfl (Or.inl ha)
  · rw [keepNew_of_notMem ha]
    constructor
    · intro h
      exact Or.inr (nextNew_of_front (h ▸ prefix_foldl_keepNew l (kept ++ [a])))
    · rintro (h | h)
      · exact absurd h ha
      · exact (foldl_keepNew_of_nextNew ha h).symm

theorem redundant_congr {a : α} {earlier earlier' later : List α}
    (h : ∀ k, k ∈ earlier.map key ↔ k ∈ earlier'.map key) :
    Redundant key a earlier later ↔ Redundant key a earlier' later := by
  rw [Redundant, Redundant, h, nextNew, nextNew]
  simp only [h]

/-- Behind elements that bring no new key it is the same as behind those before them. -/
theorem Redundant.append {a : α} {earlier l later : List α}
    (h : Redundant key a earlier (l ++ later)) : Redundant key a (earlier ++ l) later := by
  rcases h with h | h
  · refine Or.inl ?_
    rw [List.map_append]
    exact List.mem_append_left _ h
  · rw [nextNew, List.find?_append] at h
    cases hl : l.find? fun x => decide (key x ∉ earlier.map key) with
    | some x =>
        rw [hl, Option.some_or] at h
        obtain rfl : x = a := Option.some.inj h
        refine Or.inl ?_
        rw [List.map_append]
        exact List.mem_append_right _ (List.mem_map_of_mem (List.mem_of_find?_eq_some hl))
    | none =>
        rw [hl, Option.none_or] at h
        have hold : ∀ x ∈ l, key x ∈ earlier.map key := by
          simpa using List.find?_eq_none.mp hl
        refine (redundant_congr fun k => ?_).mp (Or.inr h)
        rw [List.map_append, List.mem_append, or_iff_left_of_imp]
        rintro hk
        obtain ⟨x, hx, rfl⟩ := List.mem_map.mp hk
        exact hold x hx

theorem forall_splits_cons {P : List β → β → List β → Prop} {q : β} {l : List β} :
    (∀ A p B, q :: l = A ++ p :: B → P A p B) ↔
      P [] q l ∧ ∀ A p B, l = A ++ p :: B → P (q :: A) p B := by
  constructor
  · intro h
    exact ⟨h [] q l rfl, fun A p B hl => h (q :: A) p B (by rw [hl, List.cons_append])⟩
  · rintro ⟨hhead, htail⟩ A p B hl
    cases A with
    | nil =>
        cases hl
        exact hhead
    | cons q' A =>
        cases hl
        exact htail A p B rfl

/-- **Elements that used to bring nothing and now all bring `a` make no difference
exactly if `a` is redundant at each of them.** -/
theorem foldl_keepNew_filterMap_iff {f g : β → Option α} {captured : β → Prop} {a : α}
    (hcap : ∀ p, captured p → f p = none ∧ g p = some a)
    (hother : ∀ p, ¬captured p → g p = f p) : ∀ {l : List β} (kept : List α),
    (l.filterMap g).foldl (keepNew key) kept = (l.filterMap f).foldl (keepNew key) kept ↔
      ∀ A p B, l = A ++ p :: B → captured p →
        Redundant key a (kept ++ A.filterMap f) (B.filterMap f)
  | [], kept => iff_of_true rfl fun A p B h => by simp at h
  | q :: l, kept => by
      rw [forall_splits_cons]
      by_cases hq : captured q
      · obtain ⟨hf, hg⟩ := hcap q hq
        have hfold : (l.filterMap g).foldl (keepNew key) (keepNew key kept a) =
            (l.filterMap f).foldl (keepNew key) (keepNew key kept a) := by
          refine (foldl_keepNew_filterMap_iff hcap hother (keepNew key kept a)).mpr
            fun A p B _ _ => Or.inl ?_
          rw [List.map_append, List.mem_append, mem_keys_keepNew]
          exact Or.inl (Or.inr rfl)
        rw [List.filterMap_cons_some hg, List.filterMap_cons_none hf, List.foldl_cons, hfold,
          ← List.foldl_cons, foldl_keepNew_cons_iff, List.filterMap_nil, List.append_nil]
        constructor
        · intro h
          refine ⟨fun _ => h, fun A p B hl hp => ?_⟩
          rw [hl, List.filterMap_append, List.filterMap_cons_none (hcap p hp).1] at h
          rw [List.filterMap_cons_none hf]
          exact h.append
        · exact fun h => h.1 hq
      · have hsame := hother q hq
        rw [and_iff_right fun h => absurd h hq]
        cases hf : f q with
        | none =>
            rw [List.filterMap_cons_none (hsame.trans hf), List.filterMap_cons_none hf,
              foldl_keepNew_filterMap_iff hcap hother kept]
            refine forall₅_congr fun A p B _ _ => ?_
            rw [List.filterMap_cons_none hf]
        | some x =>
            rw [List.filterMap_cons_some (hsame.trans hf), List.filterMap_cons_some hf,
              List.foldl_cons, List.foldl_cons,
              foldl_keepNew_filterMap_iff hcap hother (keepNew key kept x)]
            refine forall₅_congr fun A p B _ _ => redundant_congr fun k => ?_
            rw [List.filterMap_cons_some hf, List.map_append, List.map_append, List.mem_append,
              List.mem_append, mem_keys_keepNew, List.map_cons, List.mem_cons, or_assoc]

end KeepNew

end SpecForge.Lib
