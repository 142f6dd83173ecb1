import Mathlib.Data.List.Induction
import SpecForge.Lib.IndexMap

/-!
# Maps sorted by key

A map that lists its entries by increasing key, each key once, on its raw
entries: removal (§1), insertion and collection (§2), each by what `lookup`
finds, maps related entry by entry (§3), a function on all values (§4), the
order of the keys (§5), and sets and groups made from a list (§6). The laws of
lookups do not need the entries to be sorted.
-/

namespace SpecForge.Lib.BTreeMap

universe u v w

variable {K : Type u} {V : Type v} [DecidableEq K]

/-! ## §1  Removal -/

/-- `BTreeMap::remove`, without the value removed. -/
def removeKey (k : K) (l : List (K × V)) : List (K × V) := l.filter fun e => e.1 ≠ k

theorem lookup_removeKey (k k' : K) : ∀ l : List (K × V),
    (removeKey k l).lookup k' = if k' = k then none else l.lookup k'
  | [] => by simp [removeKey]
  | e :: rest => by
      have ih := lookup_removeKey k k' rest
      unfold removeKey at ih ⊢
      by_cases he : e.1 = k
      · rw [List.filter_cons_of_neg (by simpa using he), ih]
        by_cases h : k' = k
        · rw [if_pos h, if_pos h]
        · rw [if_neg h, if_neg h, lookup_cons_ne (he ▸ h)]
      · rw [List.filter_cons_of_pos (by simpa using he)]
        by_cases h : k' = e.1
        · rw [lookup_cons_self h, lookup_cons_self h, if_neg (h ▸ he)]
        · rw [lookup_cons_ne h, lookup_cons_ne h, ih]

@[simp] theorem lookup_removeKey_self (k : K) (l : List (K × V)) :
    (removeKey k l).lookup k = none := by
  rw [lookup_removeKey, if_pos rfl]

theorem lookup_removeKey_ne {k k' : K} (h : k' ≠ k) (l : List (K × V)) :
    (removeKey k l).lookup k' = l.lookup k' := by
  rw [lookup_removeKey, if_neg h]

/-! ## §2  Insertion -/

variable [LT K] [DecidableLT K]

/-- `BTreeMap::insert`: a present key gets the new value, a fresh key goes to
its place. -/
def insertKey (k : K) (v : V) : List (K × V) → List (K × V)
  | [] => [(k, v)]
  | e :: rest =>
      if e.1 = k then (k, v) :: rest
      else if k < e.1 then (k, v) :: e :: rest
      else e :: insertKey k v rest

/-- `collect` from an iterator of pairs. -/
def collect (l : List (K × V)) : List (K × V) :=
  l.foldl (fun m e => insertKey e.1 e.2 m) []

theorem lookup_insertKey (k k' : K) (v : V) : ∀ l : List (K × V),
    (insertKey k v l).lookup k' = if k' = k then some v else l.lookup k'
  | [] => by
      rw [insertKey]
      by_cases h : k' = k
      · rw [if_pos h, lookup_cons_self h]
      · rw [if_neg h, lookup_cons_ne h]
  | e :: rest => by
      have ih := lookup_insertKey k k' v rest
      rw [insertKey]
      by_cases h : k' = k
      · subst h
        rw [if_pos rfl] at ih ⊢
        split
        · exact lookup_cons_self rfl
        · next he =>
            split
            · exact lookup_cons_self rfl
            · rw [lookup_cons_ne fun heq => he heq.symm, ih]
      · rw [if_neg h] at ih ⊢
        split
        · next he => rw [lookup_cons_ne h, lookup_cons_ne (he ▸ h)]
        · split
          · rw [lookup_cons_ne h]
          · by_cases he : k' = e.1
            · rw [lookup_cons_self he, lookup_cons_self he]
            · rw [lookup_cons_ne he, lookup_cons_ne he, ih]

@[simp] theorem lookup_insertKey_self (k : K) (v : V) (l : List (K × V)) :
    (insertKey k v l).lookup k = some v := by
  rw [lookup_insertKey, if_pos rfl]

theorem lookup_insertKey_ne {k k' : K} (h : k' ≠ k) (v : V) (l : List (K × V)) :
    (insertKey k v l).lookup k' = l.lookup k' := by
  rw [lookup_insertKey, if_neg h]

theorem lookup_foldl_insertKey (l : List (K × V)) (k : K) : ∀ m : List (K × V),
    (l.foldl (fun m e => insertKey e.1 e.2 m) m).lookup k =
      (l.reverse.lookup k).or (m.lookup k) := by
  induction l with
  | nil => intro m; simp
  | cons e rest ih =>
      intro m
      rw [List.foldl_cons, ih, lookup_insertKey, List.reverse_cons, List.lookup_append,
        Option.or_assoc]
      by_cases h : k = e.1
      · rw [if_pos h, lookup_cons_self h, Option.some_or]
      · rw [if_neg h, lookup_cons_ne h, List.lookup_nil, Option.none_or]

/-- Collecting keeps the last value of each key. -/
theorem lookup_collect (l : List (K × V)) (k : K) :
    (collect l).lookup k = l.reverse.lookup k := by
  rw [collect, lookup_foldl_insertKey, List.lookup_nil, Option.or_none]

theorem mem_insertKey {k : K} {v : V} {x : K × V} : ∀ {l : List (K × V)},
    x ∈ insertKey k v l → x = (k, v) ∨ x ∈ l
  | [], h => Or.inl (List.mem_singleton.mp h)
  | e :: rest, h => by
      rw [insertKey] at h
      split at h
      · rcases List.mem_cons.mp h with rfl | h
        · exact Or.inl rfl
        · exact Or.inr (List.mem_cons_of_mem e h)
      · split at h
        · exact List.mem_cons.mp h
        · rcases List.mem_cons.mp h with rfl | h
          · exact Or.inr List.mem_cons_self
          · exact (mem_insertKey h).imp_right (List.mem_cons_of_mem e)

/-- Every entry collected comes from the list. -/
theorem mem_of_mem_collect {x : K × V} {l : List (K × V)} (h : x ∈ collect l) : x ∈ l := by
  induction l using List.reverseRecOn with
  | nil => exact h
  | append_singleton l e ih =>
      rw [collect, List.foldl_append] at h
      rcases mem_insertKey h with rfl | h
      · exact List.mem_append_right l (List.mem_singleton.mpr rfl)
      · exact List.mem_append_left [e] (ih h)

/-! ## §3  Related maps -/

variable {W : Type v} {R : K × V → K × W → Prop}

omit [LT K] [DecidableLT K] in
/-- What is found in one map has its counterpart in the other. -/
theorem lookup_of_forall₂ {P : V → W → Prop} {k : K} {l : List (K × V)} {l' : List (K × W)}
    (h : List.Forall₂ (fun e f => e.1 = f.1 ∧ P e.2 f.2) l l') :
    (∀ v, l.lookup k = some v → ∃ w, l'.lookup k = some w ∧ P v w) ∧
      ∀ w, l'.lookup k = some w → ∃ v, l.lookup k = some v ∧ P v w := by
  induction h with
  | nil => exact ⟨nofun, nofun⟩
  | @cons e f l l' hef _ ih =>
      obtain ⟨hkey, hP⟩ := hef
      by_cases hk : k = e.1
      · rw [lookup_cons_self hk, lookup_cons_self (hk.trans hkey)]
        constructor
        · intro v hv
          exact ⟨f.2, rfl, Option.some.inj hv ▸ hP⟩
        · intro w hw
          exact ⟨e.2, rfl, Option.some.inj hw ▸ hP⟩
      · rw [lookup_cons_ne hk, lookup_cons_ne fun hf => hk (hf.trans hkey.symm)]
        exact ih

theorem forall₂_insertKey (hkey : ∀ x y, R x y → x.1 = y.1) {x : K × V} {y : K × W}
    (hxy : R x y) {l : List (K × V)} {l' : List (K × W)} (h : List.Forall₂ R l l') :
    List.Forall₂ R (insertKey x.1 x.2 l) (insertKey y.1 y.2 l') := by
  obtain ⟨k, v⟩ := x
  obtain ⟨k', w⟩ := y
  obtain rfl : k = k' := hkey _ _ hxy
  induction h with
  | nil => exact .cons hxy .nil
  | @cons x y l l' hxy' hrest ih =>
      obtain ⟨k', v'⟩ := x
      obtain ⟨k'', w'⟩ := y
      obtain rfl : k' = k'' := hkey _ _ hxy'
      rw [insertKey, insertKey]
      split
      · exact .cons hxy hrest
      · split
        · exact .cons hxy (.cons hxy' hrest)
        · exact .cons hxy' ih

/-- Collecting related pairs gives related maps. -/
theorem forall₂_collect (hkey : ∀ x y, R x y → x.1 = y.1) {l : List (K × V)}
    {l' : List (K × W)} (h : List.Forall₂ R l l') :
    List.Forall₂ R (collect l) (collect l') := by
  have hfold : ∀ {l : List (K × V)} {l' : List (K × W)}, List.Forall₂ R l l' →
      ∀ {m : List (K × V)} {m' : List (K × W)}, List.Forall₂ R m m' →
      List.Forall₂ R (l.foldl (fun m e => insertKey e.1 e.2 m) m)
        (l'.foldl (fun m e => insertKey e.1 e.2 m) m') := by
    intro l l' h
    induction h with
    | nil => intro m m' hm; exact hm
    | cons hxy _ ih => intro m m' hm; exact ih (forall₂_insertKey hkey hxy hm)
  exact hfold h .nil

/-! ## §4  A function on all values -/

def mapEntries (f : K → V → W) (l : List (K × V)) : List (K × W) :=
  l.map fun e => (e.1, f e.1 e.2)

section

variable {f : K → V → W}

omit [LT K] [DecidableLT K]

@[simp] theorem lookup_mapEntries (k : K) : ∀ l : List (K × V),
    (mapEntries f l).lookup k = (l.lookup k).map (f k)
  | [] => rfl
  | e :: l => by
      have ih := lookup_mapEntries k l
      show ((e.1, f e.1 e.2) :: mapEntries f l).lookup k = _
      by_cases hk : k = e.1
      · rw [lookup_cons_self (e := (e.1, f e.1 e.2)) hk, lookup_cons_self hk, Option.map_some, hk]
      · rw [lookup_cons_ne (e := (e.1, f e.1 e.2)) hk, lookup_cons_ne hk, ih]

theorem mapEntries_removeKey (k : K) (l : List (K × V)) :
    mapEntries f (removeKey k l) = removeKey k (mapEntries f l) := by
  rw [mapEntries, mapEntries, removeKey, removeKey, List.filter_map]
  rfl

omit [DecidableEq K] in
theorem mapEntries_congr {g : K → V → W} {l : List (K × V)}
    (h : ∀ e ∈ l, f e.1 e.2 = g e.1 e.2) : mapEntries f l = mapEntries g l :=
  List.map_congr_left fun e he => by rw [h e he]

omit [DecidableEq K] in
theorem mapEntries_eq_self_iff {f : K → V → V} {l : List (K × V)} :
    mapEntries f l = l ↔ ∀ e ∈ l, f e.1 e.2 = e.2 := by
  have hid : l = l.map id := (List.map_id l).symm
  conv_lhs => rhs; rw [hid]
  rw [mapEntries, List.map_inj_left]
  exact forall₂_congr fun e _ => by rw [Prod.ext_iff]; simp

end

theorem mapEntries_insertKey {f : K → V → W} (k : K) (v : V) : ∀ l : List (K × V),
    mapEntries f (insertKey k v l) = insertKey k (f k v) (mapEntries f l)
  | [] => rfl
  | e :: l => by
      have ih := mapEntries_insertKey (f := f) k v l
      rw [mapEntries, mapEntries] at ih ⊢
      rw [insertKey, List.map_cons, insertKey]
      split
      · rfl
      · split
        · rfl
        · rw [List.map_cons, ih]

/-! ## §5  Increasing keys -/

section Order

variable [LE K] [Std.IsLinearOrder K] [Std.LawfulOrderLT K]

/-- The entries are in the order of their keys, each key once. -/
def Sorted (l : List (K × V)) : Prop := (l.map Prod.fst).Pairwise (· < ·)

instance (l : List (K × V)) : Decidable (Sorted l) :=
  inferInstanceAs (Decidable ((l.map Prod.fst).Pairwise (· < ·)))

omit [DecidableEq K] [DecidableLT K] [Std.IsLinearOrder K] in
theorem Sorted.nodup {l : List (K × V)} (h : Sorted l) : (l.map Prod.fst).Nodup :=
  List.Pairwise.imp (fun {a b} (hlt : a < b) (heq : a = b) => Std.lt_irrefl (heq ▸ hlt)) h

omit [LE K] [Std.IsLinearOrder K] [Std.LawfulOrderLT K] in
theorem mem_keys_insertKey {k j : K} {v : V} : ∀ {l : List (K × V)},
    j ∈ (insertKey k v l).map Prod.fst ↔ j = k ∨ j ∈ l.map Prod.fst
  | [] => by simp [insertKey]
  | e :: rest => by
      have ih := mem_keys_insertKey (k := k) (j := j) (v := v) (l := rest)
      rw [insertKey]
      split
      · next he =>
          subst he
          simp
      · split
        · simp
        · rw [List.map_cons, List.mem_cons, ih, List.map_cons, List.mem_cons]
          exact or_left_comm

theorem sorted_insertKey {k : K} {v : V} : ∀ {l : List (K × V)}, Sorted l →
    Sorted (insertKey k v l)
  | [], _ => List.pairwise_singleton _ _
  | e :: rest, h => by
      obtain ⟨hhead, hrest⟩ := List.pairwise_cons.mp h
      rw [insertKey]
      split
      · next he =>
          subst he
          exact h
      · next he =>
          split
          · next hlt =>
              refine List.pairwise_cons.mpr ⟨?_, h⟩
              intro x hx
              rcases List.mem_cons.mp hx with rfl | hx
              · exact hlt
              · exact Std.lt_trans hlt (hhead x hx)
          · next hnlt =>
              refine List.pairwise_cons.mpr ⟨?_, sorted_insertKey hrest⟩
              intro x hx
              rcases mem_keys_insertKey.mp hx with rfl | hx
              · exact Std.lt_of_le_of_ne (Std.not_lt.mp hnlt) he
              · exact hhead x hx

omit [DecidableEq K] [LE K] [Std.IsLinearOrder K] [Std.LawfulOrderLT K] [DecidableLT K] in
theorem sorted_nil : Sorted ([] : List (K × V)) := List.Pairwise.nil

omit [DecidableLT K] [LE K] [Std.IsLinearOrder K] [Std.LawfulOrderLT K] in
theorem sorted_removeKey (k : K) {l : List (K × V)} (h : Sorted l) : Sorted (removeKey k l) :=
  h.sublist (List.filter_sublist.map Prod.fst)

omit [DecidableEq K] [DecidableLT K] [LE K] [Std.IsLinearOrder K] [Std.LawfulOrderLT K] in
theorem sorted_mapEntries {f : K → V → W} {l : List (K × V)} (h : Sorted l) :
    Sorted (mapEntries f l) := by
  rw [Sorted, mapEntries, List.map_map]
  exact h

omit [DecidableLT K] in
/-- Sorted entries are known by what is found in them. -/
theorem Sorted.eq_of_lookup {l l' : List (K × V)} (h : Sorted l) (h' : Sorted l')
    (hlookup : ∀ k, l.lookup k = l'.lookup k) : l = l' := by
  have hmem : ∀ e, e ∈ l ↔ e ∈ l' := by
    rintro ⟨k, v⟩
    constructor
    · intro he
      refine mem_of_lookup_eq_some ?_
      rw [← hlookup, lookup_eq_some_of_mem h.nodup he]
    · intro he
      refine mem_of_lookup_eq_some ?_
      rw [hlookup, lookup_eq_some_of_mem h'.nodup he]
  have hperm : l.Perm l' :=
    (List.perm_ext_iff_of_nodup h.nodup.of_map h'.nodup.of_map).mpr hmem
  refine List.Perm.eq_of_pairwise ?_ (List.pairwise_map.mp h) (List.pairwise_map.mp h') hperm
  intro a b _ _ hab hba
  exact absurd (Std.lt_trans hab hba) (Std.lt_irrefl)

/-- Whatever is inserted step by step, the entries stay sorted. -/
theorem sorted_foldl {α : Type w} {step : List (K × V) → α → List (K × V)}
    (hstep : ∀ m a, ∃ k v, step m a = insertKey k v m) : ∀ (l : List α) {m : List (K × V)},
      Sorted m → Sorted (l.foldl step m)
  | [], _, hm => hm
  | a :: l, m, hm => by
      obtain ⟨k, v, hkv⟩ := hstep m a
      rw [List.foldl_cons, hkv]
      exact sorted_foldl hstep l (sorted_insertKey hm)

theorem sorted_collect (l : List (K × V)) : Sorted (collect l) := by
  have hstep : ∀ (m : List (K × V)) (e : K × V),
      ∃ k v, insertKey e.1 e.2 m = insertKey k v m := fun _ e => ⟨e.1, e.2, rfl⟩
  exact sorted_foldl hstep l sorted_nil

end Order

/-! ## §6  Sets and groups -/

/-- A `BTreeSet` collected from a list, in order. -/
def sortedSet (l : List K) : List K := (collect (l.map fun k => (k, ()))).map Prod.fst

theorem mem_sortedSet {l : List K} {k : K} : k ∈ sortedSet l ↔ k ∈ l := by
  have hlook := lookup_collect (l.map fun k => (k, ())) k
  rw [sortedSet, ← not_iff_not, ← lookup_eq_none_iff, hlook, lookup_eq_none_iff,
    List.map_reverse, List.mem_reverse, List.map_map]
  have hid : (Prod.fst ∘ fun k : K => (k, ())) = id := rfl
  rw [hid, List.map_id]

theorem nodup_sortedSet [LE K] [Std.IsLinearOrder K] [Std.LawfulOrderLT K] (l : List K) :
    (sortedSet l).Nodup :=
  (sorted_collect _).nodup

/-- `entry(key).or_default().push(a)` for each element in turn. -/
def groupBy {α : Type w} (key : α → K) (l : List α) : List (K × List α) :=
  l.foldl (fun m a => insertKey (key a) ((m.lookup (key a)).getD [] ++ [a]) m) []

theorem lookup_groupBy {α : Type w} (key : α → K) (l : List α) (k : K) :
    (groupBy key l).lookup k =
      if ∃ a ∈ l, key a = k then some (l.filter fun a => key a = k) else none := by
  induction l using List.reverseRecOn with
  | nil => simp [groupBy]
  | append_singleton l a ih =>
      have hstep : groupBy key (l ++ [a]) = insertKey (key a)
          (((groupBy key l).lookup (key a)).getD [] ++ [a]) (groupBy key l) := by
        rw [groupBy, List.foldl_append]
        rfl
      rw [hstep, lookup_insertKey]
      by_cases h : k = key a
      · subst h
        have hsome : ∃ b ∈ l ++ [a], key b = key a := ⟨a, by simp, rfl⟩
        rw [if_pos rfl, if_pos hsome, List.filter_append, ih]
        split
        · simp
        · next hnone =>
            have hempty : l.filter (fun b => key b = key a) = [] := by
              rw [List.filter_eq_nil_iff]
              intro b hb heq
              exact hnone ⟨b, hb, of_decide_eq_true heq⟩
            rw [hempty]
            simp
      · have hskip : ([a].filter fun b => key b = k) = [] := by simp [Ne.symm h]
        have hiff : (∃ b ∈ l ++ [a], key b = k) ↔ ∃ b ∈ l, key b = k := by
          simp [or_and_right, exists_or, Ne.symm h]
        rw [if_neg h, ih, List.filter_append, hskip, List.append_nil]
        simp only [hiff]

theorem sorted_groupBy {α : Type w} [LE K] [Std.IsLinearOrder K] [Std.LawfulOrderLT K]
    (key : α → K) (l : List α) : Sorted (groupBy key l) :=
  sorted_foldl (fun m a => ⟨key a, (m.lookup (key a)).getD [] ++ [a], rfl⟩) l sorted_nil

/-- The groups are the keys that occur, each with its elements in order. -/
theorem mem_groupBy {α : Type w} [LE K] [Std.IsLinearOrder K] [Std.LawfulOrderLT K]
    {key : α → K} {l : List α} {k : K} {as : List α} :
    (k, as) ∈ groupBy key l ↔ (∃ a ∈ l, key a = k) ∧ as = l.filter fun a => key a = k := by
  have hlook : (groupBy key l).lookup k = some as ↔ (k, as) ∈ groupBy key l :=
    ⟨mem_of_lookup_eq_some, lookup_eq_some_of_mem (sorted_groupBy key l).nodup⟩
  rw [← hlook, lookup_groupBy]
  split
  · next h => exact ⟨fun heq => ⟨h, (Option.some.inj heq).symm⟩, fun heq => by rw [heq.2]⟩
  · next h => simp [h]

end SpecForge.Lib.BTreeMap
