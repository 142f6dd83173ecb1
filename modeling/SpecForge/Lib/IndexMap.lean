import Mathlib.Data.List.Perm.Basic
import SpecForge.Lib.Lists

/-!
# Insertion-ordered maps and unordered visits

Two general containers of a host language, with the laws a verification
needs of them:

- §1 `IndexMap`: a map that keeps its entries in insertion order. Key
  uniqueness is a field, so a map with a repeated key cannot be built.
- §2 `HashOrder`: the iteration order of a hashed container. A hash map has
  the content of an `IndexMap`, but visits it in an order nobody controls;
  a result about it is stated for every `HashOrder`.
-/

namespace SpecForge.Lib

universe u v

/-! ## §1  Insertion-ordered maps -/

section Entries

variable {K : Type u} {V : Type v} [DecidableEq K]

/-- Insert on the raw entries: a present key keeps its place and gets the new
value, a fresh key goes last. -/
def insertEntry (k : K) (v : V) : List (K × V) → List (K × V)
  | [] => [(k, v)]
  | e :: rest => if e.1 = k then (k, v) :: rest else e :: insertEntry k v rest

theorem insertEntry_cons_self {k : K} {v : V} {e : K × V} {l : List (K × V)}
    (h : e.1 = k) : insertEntry k v (e :: l) = (k, v) :: l := by
  rw [insertEntry, if_pos h]

theorem insertEntry_cons_ne {k : K} {v : V} {e : K × V} {l : List (K × V)}
    (h : ¬ e.1 = k) : insertEntry k v (e :: l) = e :: insertEntry k v l := by
  rw [insertEntry, if_neg h]

theorem insertEntry_of_notMem {k : K} {v : V} : ∀ {l : List (K × V)},
    k ∉ l.map Prod.fst → insertEntry k v l = l ++ [(k, v)]
  | [], _ => rfl
  | e :: l, h => by
      rw [List.map_cons, List.mem_cons, not_or] at h
      rw [insertEntry_cons_ne (Ne.symm h.1), insertEntry_of_notMem h.2, List.cons_append]

theorem lookup_cons_self {k : K} {e : K × V} {l : List (K × V)} (h : k = e.1) :
    (e :: l).lookup k = some e.2 := by
  rw [List.lookup_cons, h, beq_self_eq_true]

theorem lookup_cons_ne {k : K} {e : K × V} {l : List (K × V)} (h : ¬ k = e.1) :
    (e :: l).lookup k = l.lookup k := by
  rw [List.lookup_cons, beq_eq_false_iff_ne.mpr h]

theorem mem_keys_insertEntry {k k' : K} {v : V} : ∀ {l : List (K × V)},
    k' ∈ (insertEntry k v l).map Prod.fst ↔ k' = k ∨ k' ∈ l.map Prod.fst
  | [] => by simp [insertEntry]
  | e :: rest => by
      by_cases h : e.1 = k
      · rw [insertEntry_cons_self h]
        simp only [List.map_cons, List.mem_cons, h]
        tauto
      · rw [insertEntry_cons_ne h]
        simp only [List.map_cons, List.mem_cons]
        rw [mem_keys_insertEntry (l := rest)]
        tauto

theorem nodup_keys_insertEntry {k : K} {v : V} : ∀ {l : List (K × V)},
    (l.map Prod.fst).Nodup → ((insertEntry k v l).map Prod.fst).Nodup
  | [], _ => by simp [insertEntry]
  | e :: rest, hnd => by
      rw [List.map_cons, List.nodup_cons] at hnd
      by_cases h : e.1 = k
      · rw [insertEntry_cons_self h, List.map_cons, List.nodup_cons, ← h]
        exact hnd
      · rw [insertEntry_cons_ne h, List.map_cons, List.nodup_cons,
          mem_keys_insertEntry]
        refine ⟨?_, nodup_keys_insertEntry hnd.2⟩
        rintro (h' | h')
        · exact h h'
        · exact hnd.1 h'

theorem lookup_insertEntry {k k' : K} {v : V} : ∀ {l : List (K × V)},
    (insertEntry k v l).lookup k' = if k' = k then some v else l.lookup k'
  | [] => by
      rw [insertEntry]
      by_cases h : k' = k
      · rw [if_pos h, lookup_cons_self h]
      · rw [if_neg h, lookup_cons_ne h]
  | e :: rest => by
      by_cases he : e.1 = k
      · rw [insertEntry_cons_self he]
        by_cases h : k' = k
        · rw [if_pos h, lookup_cons_self h]
        · rw [if_neg h, lookup_cons_ne h, lookup_cons_ne (he ▸ h)]
      · rw [insertEntry_cons_ne he]
        by_cases h : k' = e.1
        · rw [lookup_cons_self h, lookup_cons_self h, if_neg (h ▸ he)]
        · rw [lookup_cons_ne h, lookup_cons_ne h, lookup_insertEntry]

/-- What the entries yield in order tells whether a replaced value matters. -/
theorem flatMap_insertEntry_eq_iff {β : Type*} {f : K × V → List β} {k : K} {v w : V} :
    ∀ {l : List (K × V)}, l.lookup k = some w →
      ((insertEntry k v l).flatMap f = l.flatMap f ↔ f (k, v) = f (k, w))
  | [], h => by simp at h
  | e :: rest, h => by
      by_cases hk : e.1 = k
      · rw [lookup_cons_self hk.symm, Option.some.injEq] at h
        have he : e = (k, w) := Prod.ext hk h
        rw [insertEntry_cons_self hk, List.flatMap_cons, List.flatMap_cons,
          List.append_cancel_right_eq, he]
      · rw [lookup_cons_ne (Ne.symm hk)] at h
        rw [insertEntry_cons_ne hk, List.flatMap_cons, List.flatMap_cons,
          List.append_cancel_left_eq, flatMap_insertEntry_eq_iff h]

theorem mem_of_lookup_eq_some {k : K} {v : V} : ∀ {l : List (K × V)},
    l.lookup k = some v → (k, v) ∈ l
  | [], h => by simp at h
  | e :: rest, h => by
      by_cases he : k = e.1
      · rw [lookup_cons_self he, Option.some.injEq] at h
        rw [he, ← h]
        exact List.mem_cons_self
      · rw [lookup_cons_ne he] at h
        exact List.mem_cons_of_mem _ (mem_of_lookup_eq_some h)

theorem lookup_eq_some_of_mem {k : K} {v : V} : ∀ {l : List (K × V)},
    (l.map Prod.fst).Nodup → (k, v) ∈ l → l.lookup k = some v
  | e :: rest, hnd, h => by
      rw [List.map_cons, List.nodup_cons] at hnd
      rcases List.mem_cons.mp h with rfl | h'
      · exact lookup_cons_self rfl
      · have hne : ¬ k = e.1 := fun heq =>
          hnd.1 (heq ▸ List.mem_map.mpr ⟨(k, v), h', rfl⟩)
        rw [lookup_cons_ne hne]
        exact lookup_eq_some_of_mem hnd.2 h'

theorem lookup_eq_none_iff {k : K} : ∀ {l : List (K × V)},
    l.lookup k = none ↔ k ∉ l.map Prod.fst
  | [] => by simp
  | e :: rest => by
      rw [List.map_cons, List.mem_cons, not_or]
      by_cases he : k = e.1
      · rw [lookup_cons_self he]
        exact ⟨fun h => absurd h (by simp), fun h => absurd he h.1⟩
      · rw [lookup_cons_ne he, lookup_eq_none_iff]
        exact ⟨fun h => ⟨he, h⟩, fun h => h.2⟩

/-- Where the entries of a key agree, `lookup` finds what they agree on. -/
theorem lookup_eq_some_iff_of_unique {k : K} {l : List (K × V)}
    (huniq : ∀ x y, (k, x) ∈ l → (k, y) ∈ l → x = y) {v : V} :
    l.lookup k = some v ↔ (k, v) ∈ l := by
  constructor
  · exact mem_of_lookup_eq_some
  · intro hv
    rcases hlook : l.lookup k with _ | w
    · exact absurd (List.mem_map_of_mem hv) (lookup_eq_none_iff.mp hlook)
    · rw [huniq v w hv (mem_of_lookup_eq_some hlook)]

/-- The last entry of a key stands in the last block that has the key. -/
theorem lookup_reverse_flatMap {α : Type*} {f : α → List (K × V)} {k : K} {v : V} :
    ∀ {l : List α}, (l.flatMap f).reverse.lookup k = some v →
      ∃ before a after, l = before ++ a :: after ∧ (k, v) ∈ f a ∧
        ∀ b ∈ after, k ∉ (f b).map Prod.fst
  | [], h => by simp at h
  | a :: l, h => by
      rw [List.flatMap_cons, List.reverse_append, List.lookup_append] at h
      rcases hrest : (l.flatMap f).reverse.lookup k with _ | w
      · -- no later block has the key, so the entry is one of `f a`
        rw [hrest, Option.none_or] at h
        refine ⟨[], a, l, rfl, List.mem_reverse.mp (mem_of_lookup_eq_some h), fun b hb hk => ?_⟩
        apply lookup_eq_none_iff.mp hrest
        rw [List.map_reverse, List.mem_reverse, List.map_flatMap]
        exact List.mem_flatMap.mpr ⟨b, hb, hk⟩
      · rw [hrest, Option.some_or] at h
        obtain ⟨before, b, after, rfl, hmem, hafter⟩ := lookup_reverse_flatMap (hrest.trans h)
        exact ⟨a :: before, b, after, rfl, hmem, hafter⟩

/-- With unique keys a lookup does not see the order of the entries. -/
theorem lookup_perm {l l' : List (K × V)} (hp : l.Perm l')
    (hnd : (l.map Prod.fst).Nodup) (k : K) : l.lookup k = l'.lookup k := by
  have hnd' : (l'.map Prod.fst).Nodup := (hp.map Prod.fst).nodup_iff.mp hnd
  cases h : l.lookup k with
  | some v =>
      exact (lookup_eq_some_of_mem hnd'
        (hp.mem_iff.mp (mem_of_lookup_eq_some h))).symm
  | none =>
      rw [lookup_eq_none_iff] at h
      refine (lookup_eq_none_iff.mpr ?_).symm
      rwa [← (hp.map Prod.fst).mem_iff]

end Entries

/-- A map in insertion order. -/
structure IndexMap (K : Type u) (V : Type v) where
  entries : List (K × V)
  nodup : (entries.map Prod.fst).Nodup

namespace IndexMap

variable {K : Type u} {V : Type v}

@[ext] theorem ext {m m' : IndexMap K V} (h : m.entries = m'.entries) : m = m' := by
  cases m
  cases m'
  cases h
  rfl

def empty : IndexMap K V := ⟨[], List.nodup_nil⟩

def keys (m : IndexMap K V) : List K := m.entries.map Prod.fst

def values (m : IndexMap K V) : List V := m.entries.map Prod.snd

theorem nodup_keys (m : IndexMap K V) : m.keys.Nodup := m.nodup

variable [DecidableEq K]

def get (m : IndexMap K V) (k : K) : Option V := m.entries.lookup k

def containsKey (m : IndexMap K V) (k : K) : Bool := decide (k ∈ m.keys)

def insert (m : IndexMap K V) (k : K) (v : V) : IndexMap K V :=
  ⟨insertEntry k v m.entries, nodup_keys_insertEntry m.nodup⟩

/-- `collect` from an iterator of pairs: a later pair replaces the value of an
earlier one with the same key. -/
def ofList (l : List (K × V)) : IndexMap K V :=
  l.foldl (fun m e => m.insert e.1 e.2) empty

/-- The entries of the second map inserted in turn. -/
def extend (m m' : IndexMap K V) : IndexMap K V :=
  m'.entries.foldl (fun m e => m.insert e.1 e.2) m

/-- The order of the entries that are left is kept. -/
def erase (m : IndexMap K V) (k : K) : IndexMap K V :=
  ⟨m.entries.filter fun e => decide (e.1 ≠ k),
    m.nodup.sublist (List.filter_sublist.map Prod.fst)⟩

/-- The entries that are kept, in their order. -/
def retain (m : IndexMap K V) (p : K → V → Bool) : IndexMap K V :=
  ⟨m.entries.filter fun e => p e.1 e.2, m.nodup.sublist (List.filter_sublist.map Prod.fst)⟩

@[simp] theorem get_empty (k : K) : (empty : IndexMap K V).get k = none := rfl

theorem get_insert (m : IndexMap K V) (k k' : K) (v : V) :
    (m.insert k v).get k' = if k' = k then some v else m.get k' :=
  lookup_insertEntry

@[simp] theorem get_insert_self (m : IndexMap K V) (k : K) (v : V) :
    (m.insert k v).get k = some v := by
  rw [get_insert, if_pos rfl]

theorem get_erase (m : IndexMap K V) (k k' : K) :
    (m.erase k).get k' = if k' = k then none else m.get k' := by
  change (m.entries.filter fun e => decide (e.1 ≠ k)).lookup k' = _
  rw [get]
  induction m.entries with
  | nil => simp
  | cons e rest ih =>
      by_cases he : e.1 = k
      · rw [List.filter_cons_of_neg (by simp [he]), ih]
        refine ite_congr rfl (fun _ => rfl) fun hk => ?_
        rw [lookup_cons_ne (by rwa [he])]
      · rw [List.filter_cons_of_pos (by simp [he])]
        by_cases hk : k' = e.1
        · rw [lookup_cons_self hk, lookup_cons_self hk, if_neg (by rwa [hk])]
        · rw [lookup_cons_ne hk, lookup_cons_ne hk, ih]

theorem mem_entries_iff {m : IndexMap K V} {k : K} {v : V} :
    (k, v) ∈ m.entries ↔ m.get k = some v :=
  ⟨lookup_eq_some_of_mem m.nodup, mem_of_lookup_eq_some⟩

theorem get_of_get_retain {m : IndexMap K V} {p : K → V → Bool} {k : K} {v : V}
    (h : (m.retain p).get k = some v) : m.get k = some v :=
  mem_entries_iff.mp (List.mem_of_mem_filter (mem_entries_iff.mpr h))

theorem get_eq_none_iff {m : IndexMap K V} {k : K} :
    m.get k = none ↔ k ∉ m.keys :=
  lookup_eq_none_iff

theorem mem_keys_iff {m : IndexMap K V} {k : K} :
    k ∈ m.keys ↔ ∃ v, m.get k = some v := by
  rw [← Option.ne_none_iff_exists', ne_eq, get_eq_none_iff, not_not]

theorem mem_keys_of_get {m : IndexMap K V} {k : K} {v : V}
    (h : m.get k = some v) : k ∈ m.keys :=
  mem_keys_iff.mpr ⟨v, h⟩

@[simp] theorem containsKey_iff {m : IndexMap K V} {k : K} :
    m.containsKey k = true ↔ k ∈ m.keys := by
  simp [containsKey]

theorem values_eq (m : IndexMap K V) : m.values = m.keys.filterMap m.get := by
  unfold values keys
  rw [List.filterMap_map, ← List.filterMap_eq_map]
  exact List.filterMap_congr fun e he => (mem_entries_iff.mp he).symm

theorem mem_map_values_iff {W : Type*} {f : V → W} {m : IndexMap K V} {w : W} :
    w ∈ m.values.map f ↔ ∃ k, (m.get k).map f = some w := by
  rw [values_eq, List.mem_map]
  constructor
  · rintro ⟨v, hv, rfl⟩
    obtain ⟨k, -, hk⟩ := List.mem_filterMap.mp hv
    exact ⟨k, by rw [hk, Option.map_some]⟩
  · rintro ⟨k, hk⟩
    obtain ⟨v, hv, rfl⟩ := Option.map_eq_some_iff.mp hk
    exact ⟨v, List.mem_filterMap.mpr ⟨k, mem_keys_of_get hv, hv⟩, rfl⟩

theorem get_perm {m m' : IndexMap K V} (hp : m.entries.Perm m'.entries) (k : K) :
    m.get k = m'.get k :=
  lookup_perm hp m.nodup k

theorem get_foldl_insert (l : List (K × V)) (k : K) : ∀ m : IndexMap K V,
    (l.foldl (fun m e => m.insert e.1 e.2) m).get k =
      (l.reverse.lookup k).or (m.get k) := by
  induction l with
  | nil => intro m; simp
  | cons e rest ih =>
      intro m
      rw [List.foldl_cons, ih, get_insert, List.reverse_cons, List.lookup_append,
        Option.or_assoc]
      by_cases h : k = e.1
      · rw [if_pos h, lookup_cons_self h, Option.some_or]
      · rw [if_neg h, lookup_cons_ne h, List.lookup_nil, Option.none_or]

theorem get_extend (m m' : IndexMap K V) (k : K) :
    (m.extend m').get k = (m'.get k).or (m.get k) := by
  have hnd : (m'.entries.reverse.map Prod.fst).Nodup := by
    rw [List.map_reverse]
    exact List.nodup_reverse.mpr m'.nodup
  rw [extend, get_foldl_insert, lookup_perm m'.entries.reverse_perm hnd]
  rfl

theorem mem_keys_extend {m m' : IndexMap K V} {k : K} :
    k ∈ (m.extend m').keys ↔ k ∈ m.keys ∨ k ∈ m'.keys := by
  rw [← not_iff_not, not_or, ← get_eq_none_iff, ← get_eq_none_iff, ← get_eq_none_iff,
    get_extend, Option.or_eq_none_iff, and_comm]

/-- Collecting keeps the last value of each key. -/
theorem get_ofList (l : List (K × V)) (k : K) :
    (ofList l).get k = l.reverse.lookup k := by
  rw [ofList, get_foldl_insert, get_empty, Option.or_none]

theorem mem_of_get_ofList {l : List (K × V)} {k : K} {v : V}
    (h : (ofList l).get k = some v) : (k, v) ∈ l := by
  rw [get_ofList] at h
  exact List.mem_reverse.mp (mem_of_lookup_eq_some h)

theorem mem_keys_ofList {l : List (K × V)} {k : K} :
    k ∈ (ofList l).keys ↔ k ∈ l.map Prod.fst := by
  rw [← not_iff_not, ← get_eq_none_iff, get_ofList, lookup_eq_none_iff,
    List.map_reverse, List.mem_reverse]

/-- Collecting pairs with distinct keys loses nothing. -/
theorem get_ofList_of_nodup {l : List (K × V)} (hnd : (l.map Prod.fst).Nodup)
    (k : K) : (ofList l).get k = l.lookup k := by
  rw [get_ofList]
  refine lookup_perm l.reverse_perm ?_ k
  rw [List.map_reverse]
  exact List.nodup_reverse.mpr hnd

theorem keys_insertEntry (k : K) (x : V) : ∀ l : List (K × V),
    (insertEntry k x l).map Prod.fst = addKey (l.map Prod.fst) k
  | [] => by simp [insertEntry, addKey]
  | e :: l => by
      have ih := keys_insertEntry k x l
      by_cases h : e.1 = k
      · rw [insertEntry_cons_self h]
        simp [addKey, h]
      · rw [insertEntry_cons_ne h, List.map_cons, ih]
        have hne : k ≠ e.1 := fun heq => h heq.symm
        by_cases hk : k ∈ l.map Prod.fst
        · simp only [addKey, List.map_cons, List.mem_cons, hk, or_true, if_true]
        · simp only [addKey, List.map_cons, List.mem_cons, hne, hk, or_self, if_false,
            List.cons_append]

/-- Collected keys come in the order of their first occurrences. -/
theorem keys_ofList (l : List (K × V)) :
    (ofList l).keys = firstOccurrences (l.map Prod.fst) := by
  have hfold : ∀ (l : List (K × V)) (m : IndexMap K V),
      (l.foldl (fun m e => m.insert e.1 e.2) m).keys
        = (l.map Prod.fst).foldl addKey m.keys := by
    intro l
    induction l with
    | nil => intro m; rfl
    | cons e l ih =>
        intro m
        have hkeys : (m.insert e.1 e.2).keys = addKey m.keys e.1 :=
          keys_insertEntry e.1 e.2 m.entries
        rw [List.foldl_cons, ih, hkeys]
        rfl
  exact hfold l empty

end IndexMap

/-! ## §2  Unordered visits -/

/-- An iteration order of a hashed container, chosen by its hasher: any
rearrangement of the content. -/
structure HashOrder (α : Type u) where
  visit : List α → List α
  visit_perm : ∀ l, (visit l).Perm l

namespace HashOrder

variable {α : Type u}

/-- The order in which the content was inserted. -/
def insertion : HashOrder α := ⟨id, fun l => List.Perm.refl l⟩

@[simp] theorem mem_visit (o : HashOrder α) {l : List α} {a : α} :
    a ∈ o.visit l ↔ a ∈ l :=
  (o.visit_perm l).mem_iff

theorem nodup_visit (o : HashOrder α) {l : List α} (h : l.Nodup) :
    (o.visit l).Nodup :=
  (o.visit_perm l).nodup_iff.mpr h

variable [DecidableEq α]

/-- The order of insertion, but with `a` first. -/
def preferring (a : α) : HashOrder α where
  visit l := if a ∈ l then a :: l.erase a else l
  visit_perm l := by
    split
    · next h => exact (List.perm_cons_erase h).symm
    · exact List.Perm.refl l

theorem visit_preferring {a : α} {l : List α} (h : a ∈ l) :
    ∃ rest, (preferring a).visit l = a :: rest :=
  ⟨l.erase a, if_pos h⟩

end HashOrder

end SpecForge.Lib
