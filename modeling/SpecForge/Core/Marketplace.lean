import SpecForge.Lib.IndexMap

/-!
# Marketplace indexes (`marketplace.rs`)

An index of specifications and one of plugins have the same operations. `merge` goes by the names as
they are, through a hash map whose order the sort by downloads does not undo where they are equal;
`find` ignores case.

- §1 the operations over any entries; §2 the two indexes.
- §3 what a merged index contains; §4 when `merge` and `find` agree.
-/

namespace SpecForge.Marketplace

open Lib

/-! ## §1  Operations -/

section Operations

variable {ε : Type} (name : ε → String) (downloads : ε → ℕ) (toLowercase : String → String)

/-- The hash map of `merge`: an entry replaces one before it that has the same name. -/
def mergeMap (own other : List ε) : IndexMap String ε :=
  other.foldl (fun map e => map.insert (name e) e)
    (IndexMap.ofList (own.map fun e => (name e, e)))

/-- `merge`: the values of the map, sorted by `Reverse` of the downloads. -/
def mergeEntries (order : HashOrder ε) (own other : List ε) : List ε :=
  (order.visit (mergeMap name own other).values).mergeSort fun e e' =>
    decide (downloads e' ≤ downloads e)

/-- `find`: the first entry whose name is the same but for case. -/
def findEntry (entries : List ε) (query : String) : Option ε :=
  entries.find? fun e => toLowercase (name e) == toLowercase query

end Operations

/-! ## §2  The indexes -/

structure SpecEntry where
  name : String
  description : String
  version : String
  author : String
  tags : List String
  downloads : UInt64
  rating : Float32
  url : String
  specUrl : String
  verified : Bool

structure MarketplaceIndex where
  entries : List SpecEntry

namespace MarketplaceIndex

def merge (order : HashOrder SpecEntry) (a b : MarketplaceIndex) : MarketplaceIndex where
  entries := mergeEntries SpecEntry.name (fun e => e.downloads.toNat) order a.entries b.entries

def find (toLowercase : String → String) (a : MarketplaceIndex) (name : String) :
    Option SpecEntry :=
  findEntry SpecEntry.name toLowercase a.entries name

end MarketplaceIndex

structure PluginEntry where
  name : String
  description : String
  version : String
  author : String
  language : String
  url : String
  verified : Bool
  downloads : UInt64
  rating : Float32

structure PluginIndex where
  plugins : List PluginEntry

namespace PluginIndex

def merge (order : HashOrder PluginEntry) (a b : PluginIndex) : PluginIndex where
  plugins := mergeEntries PluginEntry.name (fun e => e.downloads.toNat) order a.plugins b.plugins

def find (toLowercase : String → String) (a : PluginIndex) (name : String) : Option PluginEntry :=
  findEntry PluginEntry.name toLowercase a.plugins name

end PluginIndex

/-! ## §3  Merged entries -/

section Merge

variable {ε : Type} {name : ε → String} {downloads : ε → ℕ} {order : HashOrder ε}
  {own other : List ε}

theorem mergeMap_eq : mergeMap name own other =
    IndexMap.ofList ((own ++ other).map fun e => (name e, e)) := by
  rw [mergeMap, IndexMap.ofList, IndexMap.ofList, List.map_append, List.foldl_append,
    List.foldl_map (l := other)]

/-- The map finds an entry by its own name. -/
theorem get_mergeMap {k : String} {e : ε} (h : (mergeMap name own other).get k = some e) :
    k = name e ∧ e ∈ own ++ other := by
  rw [mergeMap_eq] at h
  obtain ⟨e', he', heq⟩ := List.mem_map.mp (IndexMap.mem_of_get_ofList h)
  obtain ⟨rfl, rfl⟩ := Prod.mk.inj heq
  exact ⟨rfl, he'⟩

theorem mem_mergeEntries {e : ε} : e ∈ mergeEntries name downloads order own other ↔
    (mergeMap name own other).get (name e) = some e := by
  rw [mergeEntries, List.mem_mergeSort, HashOrder.mem_visit, IndexMap.values_eq,
    List.mem_filterMap]
  constructor
  · rintro ⟨k, -, hk⟩
    obtain ⟨rfl, -⟩ := get_mergeMap hk
    exact hk
  · exact fun h => ⟨name e, IndexMap.mem_keys_of_get h, h⟩

theorem mem_of_mem_mergeEntries {e : ε} (h : e ∈ mergeEntries name downloads order own other) :
    e ∈ own ++ other :=
  (get_mergeMap (mem_mergeEntries.mp h)).2

/-- Every name stays. -/
theorem exists_mem_mergeEntries (name : ε → String) (downloads : ε → ℕ) (order : HashOrder ε)
    {e : ε} (he : e ∈ own ++ other) :
    ∃ e' ∈ mergeEntries name downloads order own other, name e' = name e := by
  have hkey : name e ∈ (mergeMap name own other).keys := by
    rw [mergeMap_eq, IndexMap.mem_keys_ofList, List.map_map]
    exact List.mem_map_of_mem he
  obtain ⟨e', he'⟩ := IndexMap.mem_keys_iff.mp hkey
  have hname : name e = name e' := (get_mergeMap he').1
  refine ⟨e', mem_mergeEntries.mpr ?_, hname.symm⟩
  rw [← hname]
  exact he'

theorem nodup_names_mergeEntries :
    ((mergeEntries name downloads order own other).map name).Nodup := by
  have hkeys : (mergeMap name own other).values.map name = (mergeMap name own other).keys := by
    unfold IndexMap.values IndexMap.keys
    rw [List.map_map]
    refine List.map_congr_left fun e he => ?_
    exact (get_mergeMap (IndexMap.mem_entries_iff.mp he)).1.symm
  have hperm : (mergeEntries name downloads order own other).Perm
      (mergeMap name own other).values :=
    (List.mergeSort_perm _ _).trans (order.visit_perm _)
  rw [(hperm.map name).nodup_iff, hkeys]
  exact IndexMap.nodup_keys _

theorem eq_of_mem_mergeEntries {e e' : ε} (he : e ∈ mergeEntries name downloads order own other)
    (he' : e' ∈ mergeEntries name downloads order own other) (h : name e = name e') : e = e' :=
  List.inj_on_of_nodup_map nodup_names_mergeEntries he he' h

theorem pairwise_downloads_mergeEntries :
    (mergeEntries name downloads order own other).Pairwise fun e e' =>
      downloads e' ≤ downloads e := by
  have hsorted : (mergeEntries name downloads order own other).Pairwise fun e e' =>
      decide (downloads e' ≤ downloads e) = true :=
    List.pairwise_mergeSort (fun a b c => by simpa using fun hab hbc => Nat.le_trans hbc hab)
      (fun a b => by simpa using Nat.le_total (downloads b) (downloads a))
      (order.visit (mergeMap name own other).values)
  exact hsorted.imp of_decide_eq_true

/-- An entry that comes in replaces what has its name. -/
theorem mem_mergeEntries_of_mem_other {e : ε} (hnd : (other.map name).Nodup) (he : e ∈ other) :
    e ∈ mergeEntries name downloads order own other := by
  have hother : (other.map fun e => (name e, e)).reverse.lookup (name e) = some e := by
    apply lookup_eq_some_of_mem
    · rw [List.map_reverse, List.map_map]
      exact List.nodup_reverse.mpr hnd
    · exact List.mem_reverse.mpr (List.mem_map_of_mem he)
  rw [mem_mergeEntries, mergeMap_eq, IndexMap.get_ofList, List.map_append, List.reverse_append,
    List.lookup_append, hother, Option.some_or]

/-- An entry whose name nothing else has stays. -/
theorem mem_mergeEntries_of_unique {e : ε} (he : e ∈ own ++ other)
    (h : ∀ e' ∈ own ++ other, name e' = name e → e' = e) :
    e ∈ mergeEntries name downloads order own other := by
  obtain ⟨e', he', hname⟩ := exists_mem_mergeEntries name downloads order he
  rw [← h e' (mem_of_mem_mergeEntries he') hname]
  exact he'

end Merge

/-! ## §4  Coherence -/

section Coherence

variable {ε : Type}

/-- The entry is there, once. -/
def KeptOnce (entries : List ε) (e : ε) : Prop :=
  ∃ before after, entries = before ++ e :: after ∧ e ∉ before ∧ e ∉ after

/-- What a merged index promises: it is sorted, its entries differ where names are compared without
regard to case, `find` finds those that came in, and the others stay. -/
structure Coherent (name : ε → String) (downloads : ε → ℕ) (toLowercase : String → String)
    (own other merged : List ε) (find : String → Option ε) : Prop where
  sorted : merged.Pairwise fun e e' => downloads e' ≤ downloads e
  distinct : (merged.map fun e => toLowercase (name e)).Nodup
  found : (other.map fun e => toLowercase (name e)).Nodup → ∀ e ∈ other,
    find (name e) = some e
  kept : ∀ e ∈ own, (∀ e' ∈ other, toLowercase (name e') ≠ toLowercase (name e)) →
    KeptOnce merged e

/-- Names that differ do so also without regard to case, and entries of the old index that have one
name are equal, unless an entry that comes in replaces them. -/
structure Unambiguous (name : ε → String) (toLowercase : String → String)
    (own other : List ε) : Prop where
  names : ∀ e ∈ own ++ other, ∀ e' ∈ own ++ other,
    toLowercase (name e) = toLowercase (name e') → name e = name e'
  entries : ∀ e ∈ own, ∀ e' ∈ own, name e = name e' → name e ∉ other.map name → e = e'

variable {name : ε → String} {downloads : ε → ℕ} {toLowercase : String → String}
  {order : HashOrder ε} {own other : List ε}

theorem KeptOnce.mem {entries : List ε} {e : ε} (h : KeptOnce entries e) : e ∈ entries := by
  obtain ⟨before, after, rfl, -, -⟩ := h
  exact List.mem_append_right _ List.mem_cons_self

theorem keptOnce_of_mem {entries : List ε} {e : ε} (hnd : entries.Nodup) (he : e ∈ entries) :
    KeptOnce entries e := by
  obtain ⟨before, after, rfl⟩ := List.append_of_mem he
  obtain ⟨-, htail, hdisjoint⟩ := List.nodup_append.mp hnd
  refine ⟨before, after, rfl, fun hbefore => ?_, (List.nodup_cons.mp htail).1⟩
  exact hdisjoint e hbefore e List.mem_cons_self rfl

theorem Coherent.unambiguous
    (h : Coherent name downloads toLowercase own other
      (mergeEntries name downloads order own other)
      (findEntry name toLowercase (mergeEntries name downloads order own other))) :
    Unambiguous name toLowercase own other := by
  have hnames : ∀ e ∈ own ++ other, ∀ e' ∈ own ++ other,
      toLowercase (name e) = toLowercase (name e') → name e = name e' := by
    intro e he e' he' hlower
    obtain ⟨m, hm, hname⟩ := exists_mem_mergeEntries name downloads order he
    obtain ⟨m', hm', hname'⟩ := exists_mem_mergeEntries name downloads order he'
    rw [← hname, ← hname'] at hlower
    rw [← hname, ← hname']
    have heq : m = m' := List.inj_on_of_nodup_map h.distinct hm hm' hlower
    rw [heq]
  refine ⟨hnames, fun e he e' he' hname hnew => ?_⟩
  have hapart : ∀ e'' ∈ other, toLowercase (name e'') ≠ toLowercase (name e) := by
    intro e'' he'' hlower
    apply hnew
    rw [← hnames e'' (List.mem_append_right _ he'') e (List.mem_append_left _ he) hlower]
    exact List.mem_map_of_mem he''
  have hkept := (h.kept e he hapart).mem
  have hkept' := (h.kept e' he' (hname ▸ hapart)).mem
  exact eq_of_mem_mergeEntries hkept hkept' hname

theorem Unambiguous.coherent (h : Unambiguous name toLowercase own other) :
    Coherent name downloads toLowercase own other (mergeEntries name downloads order own other)
      (findEntry name toLowercase (mergeEntries name downloads order own other)) := by
  have hdistinct : ((mergeEntries name downloads order own other).map fun e =>
      toLowercase (name e)).Nodup := by
    apply List.Nodup.map_on ?_ nodup_names_mergeEntries.of_map
    intro e he e' he' hlower
    apply eq_of_mem_mergeEntries he he'
    exact h.names e (mem_of_mem_mergeEntries he) e' (mem_of_mem_mergeEntries he') hlower
  refine ⟨pairwise_downloads_mergeEntries, hdistinct, ?_, ?_⟩
  · intro hnd e he
    have hnames : (other.map name).Nodup := by
      apply List.Nodup.of_map toLowercase
      rw [List.map_map]
      exact hnd
    exact find?_key hdistinct (mem_mergeEntries_of_mem_other hnames he)
  · intro e he hapart
    have hnew : name e ∉ other.map name := by
      intro hmem
      obtain ⟨e', he', hname⟩ := List.mem_map.mp hmem
      exact hapart e' he' (congrArg toLowercase hname)
    apply keptOnce_of_mem nodup_names_mergeEntries.of_map
    apply mem_mergeEntries_of_unique (List.mem_append_left _ he)
    intro e' he' hname
    rcases List.mem_append.mp he' with hown | hother
    · exact (h.entries e he e' hown hname.symm hnew).symm
    · exact absurd (congrArg toLowercase hname) (hapart e' hother)

/-- **Merging and finding agree if and only if names that differ do so also without regard to case
and no entry is lost to another of the old index**, in both indexes and whatever the order of the
hash map. -/
theorem merge_coherent_iff (toLowercase : String → String) :
    (∀ (order : HashOrder SpecEntry) (a b : MarketplaceIndex),
      Coherent SpecEntry.name (fun e => e.downloads.toNat) toLowercase a.entries b.entries
          (a.merge order b).entries ((a.merge order b).find toLowercase) ↔
        Unambiguous SpecEntry.name toLowercase a.entries b.entries) ∧
    ∀ (order : HashOrder PluginEntry) (a b : PluginIndex),
      Coherent PluginEntry.name (fun e => e.downloads.toNat) toLowercase a.plugins b.plugins
          (a.merge order b).plugins ((a.merge order b).find toLowercase) ↔
        Unambiguous PluginEntry.name toLowercase a.plugins b.plugins :=
  ⟨fun _ _ _ => ⟨Coherent.unambiguous, Unambiguous.coherent⟩,
    fun _ _ _ => ⟨Coherent.unambiguous, Unambiguous.coherent⟩⟩

/-- `str::to_lowercase` on names of ASCII characters. -/
def asciiLowercase (s : String) : String := String.ofList (s.toList.map Char.toLower)

def petstore (name : String) (downloads : UInt64) : SpecEntry :=
  ⟨name, "", "1.0.0", "community", [], downloads, 0, "", "", false⟩

/-- `petstore` is merged into an index that has `Petstore`, and `find` finds that one. -/
theorem petstore_found_twice : ¬ ∀ (order : HashOrder SpecEntry) (a b : MarketplaceIndex),
    Coherent SpecEntry.name (fun e => e.downloads.toNat) asciiLowercase a.entries b.entries
      (a.merge order b).entries ((a.merge order b).find asciiLowercase) := by
  intro h
  have hcoherent := h HashOrder.insertion ⟨[petstore "Petstore" 10]⟩ ⟨[petstore "petstore" 5]⟩
  have hnames := hcoherent.unambiguous.names (petstore "Petstore" 10) (by simp)
    (petstore "petstore" 5) (by simp) (by decide)
  exact absurd hnames (by decide)

end Coherence

end SpecForge.Marketplace
