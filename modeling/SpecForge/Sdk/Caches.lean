import SpecForge.Go.Client
import SpecForge.Lib.Expiring
import SpecForge.Rust.Cache
import SpecForge.Ts.ConditionalGet

/-!
# The response caches of the SDKs

Each SDK keeps responses under their URL for a while. They get rid of what has expired at
different times: TypeScript and Go when it is asked for, Rust when anything else is stored. Used by
one caller at a time, all three answer like the store that drops nothing (`caches_agree`, §2).
-/

namespace SpecForge

open Lib Lib.Store

/-- An ETag and a body. -/
abbrev Cached := String × List UInt8

abbrev CacheOp := Op String Cached

/-! ## §1  One operation after the other -/

namespace Ts

def ResponseCache.view (c : ResponseCache (List UInt8)) : Store String Cached := fun url =>
  (c.cache.get url).map fun e => ⟨(e.etag, e.data), e.timestamp⟩

def ResponseCache.clear (c : ResponseCache (List UInt8)) : ResponseCache (List UInt8) :=
  { c with cache := .empty }

def ResponseCache.step (c : ResponseCache (List UInt8)) :
    ℤ × CacheOp → Option (Stamped Cached) × ResponseCache (List UInt8)
  | (now, .get url) =>
      let (found, c) := c.get now url
      (found.map fun e => ⟨(e.etag, e.data), e.timestamp⟩, c)
  | (now, .set url (etag, data)) => (none, c.set now url etag data)
  | (_, .clear) => (none, c.clear)

end Ts

namespace Rust

def ResponseCache.view (c : ResponseCache) : Store String Cached := fun url =>
  (c.inner.get url).map fun e => ⟨(e.etag, e.data), e.timestamp⟩

def ResponseCache.clear (c : ResponseCache) : ResponseCache := { c with inner := .empty }

def ResponseCache.step (c : ResponseCache) :
    ℤ × CacheOp → Option (Stamped Cached) × ResponseCache
  | (now, .get url) => ((c.get now url).map fun e => ⟨(e.etag, e.data), e.timestamp⟩, c)
  | (now, .set url (etag, data)) => (none, c.set now url ⟨etag, data, now, ⟨url, []⟩⟩)
  | (_, .clear) => (none, c.clear)

end Rust

namespace Go

def ResponseCache.view (c : ResponseCache) : Store String Cached := fun url =>
  (c.entries.get (bytes url)).map fun e => ⟨(e.etag, e.data), e.timestamp⟩

def ResponseCache.clear (c : ResponseCache) : ResponseCache := { c with entries := .empty }

/-- With nobody else at the cache, `Get` is done at once. -/
def ResponseCache.step (c : ResponseCache) :
    ℤ × CacheOp → Option (Stamped Cached) × ResponseCache
  | (now, .get url) =>
      ((c.find now (bytes url)).map fun e => ⟨(e.etag, e.data), e.timestamp⟩,
        c.evict now (bytes url))
  | (now, .set url (etag, data)) => (none, c.set now (bytes url) etag data)
  | (_, .clear) => (none, c.clear)

end Go

/-! ## §2  The store that they keep -/

namespace Ts

theorem get_fst (c : ResponseCache (List UInt8)) (now : ℤ) (url : String) :
    (c.get now url).1 = (c.cache.get url).filter (c.isFresh now) := by
  rw [ResponseCache.get]
  cases (c.cache.get url).filter (c.isFresh now) <;> rfl

/-- What has expired is evicted when it is asked for. -/
theorem drops_get (c : ResponseCache (List UInt8)) (now : ℤ) (url : String) :
    Drops c.ttl now c.view (c.get now url).2.view := by
  rw [ResponseCache.get]
  split
  · exact .refl _ _ _
  · next hnone =>
    constructor
    · intro k e he
      obtain ⟨entry, hentry, rfl⟩ := Option.map_eq_some_iff.mp he
      rw [IndexMap.get_erase] at hentry
      split at hentry
      · cases hentry
      · exact Option.map_eq_some_iff.mpr ⟨entry, hentry, rfl⟩
    · intro k e he hgone
      obtain ⟨entry, hentry, rfl⟩ := Option.map_eq_some_iff.mp he
      have herased := Option.map_eq_none_iff.mp hgone
      rw [IndexMap.get_erase] at herased
      split at herased
      · next hk =>
        rw [← hk, hentry] at hnone
        have hstale : c.isFresh now entry = false :=
          Bool.eq_false_iff.mpr (Option.filter_some_eq_none.mp hnone)
        exact hstale
      · rw [hentry] at herased
        cases herased

theorem view_set (c : ResponseCache (List UInt8)) (now : ℤ) (url etag : String)
    (data : List UInt8) : (c.set now url etag data).view = c.view.put now url (etag, data) := by
  funext k
  show ((c.cache.insert url _).get k).map _ = Function.update c.view url _ k
  rw [IndexMap.get_insert]
  by_cases hk : k = url
  · rw [if_pos hk, hk, Function.update_self]
    rfl
  · rw [if_neg hk, Function.update_of_ne hk]
    rfl

theorem implements (ttl : ℤ) :
    Implements ResponseCache.step ResponseCache.view (fun c => c.ttl = ttl) ttl where
  kept := by
    rintro c ⟨now, op⟩ httl
    cases op with
    | get url =>
        show (c.get now url).2.ttl = ttl
        rw [ResponseCache.get]
        split <;> exact httl
    | set url cached => exact httl
    | clear => exact httl
  answer := by
    rintro c now op rfl -
    cases op with
    | get url =>
        show (c.get now url).1.map _ = c.view.read c.ttl now url
        rw [get_fst, Store.read, ResponseCache.view, Option.filter_map]
        rfl
    | set url cached => rfl
    | clear => rfl
  view := by
    rintro c now op rfl -
    cases op with
    | get url => exact drops_get c now url
    | set url cached =>
        show Drops c.ttl now (c.view.put now url cached) (c.set now url cached.1 cached.2).view
        rw [view_set]
        exact .refl _ _ _
    | clear => exact .refl _ _ _

end Ts

namespace Go

theorem bytes_injective : Function.Injective bytes := by
  intro s s' h
  apply String.toByteArray_inj.mp
  exact ByteArray.ext (Array.toList_inj.mp h)

/-- What has expired is evicted when it is asked for. -/
theorem drops_evict (c : ResponseCache) (now : ℤ) (url : String) :
    Drops c.ttl now c.view (c.evict now (bytes url)).view := by
  rw [ResponseCache.evict]
  split
  · next old hold =>
    split
    · next hexpired =>
      constructor
      · intro k e he
        obtain ⟨entry, hentry, rfl⟩ := Option.map_eq_some_iff.mp he
        rw [IndexMap.get_erase] at hentry
        split at hentry
        · cases hentry
        · exact Option.map_eq_some_iff.mpr ⟨entry, hentry, rfl⟩
      · intro k e he hgone
        obtain ⟨entry, hentry, rfl⟩ := Option.map_eq_some_iff.mp he
        have herased := Option.map_eq_none_iff.mp hgone
        rw [IndexMap.get_erase] at herased
        split at herased
        · next hk =>
          rw [hk, hold, Option.some.injEq] at hentry
          rw [← hentry]
          exact decide_eq_false (not_lt.mpr hexpired)
        · rw [hentry] at herased
          cases herased
    · exact .refl _ _ _
  · exact .refl _ _ _

theorem view_set (c : ResponseCache) (now : ℤ) (url etag : String) (data : List UInt8) :
    (c.set now (bytes url) etag data).view = c.view.put now url (etag, data) := by
  funext k
  show ((c.entries.insert (bytes url) _).get (bytes k)).map _ = Function.update c.view url _ k
  rw [IndexMap.get_insert]
  by_cases hk : k = url
  · rw [if_pos (congrArg bytes hk), hk, Function.update_self]
    rfl
  · rw [if_neg (bytes_injective.ne hk), Function.update_of_ne hk]
    rfl

theorem implements (ttl : ℤ) :
    Implements ResponseCache.step ResponseCache.view (fun c => c.ttl = ttl) ttl where
  kept := by
    rintro c ⟨now, op⟩ httl
    cases op with
    | get url =>
        show (c.evict now (bytes url)).ttl = ttl
        rw [ResponseCache.evict]
        split
        · split <;> exact httl
        · exact httl
    | set url cached => exact httl
    | clear => exact httl
  answer := by
    rintro c now op rfl -
    cases op with
    | get url =>
        show (c.find now (bytes url)).map _ = c.view.read c.ttl now url
        rw [ResponseCache.find, Store.read, ResponseCache.view, Option.filter_map]
        rfl
    | set url cached => rfl
    | clear => rfl
  view := by
    rintro c now op rfl -
    cases op with
    | get url => exact drops_evict c now url
    | set url cached =>
        show Drops c.ttl now (c.view.put now url cached)
          (c.set now (bytes url) cached.1 cached.2).view
        rw [view_set]
        exact .refl _ _ _
    | clear => exact .refl _ _ _

end Go

namespace Rust

/-- A clock that does not go back measures the time since an entry was stored. -/
theorem isFresh_eq {c : ResponseCache} {now : ℤ} {e : CacheEntry} (h : e.timestamp ≤ now) :
    c.isFresh now e = Stamped.isFresh c.ttl now ⟨(e.etag, e.data), e.timestamp⟩ := by
  rw [ResponseCache.isFresh, Stamped.isFresh]
  apply decide_eq_decide.mpr
  show (now - e.timestamp).toNat < c.ttl ↔ now - e.timestamp < c.ttl
  omega

theorem get_retain (c : ResponseCache) (now : ℤ) (url : String) :
    (c.inner.retain fun _ e => c.isFresh now e).get url =
      (c.inner.get url).filter (c.isFresh now) := by
  ext e
  rw [Option.filter_eq_some_iff, ← IndexMap.mem_entries_iff,
    ← IndexMap.mem_entries_iff]
  exact List.mem_filter

/-- What has expired is evicted when something is stored. -/
theorem drops_set (c : ResponseCache) (now : ℤ) (url : String) (cached : Cached)
    (hput : PutBy now c.view) : Drops c.ttl now (c.view.put now url cached)
      (c.set now url ⟨cached.1, cached.2, now, ⟨url, []⟩⟩).view := by
  have hview : ∀ k, k ≠ url → (c.set now url ⟨cached.1, cached.2, now, ⟨url, []⟩⟩).view k =
      ((c.inner.get k).filter (c.isFresh now)).map
        fun e => ⟨(e.etag, e.data), e.timestamp⟩ := by
    intro k hk
    rw [← get_retain]
    show (IndexMap.get _ k).map _ = _
    rw [ResponseCache.set, IndexMap.get_insert, if_neg hk]
  have hself : (c.set now url ⟨cached.1, cached.2, now, ⟨url, []⟩⟩).view url =
      some ⟨cached, now⟩ := by
    show (IndexMap.get _ url).map _ = _
    rw [ResponseCache.set, IndexMap.get_insert_self]
    rfl
  constructor
  · intro k e he
    rw [Store.put]
    by_cases hk : k = url
    · rw [hk, hself] at he
      rw [hk, Function.update_self, he]
    · rw [hview k hk] at he
      obtain ⟨entry, hentry, rfl⟩ := Option.map_eq_some_iff.mp he
      rw [Function.update_of_ne hk]
      exact Option.map_eq_some_iff.mpr ⟨entry, Option.eq_some_of_filter_eq_some hentry, rfl⟩
  · intro k e he hgone
    by_cases hk : k = url
    · rw [hk, hself] at hgone
      cases hgone
    · rw [Store.put, Function.update_of_ne hk] at he
      have hstamp := hput k e he
      obtain ⟨entry, hentry, rfl⟩ := Option.map_eq_some_iff.mp he
      rw [hview k hk, hentry, Option.map_eq_none_iff, Option.filter_some_eq_none] at hgone
      rw [← isFresh_eq hstamp]
      exact Bool.eq_false_iff.mpr hgone

theorem implements (ttl : ℕ) :
    Implements ResponseCache.step ResponseCache.view (fun c => c.ttl = ttl) ttl where
  kept := by
    rintro c ⟨now, op⟩ httl
    cases op <;> exact httl
  answer := by
    rintro c now op rfl hput
    cases op with
    | get url =>
        show (c.get now url).map _ = c.view.read c.ttl now url
        rw [ResponseCache.get, Store.read, ResponseCache.view, Option.filter_map]
        cases hentry : c.inner.get url with
        | none => rfl
        | some e =>
            have hstamp : e.timestamp ≤ now :=
              hput url ⟨(e.etag, e.data), e.timestamp⟩ (by rw [ResponseCache.view, hentry]; rfl)
            rw [Option.filter_some, Option.filter_some, isFresh_eq hstamp]
            rfl
    | set url cached => rfl
    | clear => rfl
  view := by
    rintro c now op rfl hput
    cases op with
    | get url => exact .refl _ _ _
    | set url cached => exact drops_set c now url cached hput
    | clear => exact .refl _ _ _

end Rust

theorem answers_empty {σ : Type} {step : σ → ℤ × CacheOp → Option (Stamped Cached) × σ}
    {view : σ → Store String Cached} {I : σ → Prop} {ttl : ℤ} (h : Implements step view I ttl)
    {s : σ} (hI : I s) (hview : view s = Store.empty) {run : List (ℤ × CacheOp)}
    (hclock : (run.map Prod.fst).Pairwise (· ≤ ·)) :
    answers step s run = answers (spec ttl) Store.empty run := by
  cases run with
  | nil => rfl
  | cons e run =>
      have hput : PutBy e.1 (view s) := by
        rw [hview]
        exact nofun
      refine answers_eq h hI hput (hview ▸ EqFrom.refl _ _ _) ?_
      rw [List.pairwise_cons]
      refine ⟨fun t ht => ?_, hclock⟩
      rw [List.map_cons, List.mem_cons] at ht
      rcases ht with rfl | ht
      · exact le_rfl
      · exact (List.pairwise_cons.mp hclock).1 t ht

/-- **The caches answer alike**: with what was stored last under the URL since the cache was
cleared, unless it has expired. -/
theorem caches_agree (ttl : ℕ) (run : List (ℤ × CacheOp))
    (hclock : (run.map Prod.fst).Pairwise (· ≤ ·)) :
    answers Ts.ResponseCache.step (.new ttl) run = answers (spec ttl) Store.empty run ∧
      answers Rust.ResponseCache.step (.new ttl) run = answers (spec ttl) Store.empty run ∧
      answers Go.ResponseCache.step (.new ttl) run = answers (spec ttl) Store.empty run :=
  ⟨answers_empty (Ts.implements ttl) rfl rfl hclock,
    answers_empty (Rust.implements ttl) rfl rfl hclock,
    answers_empty (Go.implements ttl) rfl rfl hclock⟩

/-- Stored, found, and found expired. -/
def petsRun : List (ℤ × CacheOp) :=
  [(0, .set "/pets" ("v1", [])), (5, .get "/pets"), (9, .get "/pets"), (9, .get "/pets")]

theorem caches_agree_pets :
    answers Rust.ResponseCache.step (.new 9) petsRun =
      answers Ts.ResponseCache.step (.new 9) petsRun := by
  have hclock : (petsRun.map Prod.fst).Pairwise (· ≤ ·) := by decide
  exact (caches_agree 9 petsRun hclock).2.1.trans (caches_agree 9 petsRun hclock).1.symm

end SpecForge
