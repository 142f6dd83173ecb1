import Mathlib.Algebra.Ring.Nat
import SpecForge.Lib.Paging

/-!
# Offset pagination in the three clients (`paginate`)

`offsetPaginator` (TypeScript), `OffsetPaginate` (Go) and `offset_paginate` (Rust) walk an
offset/limit list until a short page is returned. None of them looks at the `total` of a page,
so a server that sends fewer items than it was asked for is left after its first page.

- §1 what a walk delivers; §2 to §4 the three loops, each of which is a `Paging.walk` as long as
  its numbers are exact; §5 what all three deliver.
-/

namespace SpecForge

open Lib

universe u v

/-! ## §1  Walks -/

/-- `OffsetPage`; every client has a `total` in it that nothing reads. -/
structure OffsetPage (α : Type u) where
  items : List α
  total : Option ℕ

/-- What a walk hands out, and the failure that ends it. -/
structure Walk (ε : Type v) (β : Type u) where
  pages : List β
  error : Option ε

def Walk.cons {ε : Type v} {β : Type u} (page : β) (w : Walk ε β) : Walk ε β :=
  { w with pages := page :: w.pages }

/-- A server that answers with at most `cap` items of a list. -/
def serveSlice {α : Type u} (L : List α) (cap offset limit : ℕ) : OffsetPage α where
  items := Paging.slice L offset (min limit cap)
  total := some L.length

/-! ## §2  TypeScript -/

namespace Ts

/-- A whole number as a double: from 2⁵³ on it is rounded to 53 bits, ties to even. -/
def roundToDouble (n : ℕ) : ℕ :=
  let unit := 2 ^ (n.log2 - 52)
  let q := n / unit
  let r := n % unit
  unit * if 2 * r < unit then q else if unit < 2 * r then q + 1 else q + q % 2

theorem roundToDouble_of_le {n : ℕ} (h : n ≤ 2 ^ 53) : roundToDouble n = n := by
  rcases Nat.lt_or_eq_of_le h with hlt | rfl
  · have hunit : n.log2 - 52 = 0 := by
      by_cases hzero : n = 0
      · rw [hzero]
        rfl
      · have := (Nat.log2_lt hzero).mpr hlt
        omega
    simp [roundToDouble, hunit, Nat.mod_one]
  · decide +kernel

section

variable {α : Type u} {ε : Type v} (fetchPage : ℕ → ℕ → Except ε (OffsetPage α)) (limit : ℕ)

/-- The loop of `offsetPaginator`. -/
def walkOffsets : ℕ → ℕ → Option (Walk ε (OffsetPage α))
  | 0, _ => none
  | fuel + 1, offset =>
      match fetchPage offset limit with
      | .error e => some ⟨[], some e⟩
      | .ok page =>
          if page.items.length < limit then some ⟨[page], none⟩
          else (walkOffsets fuel (roundToDouble (offset + page.items.length))).map (Walk.cons page)

end

def offsetPaginator {α : Type u} {ε : Type v} (fetchPage : ℕ → ℕ → Except ε (OffsetPage α))
    (limit : Option ℕ) (fuel : ℕ) : Option (Walk ε (OffsetPage α)) :=
  walkOffsets fetchPage (limit.getD 50) fuel 0

/-- Offsets up to 2⁵³ are exact. -/
theorem walkOffsets_serveSlice {α : Type u} {ε : Type v} {L : List α} (hlen : L.length ≤ 2 ^ 53)
    (limit cap fuel : ℕ) : ∀ offset ≤ L.length,
      walkOffsets (ε := ε) (fun offset limit => .ok (serveSlice L cap offset limit)) limit fuel
        offset = (Paging.walk L (min limit cap) limit fuel offset).map
          fun pages => ⟨pages.map fun items => ⟨items, some L.length⟩, none⟩ := by
  induction fuel with
  | zero => exact fun _ _ => rfl
  | succ fuel ih =>
      intro offset hoffset
      have hnext := Paging.add_length_slice_le hoffset (min limit cap)
      rw [walkOffsets]
      dsimp only [serveSlice]
      by_cases hshort : (Paging.slice L offset (min limit cap)).length < limit
      · rw [if_pos hshort, Paging.walk_of_short hshort]
        rfl
      · rw [if_neg hshort, Paging.walk_of_full hshort, roundToDouble_of_le (Nat.le_trans hnext hlen)]
        exact (congrArg _ (ih _ hnext)).trans (by rw [Option.map_map, Option.map_map]; rfl)

end Ts

/-! ## §3  Go -/

namespace Go

section

variable {α : Type u} {ε : Type v} (ctxErr : ℕ → Option ε)
  (fetch : Int64 → Int64 → Except ε (OffsetPage α)) (handle : List α → Option ε) (limit : Int64)

/-- The loop of `OffsetPaginate`, an `int` having 64 bits. Each turn asks the context first. -/
def walkOffsets : ℕ → ℕ → Int64 → Option (Walk ε (List α))
  | 0, _, _ => none
  | fuel + 1, turn, offset =>
      match ctxErr turn with
      | some err => some ⟨[], some err⟩
      | none =>
          match fetch offset limit with
          | .error err => some ⟨[], some err⟩
          | .ok page =>
              let n := Int64.ofNat page.items.length
              match handle page.items with
              | some err => some ⟨[page.items], some err⟩
              | none =>
                  if n < limit then some ⟨[page.items], none⟩
                  else (walkOffsets fuel (turn + 1) (offset + n)).map (Walk.cons page.items)

def offsetPaginate (fuel : ℕ) : Option (Walk ε (List α)) :=
  walkOffsets ctxErr fetch handle (if limit ≤ 0 then 50 else limit) fuel 0 0

end

/-- Offsets below 2⁶³ do not wrap. -/
theorem walkOffsets_serveSlice {α : Type u} {ε : Type v} {L : List α} (hlen : L.length < 2 ^ 63)
    {limit : ℕ} (hlimit : limit < 2 ^ 63) (cap fuel : ℕ) :
    ∀ turn, ∀ offset ≤ L.length, walkOffsets (ε := ε) (fun _ => none)
      (fun offset limit => .ok (serveSlice L cap offset.toNatClampNeg limit.toNatClampNeg))
      (fun _ => none) (Int64.ofNat limit) fuel turn (Int64.ofNat offset) =
        (Paging.walk L (min limit cap) limit fuel offset).map fun pages => ⟨pages, none⟩ := by
  induction fuel with
  | zero => exact fun _ _ _ => rfl
  | succ fuel ih =>
      intro turn offset hoffset
      have hnext := Paging.add_length_slice_le hoffset (min limit cap)
      have hpage : (Paging.slice L offset (min limit cap)).length < 2 ^ 63 := by omega
      rw [walkOffsets]
      dsimp only [serveSlice]
      rw [Int64.toNatClampNeg_ofNat_of_lt (Nat.lt_of_le_of_lt hoffset hlen),
        Int64.toNatClampNeg_ofNat_of_lt hlimit]
      by_cases hshort : (Paging.slice L offset (min limit cap)).length < limit
      · rw [if_pos ((Int64.ofNat_lt_iff_lt hpage hlimit).mpr hshort), Paging.walk_of_short hshort]
        rfl
      · rw [if_neg (mt (Int64.ofNat_lt_iff_lt hpage hlimit).mp hshort), Paging.walk_of_full hshort,
          ← Int64.ofNat_add]
        exact (congrArg _ (ih (turn + 1) _ hnext)).trans (by rw [Option.map_map, Option.map_map]; rfl)

end Go

/-! ## §4  Rust -/

namespace Rust

/-- `u32::saturating_add`. -/
def saturatingAdd (a b : UInt32) : UInt32 :=
  if a.toNat + b.toNat < UInt32.size then a + b else 4294967295

section

variable {α : Type u} {ε : Type v} (fetch : UInt32 → UInt32 → Except ε (OffsetPage α))
  (handle : List α → Option ε) (limit : UInt32)

/-- The loop of `offset_paginate`. -/
def walkOffsets : ℕ → UInt32 → Option (Walk ε (List α))
  | 0, _ => none
  | fuel + 1, offset =>
      match fetch offset limit with
      | .error err => some ⟨[], some err⟩
      | .ok page =>
          let n := UInt32.ofNat page.items.length
          match handle page.items with
          | some err => some ⟨[page.items], some err⟩
          | none =>
              if n < limit then some ⟨[page.items], none⟩
              else (walkOffsets fuel (saturatingAdd offset n)).map (Walk.cons page.items)

def offsetPaginate (fuel : ℕ) : Option (Walk ε (List α)) :=
  walkOffsets fetch handle (if limit = 0 then 50 else limit) fuel 0

end

theorem toNat_saturatingAdd {a b : UInt32} (h : a.toNat + b.toNat < UInt32.size) :
    (saturatingAdd a b).toNat = a.toNat + b.toNat := by
  rw [saturatingAdd, if_pos h, UInt32.toNat_add]
  exact Nat.mod_eq_of_lt h

/-- Offsets below 2³² neither wrap nor saturate. -/
theorem walkOffsets_serveSlice {α : Type u} {ε : Type v} {L : List α}
    (hlen : L.length < UInt32.size) (limit : UInt32) (cap fuel : ℕ) :
    ∀ offset : UInt32, offset.toNat ≤ L.length → walkOffsets (ε := ε)
      (fun offset limit => .ok (serveSlice L cap offset.toNat limit.toNat)) (fun _ => none) limit
        fuel offset = (Paging.walk L (min limit.toNat cap) limit.toNat fuel
          offset.toNat).map fun pages => ⟨pages, none⟩ := by
  induction fuel with
  | zero => exact fun _ _ => rfl
  | succ fuel ih =>
      intro offset hoffset
      have hnext := Paging.add_length_slice_le hoffset (min limit.toNat cap)
      have hn : (UInt32.ofNat (Paging.slice L offset.toNat (min limit.toNat cap)).length).toNat =
          (Paging.slice L offset.toNat (min limit.toNat cap)).length :=
        UInt32.toNat_ofNat_of_lt' (by omega)
      rw [walkOffsets]
      dsimp only [serveSlice]
      by_cases hshort : (Paging.slice L offset.toNat (min limit.toNat cap)).length < limit.toNat
      · rw [if_pos (by rw [UInt32.lt_iff_toNat_lt, hn]; exact hshort), Paging.walk_of_short hshort]
        rfl
      · rw [if_neg (by rw [UInt32.lt_iff_toNat_lt, hn]; exact hshort),
          Paging.walk_of_full hshort]
        have hsum := toNat_saturatingAdd (a := offset) (b := UInt32.ofNat
          (Paging.slice L offset.toNat (min limit.toNat cap)).length) (by rw [hn]; omega)
        rw [hn] at hsum
        have hrest := ih _ (by rw [hsum]; exact hnext)
        rw [hsum] at hrest
        exact (congrArg _ hrest).trans (by rw [Option.map_map, Option.map_map]; rfl)

end Rust

/-! ## §5  What is delivered -/

/-- **What offset pagination delivers.** All three loops end. They deliver the whole list if the
server sends as many items as it is asked for, and otherwise its first page. -/
theorem offsetPagination_delivers {α : Type u} {ε : Type v} (L : List α) {limit : ℕ} (cap : ℕ)
    (hlimit : 1 ≤ limit) :
    (L.length ≤ 2 ^ 53 → ∃ w : Walk ε (OffsetPage α), Returns (Ts.offsetPaginator
        (fun offset limit => .ok (serveSlice L cap offset limit)) (some limit)) w ∧
      w.error = none ∧ (w.pages.map (·.items)).flatten = if limit ≤ cap then L else L.take cap) ∧
    (L.length < 2 ^ 63 → limit < 2 ^ 63 → ∃ w : Walk ε (List α), Returns (Go.offsetPaginate
        (fun _ => none) (fun offset limit =>
          .ok (serveSlice L cap offset.toNatClampNeg limit.toNatClampNeg)) (fun _ => none)
          (Int64.ofNat limit)) w ∧
      w.error = none ∧ w.pages.flatten = if limit ≤ cap then L else L.take cap) ∧
    (L.length < 2 ^ 32 → limit < 2 ^ 32 → ∃ w : Walk ε (List α), Returns (Rust.offsetPaginate
        (fun offset limit => .ok (serveSlice L cap offset.toNat limit.toNat)) (fun _ => none)
          (UInt32.ofNat limit)) w ∧
      w.error = none ∧ w.pages.flatten = if limit ≤ cap then L else L.take cap) := by
  obtain ⟨pages, ⟨fuel, hfuel⟩, hflatten⟩ := Paging.exists_walk hlimit L cap
  refine ⟨fun hlen => ?_, fun hlen hbound => ?_, fun hlen hbound => ?_⟩
  · refine ⟨⟨pages.map fun items => ⟨items, some L.length⟩, none⟩, ⟨fuel, ?_⟩, rfl, ?_⟩
    · exact (Ts.walkOffsets_serveSlice hlen limit cap fuel 0 (Nat.zero_le _)).trans
        (congrArg _ hfuel)
    · rw [List.map_map, ← hflatten]
      exact congrArg List.flatten (List.map_id pages)
  · refine ⟨⟨pages, none⟩, ⟨fuel, ?_⟩, rfl, hflatten⟩
    rw [Go.offsetPaginate, if_neg (by
      intro hnonpos
      rw [← Int64.toNatClampNeg_eq_zero_iff, Int64.toNatClampNeg_ofNat_of_lt hbound] at hnonpos
      omega)]
    exact (Go.walkOffsets_serveSlice hlen hbound cap fuel 0 0 (Nat.zero_le _)).trans
      (congrArg _ hfuel)
  · have hlimit' : (UInt32.ofNat limit).toNat = limit := UInt32.toNat_ofNat_of_lt' hbound
    refine ⟨⟨pages, none⟩, ⟨fuel, ?_⟩, rfl, hflatten⟩
    rw [Rust.offsetPaginate, if_neg (by
      intro hzero
      rw [hzero] at hlimit'
      have hzero' : limit = 0 := hlimit'.symm
      omega)]
    have hloop := Rust.walkOffsets_serveSlice (ε := ε) hlen (UInt32.ofNat limit) cap fuel 0
      (Nat.zero_le _)
    rw [hlimit'] at hloop
    exact hloop.trans (congrArg _ hfuel)

/-- Seven items in pages of three, from a server that sends up to five. -/
theorem offsetPagination_seven : (∃ w : Walk Empty (OffsetPage ℕ), Returns (Ts.offsetPaginator
      (fun offset limit => .ok (serveSlice [0, 1, 2, 3, 4, 5, 6] 5 offset limit)) (some 3)) w ∧
    w.error = none ∧ (w.pages.map (·.items)).flatten = [0, 1, 2, 3, 4, 5, 6]) ∧
    (∃ w : Walk Empty (List ℕ), Returns (Go.offsetPaginate (fun _ => none) (fun offset limit =>
        .ok (serveSlice [0, 1, 2, 3, 4, 5, 6] 5 offset.toNatClampNeg limit.toNatClampNeg))
        (fun _ => none) 3) w ∧
      w.error = none ∧ w.pages.flatten = [0, 1, 2, 3, 4, 5, 6]) ∧
    ∃ w : Walk Empty (List ℕ), Returns (Rust.offsetPaginate (fun offset limit =>
        .ok (serveSlice [0, 1, 2, 3, 4, 5, 6] 5 offset.toNat limit.toNat)) (fun _ => none) 3) w ∧
      w.error = none ∧ w.pages.flatten = [0, 1, 2, 3, 4, 5, 6] := by
  have h := offsetPagination_delivers (ε := Empty) [0, 1, 2, 3, 4, 5, 6] 5
    (show 1 ≤ 3 by decide)
  exact ⟨h.1 (by decide), h.2.1 (by decide) (by decide), h.2.2 (by decide) (by decide)⟩

/-- A server that sends two items when it is asked for three is left after the first two. -/
theorem offsetPagination_cut_short : ¬ ∀ (L : List ℕ) (limit cap : ℕ), 1 ≤ limit → 1 ≤ cap →
    limit < 2 ^ 32 → L.length < 2 ^ 32 →
    (∃ w : Walk Empty (OffsetPage ℕ), Returns (Ts.offsetPaginator
        (fun offset limit => .ok (serveSlice L cap offset limit)) (some limit)) w ∧
      (w.pages.map (·.items)).flatten = L) ∧
    (∃ w : Walk Empty (List ℕ), Returns (Go.offsetPaginate (fun _ => none)
        (fun offset limit =>
          .ok (serveSlice L cap offset.toNatClampNeg limit.toNatClampNeg)) (fun _ => none)
          (Int64.ofNat limit)) w ∧ w.pages.flatten = L) ∧
    ∃ w : Walk Empty (List ℕ), Returns (Rust.offsetPaginate
        (fun offset limit => .ok (serveSlice L cap offset.toNat limit.toNat)) (fun _ => none)
          (UInt32.ofNat limit)) w ∧ w.pages.flatten = L := by
  intro h
  obtain ⟨⟨w, ⟨fuel, hfuel⟩, hflatten⟩, -⟩ := h [0, 1, 2] 3 2 (by decide) (by decide) (by decide)
    (by decide)
  cases fuel with
  | zero => cases hfuel
  | succ fuel =>
      cases hfuel
      revert hflatten
      decide

end SpecForge
