import SpecForge.Lib.Fuel

/-!
# Walking a list page by page

A reader that asks for the page after the last one until a page is shorter than it asked
for. A server that never sends more than it was asked for ends the walk at the end of the list,
or at its first page if it sends less than that.
-/

namespace SpecForge.Lib.Paging

universe u

variable {α : Type u}

/-- What a list has from an offset on, at most `size` of it. -/
def slice (L : List α) (offset size : ℕ) : List α := (L.drop offset).take size

/-- The pages of at most `size` that are read until one is shorter than `limit`. -/
def walk (L : List α) (size limit : ℕ) : ℕ → ℕ → Option (List (List α))
  | 0, _ => none
  | fuel + 1, offset =>
      let page := slice L offset size
      if page.length < limit then some [page]
      else (walk L size limit fuel (offset + page.length)).map (page :: ·)

theorem walk_of_short {L : List α} {size limit offset : ℕ}
    (h : (slice L offset size).length < limit) (fuel : ℕ) :
    walk L size limit (fuel + 1) offset = some [slice L offset size] := by
  rw [walk, if_pos h]

theorem walk_of_full {L : List α} {size limit offset : ℕ}
    (h : ¬ (slice L offset size).length < limit) (fuel : ℕ) :
    walk L size limit (fuel + 1) offset =
      (walk L size limit fuel (offset + (slice L offset size).length)).map
        (slice L offset size :: ·) := by
  rw [walk, if_neg h]

theorem length_slice (L : List α) (offset size : ℕ) :
    (slice L offset size).length = min size (L.length - offset) := by
  rw [slice, List.length_take, List.length_drop]

theorem length_slice_le (L : List α) (offset size : ℕ) : (slice L offset size).length ≤ size := by
  rw [length_slice]
  exact Nat.min_le_left _ _

/-- A page ends within the list. -/
theorem add_length_slice_le {L : List α} {offset : ℕ} (h : offset ≤ L.length) (size : ℕ) :
    offset + (slice L offset size).length ≤ L.length := by
  rw [length_slice]
  omega

/-- A page and what follows it. -/
theorem slice_append_drop (L : List α) (offset size : ℕ) :
    slice L offset size ++ L.drop (offset + (slice L offset size).length) = L.drop offset := by
  have hrest : L.drop (offset + (slice L offset size).length) = (L.drop offset).drop size := by
    rw [List.drop_drop, length_slice]
    rcases Nat.le_total size (L.length - offset) with h | h
    · rw [Nat.min_eq_left h]
    · rw [Nat.min_eq_right h, List.drop_eq_nil_of_le (by omega), List.drop_eq_nil_of_le (by omega)]
  rw [hrest]
  exact List.take_append_drop size _

/-- Full pages are read to the end of the list. -/
theorem exists_walk_of_full {limit : ℕ} (hlimit : 1 ≤ limit) (L : List α) (offset : ℕ) :
    ∃ pages, Returns (walk L limit limit · offset) pages ∧
      pages.flatten = L.drop offset := by
  -- each full page brings the end nearer
  induction hleft : L.length - offset using Nat.strong_induction_on generalizing offset with
  | _ left ih =>
      have happend := slice_append_drop L offset limit
      have hlength := length_slice L offset limit
      by_cases hshort : (slice L offset limit).length < limit
      · refine ⟨[slice L offset limit], ⟨1, walk_of_short hshort 0⟩, ?_⟩
        rw [List.drop_eq_nil_of_le (by omega), List.append_nil] at happend
        rw [List.flatten_singleton, happend]
      · obtain ⟨pages, ⟨fuel, hfuel⟩, hflatten⟩ :=
          ih (L.length - (offset + (slice L offset limit).length)) (by omega) _ rfl
        refine ⟨slice L offset limit :: pages, ⟨fuel + 1, ?_⟩, ?_⟩
        · exact (walk_of_full hshort fuel).trans (congrArg (Option.map _) hfuel)
        · rw [List.flatten_cons, hflatten, happend]

/-- A server that sends `cap` at most is walked to the end if it sends what it is asked for, and
is left after its first page if it sends less. -/
theorem exists_walk {limit : ℕ} (hlimit : 1 ≤ limit) (L : List α) (cap : ℕ) :
    ∃ pages, Returns (walk L (min limit cap) limit · 0) pages ∧
      pages.flatten = if limit ≤ cap then L else L.take cap := by
  by_cases hcap : limit ≤ cap
  · rw [if_pos hcap, Nat.min_eq_left hcap]
    exact exists_walk_of_full hlimit L 0
  · rw [if_neg hcap, Nat.min_eq_right (by omega)]
    have hshort : (slice L 0 cap).length < limit :=
      Nat.lt_of_le_of_lt (length_slice_le L 0 cap) (by omega)
    exact ⟨[slice L 0 cap], ⟨1, walk_of_short hshort 0⟩, List.flatten_singleton⟩

end SpecForge.Lib.Paging
