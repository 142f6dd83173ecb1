import SpecForge.Lib.Ascii
import SpecForge.Lib.IndexMap
import SpecForge.Lib.Text

/-!
# JavaScript objects and strings

What a program sees of its plain objects: the entries that an object literal makes, in
the order in which they are enumerated (§1), and the members that every object inherits
(§2). Then the methods of strings that differ from those of `Text` (§3).
-/

namespace SpecForge.Lib.Js

universe u

/-! ## §1  Object literals -/

section Literal

variable {α : Type u}

/-- The properties that the entries of a literal make: a repeated key keeps its place and
takes the later value, and `__proto__` makes no property. -/
def objectLiteral (entries : List (String × α)) : List (String × α) :=
  (IndexMap.ofList (entries.filter fun e => e.1 != "__proto__")).entries

/-- The number that a key is the canonical text of, below `2^32 - 1`. -/
def arrayIndex (key : String) : Option ℕ :=
  key.toNat?.filter fun n => toString n == key && decide (n < 4294967295)

/-- `Object.entries`: indices in ascending order, then the other keys as they were added. -/
def objectEntries (properties : List (String × α)) : List (String × α) :=
  (properties.filter fun e => (arrayIndex e.1).isSome).mergeSort
    (fun e e' => decide ((arrayIndex e.1).getD 0 ≤ (arrayIndex e'.1).getD 0)) ++
  properties.filter fun e => (arrayIndex e.1).isNone

theorem mem_objectEntries {properties : List (String × α)} {e : String × α} :
    e ∈ objectEntries properties ↔ e ∈ properties := by
  rw [objectEntries, List.mem_append, List.mem_mergeSort, List.mem_filter, List.mem_filter,
    ← and_or_left]
  refine and_iff_left ?_
  rcases arrayIndex e.1 with _ | n
  · exact Or.inr rfl
  · exact Or.inl rfl

theorem lookup_filter_ne (k key : String) : ∀ l : List (String × α),
    (l.filter fun e => e.1 != key).lookup k = if k = key then none else l.lookup k
  | [] => by simp
  | e :: rest => by
      have ih := lookup_filter_ne k key rest
      by_cases hkey : e.1 = key
      · rw [List.filter_cons_of_neg (by simp [hkey]), ih]
        split
        · rfl
        · next hk => rw [lookup_cons_ne (by rw [hkey]; exact hk)]
      · rw [List.filter_cons_of_pos (by simp [hkey])]
        by_cases hk : k = e.1
        · rw [lookup_cons_self hk, lookup_cons_self hk, if_neg (by rw [hk]; exact hkey)]
        · rw [lookup_cons_ne hk, lookup_cons_ne hk, ih]

/-- A literal has, for each key but `__proto__`, the last value it is given. -/
theorem mem_objectLiteral {entries : List (String × α)} {k : String} {a : α} :
    (k, a) ∈ objectLiteral entries ↔
      k ≠ "__proto__" ∧ entries.reverse.lookup k = some a := by
  have hget : (k, a) ∈ objectLiteral entries ↔
      (entries.filter fun e => e.1 != "__proto__").reverse.lookup k = some a := by
    rw [← IndexMap.get_ofList]
    exact ⟨lookup_eq_some_of_mem (IndexMap.ofList _).nodup, mem_of_lookup_eq_some⟩
  rw [hget, ← List.filter_reverse, lookup_filter_ne]
  split
  · next h => exact ⟨(fun hnone => by cases hnone), fun hand => absurd h hand.1⟩
  · next h => exact (and_iff_right h).symm

end Literal

/-! ## §2  Inherited members -/

/-- The methods of `Object.prototype`. -/
def prototypeMethods : List String :=
  ["constructor", "__defineGetter__", "__defineSetter__", "hasOwnProperty", "__lookupGetter__",
   "__lookupSetter__", "isPrototypeOf", "propertyIsEnumerable", "toString", "valueOf",
   "toLocaleString"]

/-! ## §3  Strings -/

/-- `toUpperCase` of an ASCII text. -/
def toUpperCase (s : String) : String := String.ofList (s.toList.map Char.toUpper)

/-- A character that is no letter is in the upper-case text only if it was there before. -/
theorem not_mem_toUpperCase {c : Char} (hc : c.isUpper = false) {s : String}
    (h : c ∉ s.toList) : c ∉ (toUpperCase s).toList := by
  rw [toUpperCase, String.toList_ofList, List.mem_map]
  rintro ⟨d, hd, rfl⟩
  rcases hlower : d.isLower with _ | _
  · rw [Ascii.toUpper_eq_self hlower] at h
    exact h hd
  · rw [Ascii.isUpper_toUpper hlower] at hc
    cases hc

end SpecForge.Lib.Js
