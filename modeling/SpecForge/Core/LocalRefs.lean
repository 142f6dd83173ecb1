import SpecForge.Core.Json
import SpecForge.Lib.Text

/-!
# References in a raw document

A document before parsing is a JSON value, and a reference in it is a `$ref` member with a
text, wherever it stands (§1). A local reference names a section of the components and a
name in it (§2). What a document holds is seen through `get`, so nothing here depends on
how the entries of an object are listed.
-/

namespace SpecForge

open Lib

/-! ## §1  Occurrences -/

/-- The reference `r` stands somewhere in the value. -/
inductive Value.Refers (r : String) : Value → Prop where
  | here {v} : v.get "$ref" = some (.string r) → Refers r v
  | item {xs x} : x ∈ xs → Refers r x → Refers r (.array xs)
  | member {v k w} : v.get k = some w → Refers r w → Refers r v

/-- The member `w` with the key `k` is the reference `r`, or it stands in `w`. -/
def EntryRefers (r k : String) (w : Value) : Prop :=
  (k = "$ref" ∧ w = .string r) ∨ w.Refers r

open Value (Refers)

section

variable {r k : String} {v w : Value}

theorem EntryRefers.refers (hget : v.get k = some w) (h : EntryRefers r k w) : v.Refers r := by
  rcases h with ⟨rfl, rfl⟩ | h
  · exact .here hget
  · exact .member hget h

theorem refers_object_iff (hv : v.isObject = true) :
    v.Refers r ↔ ∃ k w, v.get k = some w ∧ EntryRefers r k w := by
  constructor
  · intro h
    cases h with
    | here hget => exact ⟨_, _, hget, Or.inl ⟨rfl, rfl⟩⟩
    | item _ _ => cases hv
    | member hget hw => exact ⟨_, _, hget, Or.inr hw⟩
  · rintro ⟨k, w, hget, hentry⟩
    exact hentry.refers hget

theorem refers_array_iff {xs : List Value} :
    (Value.array xs).Refers r ↔ ∃ x ∈ xs, x.Refers r := by
  constructor
  · intro h
    cases h with
    | here hget => cases hget
    | item hx hr => exact ⟨_, hx, hr⟩
    | member hget _ => cases hget
  · rintro ⟨x, hx, hr⟩
    exact .item hx hr

mutual

/-- The references in a value, in the order of the text. -/
def Value.refs : Value → List String
  | .array xs => Value.refsItems xs
  | .object es => Value.refsEntries es
  | _ => []

def Value.refsItems : List Value → List String
  | [] => []
  | x :: xs => x.refs ++ Value.refsItems xs

def Value.refsEntries : List (String × Value) → List String
  | [] => []
  | (k, w) :: es => (if k = "$ref" then w.asStr.toList else []) ++ w.refs ++ Value.refsEntries es

end

theorem mem_refsItems {x : Value} {xs : List Value} (hx : x ∈ xs) (h : r ∈ x.refs) :
    r ∈ Value.refsItems xs := by
  induction xs with
  | nil => cases hx
  | cons y ys ih =>
      rw [Value.refsItems, List.mem_append]
      rcases List.mem_cons.mp hx with rfl | hx
      · exact Or.inl h
      · exact Or.inr (ih hx)

theorem mem_refsEntries {es : List (String × Value)} (hmem : (k, w) ∈ es)
    (h : (k = "$ref" ∧ w = .string r) ∨ r ∈ w.refs) : r ∈ Value.refsEntries es := by
  induction es with
  | nil => cases hmem
  | cons e es ih =>
      obtain ⟨l, x⟩ := e
      rw [Value.refsEntries, List.mem_append, List.mem_append]
      rcases List.mem_cons.mp hmem with heq | hmem
      · cases heq
        rcases h with ⟨rfl, rfl⟩ | h
        · exact Or.inl (Or.inl (by simp [Value.asStr]))
        · exact Or.inl (Or.inr h)
      · exact Or.inr (ih hmem)

/-- The references that stand in a value are found in it. -/
theorem Value.Refers.mem_refs (h : v.Refers r) : r ∈ v.refs := by
  induction h with
  | here hget =>
      obtain ⟨es, rfl⟩ := Value.isObject_iff.mp (Value.isObject_of_get hget)
      exact mem_refsEntries (mem_of_lookup_eq_some hget) (Or.inl ⟨rfl, rfl⟩)
  | item hx _ ih => exact mem_refsItems hx ih
  | member hget _ ih =>
      obtain ⟨es, rfl⟩ := Value.isObject_iff.mp (Value.isObject_of_get hget)
      exact mem_refsEntries (mem_of_lookup_eq_some hget) (Or.inr ih)

theorem entryRefers_iff_refers (hk : k ≠ "$ref") : EntryRefers r k w ↔ w.Refers r :=
  or_iff_right fun h => hk h.1

end

/-! ## §2  Local references -/

/-- A segment of a JSON pointer without its escapes. -/
def unescape (segment : String) : String :=
  String.ofList (Text.replacePair '~' '0' '~' (Text.replacePair '~' '1' '/' segment.toList))

/-- The section and the name of a reference `#/components/<section>/<name>`. -/
def componentRef (r : String) : Option (String × String) :=
  match Text.split '/' r with
  | ["#", "components", sec, name] => some (unescape sec, unescape name)
  | _ => none

/-- What stands under a name in a section of the components. -/
def Value.component (spec : Value) (sec name : String) : Option Value :=
  ((spec.get "components").bind (·.get sec)).bind (·.get name)

/-- Every local reference of the document resolves in it. -/
def RefsResolve (spec : Value) : Prop :=
  ∀ r sec name, spec.Refers r → componentRef r = some (sec, name) →
    (spec.component sec name).isSome = true

theorem refsResolve_of_refs {spec : Value} (h : ∀ r ∈ spec.refs, ∀ p ∈ componentRef r,
    (spec.component p.1 p.2).isSome = true) : RefsResolve spec :=
  fun r sec name hrefers href => h r hrefers.mem_refs (sec, name) href

example : componentRef "#/components/schemas/a~1b" = some ("schemas", "a/b") := by decide

end SpecForge
