import SpecForge.Core.Json
import SpecForge.Lib.JsonLayout

/-!
# Writers of JSON

A value says a tree: its entries in their order, its strings by code units, its numbers by the
texts that are written of them. The writer itself is not part of the program. All that is known of
it is that what it writes, on one line or on several, is a JSON text that says the value.

- §1 what a value says; §2 values without numbers, which their trees tell apart; §3 writers.
-/

namespace SpecForge.Json

open Lib Lib.JsonText Quoted

/-! ## §1  What a value says -/

section Tree

variable (number : Number → List Char)

mutual

def tree : Value → Tree
  | .null => .null
  | .bool b => .bool b
  | .number n => .number (number n)
  | .string s => .string (units s.toList)
  | .array items => .array (treeItems items)
  | .object entries => .object (treeEntries entries)

def treeItems : List Value → List Tree
  | [] => []
  | v :: vs => tree v :: treeItems vs

def treeEntries : List (String × Value) → List (List ℕ × Tree)
  | [] => []
  | (k, v) :: es => (units k.toList, tree v) :: treeEntries es

end

theorem treeItems_eq_map (items : List Value) :
    treeItems number items = items.map (tree number) := by
  induction items with
  | nil => rfl
  | cons v vs ih => rw [treeItems, ih, List.map_cons]

theorem treeEntries_eq_map (entries : List (String × Value)) :
    treeEntries number entries = entries.map fun e => (units e.1.toList, tree number e.2) := by
  induction entries with
  | nil => rfl
  | cons e es ih => rw [treeEntries, ih, List.map_cons]

end Tree

/-! ## §2  Values without numbers -/

/-- There is no number in the value. -/
inductive Numberless : Value → Prop where
  | null : Numberless .null
  | bool (b : Bool) : Numberless (.bool b)
  | string (s : String) : Numberless (.string s)
  | array {items} (h : ∀ v ∈ items, Numberless v) : Numberless (.array items)
  | object {entries} (h : ∀ e ∈ entries, Numberless e.2) : Numberless (.object entries)

section

variable {number : Number → List Char}

/-- Elements are told apart where their images are. -/
theorem eq_of_map_eq {α β : Type} {f : α → β} : ∀ {l l' : List α}, l.map f = l'.map f →
    (∀ a ∈ l, ∀ b ∈ l', f a = f b → a = b) → l = l'
  | [], [], _, _ => rfl
  | [], b :: l', heq, _ => by cases heq
  | a :: l, [], heq, _ => by cases heq
  | a :: l, b :: l', heq, h => by
      rw [List.map_cons, List.map_cons, List.cons.injEq] at heq
      have hhead := h a List.mem_cons_self b List.mem_cons_self heq.1
      have htail : l = l' := eq_of_map_eq heq.2 fun x hx y hy =>
        h x (List.mem_cons_of_mem _ hx) y (List.mem_cons_of_mem _ hy)
      rw [hhead, htail]

/-- Values without numbers say different things. -/
theorem Numberless.eq_of_tree_eq {v : Value} (hv : Numberless v) : ∀ {w : Value}, Numberless w →
    tree number v = tree number w → v = w := by
  induction hv with
  | null =>
      intro w hw heq
      cases hw <;> cases heq
      rfl
  | bool b =>
      intro w hw heq
      cases hw <;> cases heq
      rfl
  | string s =>
      intro w hw heq
      cases hw with
      | string t =>
          rw [tree, tree, Tree.string.injEq, units_injective.eq_iff, String.toList_inj] at heq
          rw [heq]
      | _ => cases heq
  | @array items h ih =>
      intro w hw heq
      cases hw with
      | @array items' h' =>
          rw [tree, tree, Tree.array.injEq, treeItems_eq_map, treeItems_eq_map] at heq
          rw [eq_of_map_eq heq fun v hv w hw => ih v hv (h' w hw)]
      | _ => cases heq
  | @object entries h ih =>
      intro w hw heq
      cases hw with
      | @object entries' h' =>
          rw [tree, tree, Tree.object.injEq, treeEntries_eq_map, treeEntries_eq_map] at heq
          rw [eq_of_map_eq heq fun e he e' he' hentry => ?_]
          obtain ⟨hname, htree⟩ := Prod.mk.inj hentry
          rw [units_injective.eq_iff, String.toList_inj] at hname
          exact Prod.ext hname (ih e he (h' e' he') htree)
      | _ => cases heq

end

/-! ## §3  Writers -/

/-- `serde_json`: `to_string` and `to_string_pretty`, and the texts of numbers. -/
structure Writer where
  number : Number → List Char
  toText : Value → List Char
  toTextPretty : Value → List Char
  toText_reads : ∀ v, Lib.JsonText.Reads (toText v) (tree number v)
  toTextPretty_reads : ∀ v, Lib.JsonText.Reads (toTextPretty v) (tree number v)

namespace Writer

variable {W : Writer} {v w : Value}

theorem toText_inj (hv : Numberless v) (hw : Numberless w) (h : W.toText v = W.toText w) :
    v = w := by
  have hparses := (W.toText_reads v).parses
  rw [h] at hparses
  exact hv.eq_of_tree_eq hw (hparses.unique (W.toText_reads w).parses)

theorem toTextPretty_inj (hv : Numberless v) (hw : Numberless w)
    (h : W.toTextPretty v = W.toTextPretty w) : v = w := by
  have hparses := (W.toTextPretty_reads v).parses
  rw [h] at hparses
  exact hv.eq_of_tree_eq hw (hparses.unique (W.toTextPretty_reads w).parses)

end Writer

end SpecForge.Json
