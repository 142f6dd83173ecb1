import SpecForge.Core.SwaggerExport
import SpecForge.Lib.Acyclic

/-!
# When inlining ends

The walk goes on in what it has just put in, and nothing is remembered, so it does not end on a
definition that refers to itself. It ends exactly where no reference it meets leads, through what
the references stand for, to one that leads back to itself.

- §1 the references met; §2 when the walk ends.
-/

namespace SpecForge

open Lib
open Relation (ReflTransGen TransGen)

/-! ## §1  The references met -/

def Value.refText (v : Value) : Option String := (v.get "$ref").bind Value.asStr

/-- The walk along `v` comes to `x` before it has replaced anything. -/
def Visible (components : Value) : Value → Value → Prop :=
  ReflTransGen fun v w => lookedUp components v = none ∧ Value.Part v w

/-- The walk along `v` comes to an object with the reference `a`, which it can look up. -/
def Meets (components v : Value) (a : String) : Prop :=
  ∃ x, Visible components v x ∧ x.refText = some a ∧ (resolveRef a components).isSome = true

/-- In what `a` stands for the walk meets `b`. -/
def Next (components : Value) (a b : String) : Prop :=
  ∃ u, resolveRef a components = some u ∧ Meets components u b

section

variable {components v w u x : Value} {a b k : String}

theorem lookedUp_eq_some_iff : lookedUp components v = some u ↔
    ∃ a, v.refText = some a ∧ resolveRef a components = some u :=
  Option.bind_eq_some_iff

/-! The references met are finitely many. -/

theorem mem_refs_of_part (hpart : Value.Part v w) (h : b ∈ w.refs) : b ∈ v.refs := by
  cases hpart with
  | item hx => exact mem_refsItems hx h
  | member he => exact mem_refsEntries he (Or.inr h)

theorem mem_refs_of_meets (h : Meets components v b) : b ∈ v.refs := by
  obtain ⟨x, hvisible, href, -⟩ := h
  have hx : b ∈ x.refs := by
    obtain ⟨e, he, hstr⟩ := Option.bind_eq_some_iff.mp href
    cases e with
    | string s =>
        obtain rfl := Option.some.inj hstr
        exact Value.Refers.mem_refs (.here he)
    | _ => cases hstr
  clear href
  induction hvisible with
  | refl => exact hx
  | tail _ hstep ih => exact ih (mem_refs_of_part hstep.2 hx)

theorem mem_refs_of_resolveRef (h : resolveRef a components = some u) (hb : b ∈ u.refs) :
    b ∈ components.refs := by
  have hget : ∀ {v w : Value} {k : String}, v.get k = some w → b ∈ w.refs → b ∈ v.refs := by
    intro v w k hget hw
    obtain ⟨es, rfl⟩ := Value.isObject_iff.mp (Value.isObject_of_get hget)
    exact mem_refsEntries (mem_of_lookup_eq_some hget) (Or.inr hw)
  have hfold : ∀ (segments : List String) {v : Value},
      segments.foldlM (fun current segment => current.get (unescape segment)) v = some u →
      b ∈ v.refs := by
    intro segments
    induction segments with
    | nil =>
        intro v h
        obtain rfl := Option.some.inj h
        exact hb
    | cons segment segments ih =>
        intro v h
        obtain ⟨w, hw, hrest⟩ := Option.bind_eq_some_iff.mp h
        exact hget hw (ih hrest)
  obtain ⟨refPath, -, h⟩ := Option.bind_eq_some_iff.mp h
  dsimp only at h
  split at h
  · cases h
  · exact hfold _ h

/-! ## §2  When the walk ends -/

theorem calls_of_visible (h : Visible components v x) : ReflTransGen (WalkCalls components) v x := by
  induction h with
  | refl => exact .refl
  | tail _ hstep ih => exact ih.tail (.part hstep.1 hstep.2)

/-- The walk goes on to what a reference it meets stands for. -/
theorem calls_of_meets (h : Meets components v a) :
    ∃ u, resolveRef a components = some u ∧ TransGen (WalkCalls components) v u := by
  obtain ⟨x, hvisible, href, hsome⟩ := h
  obtain ⟨u, hu⟩ := Option.isSome_iff_exists.mp hsome
  refine ⟨u, hu, .tail' (calls_of_visible hvisible) (.resolved ?_)⟩
  exact lookedUp_eq_some_iff.mpr ⟨a, href, hu⟩

/-- A step between references is a run of calls between what they stand for. -/
theorem calls_of_next (h : Next components a b) (hu : resolveRef a components = some u) :
    ∃ w, resolveRef b components = some w ∧ TransGen (WalkCalls components) u w := by
  obtain ⟨u', hu', hmeets⟩ := h
  obtain rfl := Option.some.inj (hu'.symm.trans hu)
  exact calls_of_meets hmeets

theorem calls_of_nexts (h : ReflTransGen (Next components) a b)
    (hu : resolveRef a components = some u) :
    ∃ w, resolveRef b components = some w ∧ ReflTransGen (WalkCalls components) u w := by
  induction h with
  | refl => exact ⟨u, hu, .refl⟩
  | tail _ hstep ih =>
      obtain ⟨w, hw, hrun⟩ := ih
      obtain ⟨w', hw', hrun'⟩ := calls_of_next hstep hw
      exact ⟨w', hw', hrun.trans hrun'.to_reflTransGen⟩

theorem acc_of_calls (hacc : Acc (fun w v => WalkCalls components v w) v)
    (h : ReflTransGen (WalkCalls components) v w) :
    Acc (fun w v => WalkCalls components v w) w := by
  induction h with
  | refl => exact hacc
  | tail _ hstep ih => exact ih.inv hstep

/-- A value is as well-behaved as what the references met in it stand for. -/
theorem acc_of_meets (h : ∀ a u, Meets components v a → resolveRef a components = some u →
    Acc (fun w v => WalkCalls components v w) u) :
    Acc (fun w v => WalkCalls components v w) v := by
  induction v using Value.part_induction with
  | hstep v ih =>
      refine ⟨v, fun w hcall => ?_⟩
      cases hcall with
      | resolved hu =>
          obtain ⟨a, href, hu⟩ := lookedUp_eq_some_iff.mp hu
          exact h a w ⟨v, .refl, href, Option.isSome_iff_exists.mpr ⟨w, hu⟩⟩ hu
      | part hnone hpart =>
          refine ih w hpart fun a u hmeets hu => h a u ?_ hu
          obtain ⟨x, hvisible, hx⟩ := hmeets
          exact ⟨x, hvisible.head ⟨hnone, hpart⟩, hx⟩

/-- **The walk ends if and only if no reference that it meets leads to one that leads back to
itself.** -/
theorem resolveRefsInValue_ends_iff (components v : Value) :
    (∃ n w, resolveRefsInValue components n v = some w) ↔
      ∀ a, Meets components v a → ∀ b, ReflTransGen (Next components) a b →
        ¬ TransGen (Next components) b b := by
  have hreturns : (∃ n w, resolveRefsInValue components n v = some w) ↔
      ∃ w, WalksTo components v w := exists_comm
  rw [hreturns, walks_iff_acc]
  constructor
  · intro hacc a hmeets b hab hcycle
    obtain ⟨u, hu, hvu⟩ := calls_of_meets hmeets
    obtain ⟨w, hw, huw⟩ := calls_of_nexts hab hu
    obtain ⟨c, hbc, hcb⟩ := TransGen.head'_iff.mp hcycle
    obtain ⟨x, hx, hwx⟩ := calls_of_next hbc hw
    obtain ⟨w', hw', hxw⟩ := calls_of_nexts hcb hx
    obtain rfl := Option.some.inj (hw'.symm.trans hw)
    have haccw := acc_of_calls hacc (hvu.to_reflTransGen.trans huw)
    exact not_transGen_of_acc haccw (hwx.trans_left hxw)
  · intro hcycles
    -- of the references that the walk meets in the end, none leads back to itself
    let met (a : String) : Prop := ∃ a₀, Meets components v a₀ ∧ ReflTransGen (Next components) a₀ a
    let next (a b : String) : Prop := met a ∧ Next components a b
    have hacyclic : Acyclic next := by
      intro a ha
      obtain ⟨b, ⟨⟨a₀, hmeets, hrun⟩, -⟩, -⟩ := TransGen.head'_iff.mp ha
      exact hcycles a₀ hmeets a hrun (TransGen.mono (fun _ _ h => h.2) _ _ ha)
    have hsources : ∀ a b, next a b → a ∈ v.refs ++ components.refs := by
      rintro a b ⟨⟨a₀, hmeets, hrun⟩, -⟩
      rcases ReflTransGen.cases_tail hrun with rfl | ⟨c, -, u, hu, hmeets'⟩
      · exact List.mem_append_left _ (mem_refs_of_meets hmeets)
      · exact List.mem_append_right _ (mem_refs_of_resolveRef hu (mem_refs_of_meets hmeets'))
    have hacc : ∀ a, met a → ∀ u, resolveRef a components = some u →
        Acc (fun w v => WalkCalls components v w) u := by
      intro a
      induction a using Acyclic.induction hacyclic _ hsources with
      | hstep a ih =>
          intro hmet u hu
          apply acc_of_meets
          intro b w hmeets hw
          have hnext : Next components a b := ⟨u, hu, hmeets⟩
          obtain ⟨a₀, ha₀, hrun⟩ := hmet
          exact ih b ⟨⟨a₀, ha₀, hrun⟩, hnext⟩ ⟨a₀, ha₀, hrun.tail hnext⟩ w hw
    exact acc_of_meets fun a u hmeets hu => hacc a ⟨a, hmeets, .refl⟩ u hu

end

/-- A node of a list refers to the next one. -/
def nodeComponents : Value := .object [("schemas", .object [("Node", .object [("properties",
  .object [("next", .object [("$ref", .string "#/components/schemas/Node")])])])])]

/-- Inlining a node never ends. -/
theorem inlining_node_never_ends : ¬ ∃ n w, resolveRefsInValue nodeComponents n
    (.object [("$ref", .string "#/components/schemas/Node")]) = some w := by
  rintro ⟨n, w, h⟩
  have hacc := walks_iff_acc.mp ⟨w, n, h⟩
  apply not_transGen_of_acc hacc
  refine .head (.resolved rfl) (.head (.part rfl (.member List.mem_cons_self)) ?_)
  exact .single (.part rfl (.member List.mem_cons_self))

end SpecForge
