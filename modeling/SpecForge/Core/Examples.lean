import SpecForge.Core.References
import SpecForge.Lib.Fuel

/-!
# What an example of a type consists of

The example generators walk along a type without a value to guide them: into the
item of an array, the value of a map, the first member of a composition, and
behind a reference into what the generator expands the model to. They differ in
that expansion only, which is a parameter here. Every walk from the types of a
document ends exactly if no model leads back to itself (`examples_end_iff`).
-/

namespace SpecForge

open Lib

/-- What the generator goes on with at a type. -/
inductive ExampleCalls (expand : ObjectModel → List IrType) (reg : SchemaRegistry) :
    IrType → IrType → Prop where
  | item {item nullable} : ExampleCalls expand reg (.array item nullable) item
  | entry {value} : ExampleCalls expand reg (.map value) value
  | first {kind m ms discriminator} :
      ExampleCalls expand reg (.composition kind (m :: ms) discriminator) m
  | model {name nullable description o s} : reg.get name = some (.object o) → s ∈ expand o →
      ExampleCalls expand reg (.reference name nullable description) s

mutual

/-- The name the example of a type starts from, if it leads to a reference. -/
def IrType.exampleRef : IrType → Option String
  | .array item _ => item.exampleRef
  | .map value => value.exampleRef
  | .reference name _ _ => some name
  | .composition _ members _ => exampleRefOfMembers members
  | _ => none

def exampleRefOfMembers : List IrType → Option String
  | [] => none
  | m :: _ => m.exampleRef

end

/-- The example of the model `a` contains one of the model `b`. -/
def SchemaRegistry.ExampleOf (expand : ObjectModel → List IrType) (reg : SchemaRegistry)
    (a b : String) : Prop :=
  ∃ o, reg.get a = some (.object o) ∧ ∃ s ∈ expand o, s.exampleRef = some b

section

variable {expand : ObjectModel → List IrType} {reg : SchemaRegistry}

/-- A type is as well-behaved as the reference it leads to. -/
theorem acc_exampleCalls (t : IrType) (h : ∀ name, t.exampleRef = some name →
    ∀ nullable description, Acc (fun s t => ExampleCalls expand reg t s)
      (.reference name nullable description)) :
    Acc (fun s t => ExampleCalls expand reg t s) t := by
  induction t using IrType.induction with
  | array item nullable ih =>
      refine ⟨_, fun s hs => ?_⟩
      cases hs
      exact ih h
  | map value ih =>
      refine ⟨_, fun s hs => ?_⟩
      cases hs
      exact ih h
  | reference name nullable description => exact h name rfl nullable description
  | composition kind members discriminator ih =>
      refine ⟨_, fun s hs => ?_⟩
      rcases hs with _ | _ | _ | _
      exact ih s List.mem_cons_self h
  | _ =>
      refine ⟨_, fun s hs => ?_⟩
      cases hs

theorem exampleCalls_wellFounded (hac : Acyclic (reg.ExampleOf expand)) :
    WellFounded fun s t => ExampleCalls expand reg t s := by
  have hsrc : ∀ a b, reg.ExampleOf expand a b → a ∈ reg.names := by
    rintro a b ⟨o, ho, -⟩
    exact IndexMap.mem_keys_of_get ho
  have hname : ∀ name, ∀ nullable description,
      Acc (fun s t => ExampleCalls expand reg t s) (.reference name nullable description) := by
    intro name
    induction name using Acyclic.induction hac reg.names hsrc with
    | hstep name ih =>
        intro nullable description
        refine ⟨_, fun s hs => acc_exampleCalls s fun b hb => ?_⟩
        cases hs with
        | model hget hmem => exact ih b ⟨_, hget, s, hmem, hb⟩
  exact ⟨fun t => acc_exampleCalls t fun name _ => hname name⟩

/-- The walk along a type visits the reference it leads to. -/
theorem exampleCalls_of_exampleRef {b : String} : ∀ {t : IrType}, t.exampleRef = some b →
    ∃ nullable description, Relation.ReflTransGen (ExampleCalls expand reg) t
      (.reference b nullable description) := by
  intro t
  induction t using IrType.induction with
  | array item nullable ih =>
      intro hb
      obtain ⟨nullable', description, hrun⟩ := ih hb
      exact ⟨nullable', description, hrun.head .item⟩
  | map value ih =>
      intro hb
      obtain ⟨nullable', description, hrun⟩ := ih hb
      exact ⟨nullable', description, hrun.head .entry⟩
  | reference name nullable description =>
      intro hb
      cases hb
      exact ⟨nullable, description, .refl⟩
  | composition kind members discriminator ih =>
      intro hb
      rcases members with _ | ⟨m, ms⟩
      · cases hb
      · obtain ⟨nullable', description, hrun⟩ := ih m List.mem_cons_self hb
        exact ⟨nullable', description, hrun.head .first⟩
  | _ =>
      intro hb
      cases hb

theorem acc_exampleOf {a : String} {nullable : Bool} {description : Option String}
    (h : Acc (fun s t => ExampleCalls expand reg t s) (.reference a nullable description)) :
    Acc (fun b a => reg.ExampleOf expand a b) a := by
  refine acc_of_simulates (R := fun a t => ∃ nullable description,
    t = .reference a nullable description) ?_ ⟨nullable, description, rfl⟩ h
  rintro a b t ⟨o, ho, s, hs, hb⟩ ⟨nullable, description, rfl⟩
  obtain ⟨nullable', description', hrun⟩ := @exampleCalls_of_exampleRef expand reg _ _ hb
  exact ⟨_, ⟨nullable', description', rfl⟩, .head' (.model ho hs) hrun⟩

end

/-- **Every walk from the types of a document ends exactly if no model leads back
to itself**, where models expand to types of the document. -/
theorem examples_end_iff {expand : ObjectModel → List IrType} {d : Document}
    (hexpand : ∀ name o, d.schemas.get name = some (.object o) → ∀ s ∈ expand o, d.HasType s) :
    (∀ t, d.HasType t → Acc (fun s t => ExampleCalls expand d.schemas t s) t) ↔
      Acyclic (d.schemas.ExampleOf expand) := by
  constructor
  · intro hall a ha
    -- the last model of the cycle names `a` in the type it expands to
    obtain ⟨b, -, o, ho, s, hs, hsa⟩ := Relation.TransGen.tail'_iff.mp ha
    obtain ⟨nullable, description, hrun⟩ :=
      @exampleCalls_of_exampleRef expand d.schemas _ _ hsa
    have hacc := acc_of_reflTransGen (hall s (hexpand b o ho s hs)) hrun
    exact not_transGen_of_acc (acc_exampleOf hacc) ha
  · intro hac t _
    exact (exampleCalls_wellFounded hac).apply t

end SpecForge
