import SpecForge.Core.Ir
import SpecForge.Lib.Acyclic

/-!
# References between models

What a walk along a type can reach next: the parts of the type, and behind a
reference the shape and the properties of the model it names (`Consults`).
When the references of a registry are acyclic every such walk ends
(`consults_wellFounded`), so a property of types may be proved from the types
consulted next (`Consults.induction`). §4 lists the types that occur in a document.
-/

namespace SpecForge

open Lib

/-! ## §1  Induction on types -/

/-- Structural induction with the members of a composition at hand. -/
@[elab_as_elim]
theorem IrType.induction {P : IrType → Prop}
    (scalar : ∀ s, P (.scalar s))
    (stringEnum : ∀ variants nullable, P (.stringEnum variants nullable))
    (array : ∀ item nullable, P item → P (.array item nullable))
    (map : ∀ value, P value → P (.map value))
    (reference : ∀ name nullable description, P (.reference name nullable description))
    (composition : ∀ kind members discriminator, (∀ m ∈ members, P m) →
      P (.composition kind members discriminator))
    (any : P .any) (unknown : P .unknown) : ∀ t, P t
  | .scalar s => scalar s
  | .stringEnum variants nullable => stringEnum variants nullable
  | .array item nullable =>
      array item nullable (IrType.induction scalar stringEnum array map reference
        composition any unknown item)
  | .map value =>
      map value (IrType.induction scalar stringEnum array map reference composition any
        unknown value)
  | .reference name nullable description => reference name nullable description
  | .composition kind members discriminator =>
      composition kind members discriminator fun m _ =>
        IrType.induction scalar stringEnum array map reference composition any unknown m
  | .any => any
  | .unknown => unknown

/-! ## §2  What refers to what -/

mutual

/-- The names a type refers to. -/
def IrType.refs : IrType → List String
  | .array item _ => item.refs
  | .map value => value.refs
  | .reference name _ _ => [name]
  | .composition _ members _ => refsOfMembers members
  | _ => []

def refsOfMembers : List IrType → List String
  | [] => []
  | m :: ms => m.refs ++ refsOfMembers ms

end

theorem mem_refsOfMembers {name : String} {m : IrType} (hn : name ∈ m.refs) :
    ∀ {ms : List IrType}, m ∈ ms → name ∈ refsOfMembers ms
  | m' :: ms, hm => by
      rw [refsOfMembers, List.mem_append]
      rcases List.mem_cons.mp hm with rfl | hm
      · exact Or.inl hn
      · exact Or.inr (mem_refsOfMembers hn hm)

/-- `s` is what a walk along `t` can continue with. -/
inductive Consults (reg : SchemaRegistry) : IrType → IrType → Prop where
  | item {item nullable} : Consults reg (.array item nullable) item
  | entry {value} : Consults reg (.map value) value
  | member {kind members discriminator m} : m ∈ members →
      Consults reg (.composition kind members discriminator) m
  | shape {name nullable description o s} : reg.get name = some (.object o) →
      o.shapeType = some s → Consults reg (.reference name nullable description) s
  | property {name nullable description o p} : reg.get name = some (.object o) →
      p ∈ o.properties → Consults reg (.reference name nullable description) p.ty

/-- The model `a` names the model `b` in its shape or in a property. -/
def SchemaRegistry.RefersTo (reg : SchemaRegistry) (a b : String) : Prop :=
  ∃ o, reg.get a = some (.object o) ∧
    ((∃ s, o.shapeType = some s ∧ b ∈ s.refs) ∨ ∃ p ∈ o.properties, b ∈ p.ty.refs)

/-- No model refers back to itself, directly or through others. -/
def SchemaRegistry.AcyclicRefs (reg : SchemaRegistry) : Prop := Acyclic reg.RefersTo

/-! ## §3  Acyclic registries -/

/-- A type is as well-behaved as the models it refers to. -/
theorem acc_consults {reg : SchemaRegistry} (t : IrType)
    (h : ∀ name ∈ t.refs, ∀ nullable description,
      Acc (fun s t => Consults reg t s) (.reference name nullable description)) :
    Acc (fun s t => Consults reg t s) t := by
  induction t using IrType.induction with
  | scalar s =>
      refine ⟨_, fun s hs => ?_⟩
      cases hs
  | stringEnum variants nullable =>
      refine ⟨_, fun s hs => ?_⟩
      cases hs
  | array item nullable ih =>
      refine ⟨_, fun s hs => ?_⟩
      cases hs
      exact ih h
  | map value ih =>
      refine ⟨_, fun s hs => ?_⟩
      cases hs
      exact ih h
  | reference name nullable description =>
      exact h name (List.mem_singleton.mpr rfl) nullable description
  | composition kind members discriminator ih =>
      refine ⟨_, fun s hs => ?_⟩
      cases hs with
      | member hm => exact ih s hm fun name hn => h name (mem_refsOfMembers hn hm)
  | any =>
      refine ⟨_, fun s hs => ?_⟩
      cases hs
  | unknown =>
      refine ⟨_, fun s hs => ?_⟩
      cases hs

/-- **On an acyclic registry every walk ends.** -/
theorem consults_wellFounded {reg : SchemaRegistry} (hac : reg.AcyclicRefs) :
    WellFounded fun s t => Consults reg t s := by
  have hsrc : ∀ a b, reg.RefersTo a b → a ∈ reg.names := by
    rintro a b ⟨o, ho, -⟩
    exact IndexMap.mem_keys_of_get ho
  have hname : ∀ name, ∀ nullable description,
      Acc (fun s t => Consults reg t s) (.reference name nullable description) := by
    intro name
    -- the models that are referred to first, then the types inside this one
    induction name using Acyclic.induction hac reg.names hsrc with
    | hstep name ih =>
        intro nullable description
        refine ⟨_, fun s hs => acc_consults s fun b hb => ?_⟩
        cases hs with
        | shape hget hshape => exact ih b ⟨_, hget, Or.inl ⟨_, hshape, hb⟩⟩
        | property hget hp => exact ih b ⟨_, hget, Or.inr ⟨_, hp, hb⟩⟩
  exact ⟨fun t => acc_consults t fun name _ => hname name⟩

/-- Induction on what is consulted next. -/
theorem Consults.induction {reg : SchemaRegistry} (hac : reg.AcyclicRefs)
    {P : IrType → Prop} (hstep : ∀ t, (∀ s, Consults reg t s → P s) → P t) (t : IrType) :
    P t :=
  (consults_wellFounded hac).induction t hstep

/-! ## §4  The types of a document -/

def Model.types : Model → List IrType
  | .object o => o.properties.map (·.ty) ++ o.additionalProperties.toList
      ++ o.shapeType.toList ++ o.baseType.toList
  | .enum _ => []

def Operation.types (op : Operation) : List IrType :=
  op.parameters.map (·.ty) ++ (op.requestBody.map (·.ty)).toList ++ op.responses.filterMap (·.body)

def Webhook.types (w : Webhook) : List IrType :=
  (w.requestBody.map (·.ty)).toList ++ w.responses.filterMap (·.body)

def Document.types (d : Document) : List IrType :=
  d.schemas.models.values.flatMap Model.types ++ d.operations.flatMap Operation.types
    ++ d.webhooks.flatMap Webhook.types

/-- `s` stands directly inside `t`. -/
inductive IrType.Part : IrType → IrType → Prop where
  | item {item nullable} : Part (.array item nullable) item
  | entry {value} : Part (.map value) value
  | member {kind members discriminator m} : m ∈ members →
      Part (.composition kind members discriminator) m

/-- The document mentions `t`, at any depth of one of its types. -/
def Document.HasType (d : Document) (t : IrType) : Prop :=
  ∃ root ∈ d.types, Relation.ReflTransGen IrType.Part root t

theorem Document.hasType_of_model {d : Document} {name : String} {m : Model} {t : IrType}
    (hget : d.schemas.get name = some m) (ht : t ∈ m.types) : d.HasType t := by
  refine ⟨t, ?_, Relation.ReflTransGen.refl⟩
  have hm : m ∈ d.schemas.models.values :=
    List.mem_map.mpr ⟨(name, m), IndexMap.mem_entries_iff.mpr hget, rfl⟩
  exact List.mem_append_left _ (List.mem_append_left _ (List.mem_flatMap.mpr ⟨m, hm, ht⟩))

theorem Document.HasType.part {d : Document} {t s : IrType} (ht : d.HasType t)
    (h : Relation.ReflTransGen IrType.Part t s) : d.HasType s := by
  obtain ⟨root, hroot, hrt⟩ := ht
  exact ⟨root, hroot, hrt.trans h⟩

end SpecForge
