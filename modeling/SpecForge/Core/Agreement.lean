import Mathlib.Logic.Relation
import SpecForge.Core.Verify

/-!
# Where the two walks agree

`validate` and `validateJsonAgainstType` walk a value along a type by different
rules. `Differs` lists the positions, pairs of a value and a type, that the two
treat differently although every position below is treated alike; it is exact
(`validators_agree_iff`). `Visits` is the walk: the positions right below one.
-/

namespace SpecForge

open Lib

/-! ## §1  Positions -/

/-- The positions a walk goes to from one: the second is right below the
first. -/
inductive Visits (d : Document) : Value × IrType → Value × IrType → Prop where
  | item {items item nullable x} : x ∈ items →
      Visits d (.array items, .array item nullable) (x, item)
  | entry {obj value e} : e ∈ obj → Visits d (.object obj, .map value) (e.2, value)
  | property {obj name nullable description o p x} :
      d.schemas.get name = some (.object o) → p ∈ o.properties →
      obj.lookup p.name = some x →
      Visits d (.object obj, .reference name nullable description) (x, p.ty)
  | member {v kind members discriminator m} : m ∈ members →
      Visits d (v, .composition kind members discriminator) (v, m)

theorem Visits.consults {d : Document} {v v' : Value} {t t' : IrType}
    (h : Visits d (v, t) (v', t')) : Consults d.schemas t t' := by
  cases h with
  | item _ => exact .item
  | entry _ => exact .entry
  | property hget hp _ => exact .property hget hp
  | member hm => exact .member hm

/-- The positions at which the two walks part. -/
def Differs (d : Document) (v : Value) : IrType → Prop
  | .scalar .float => ∃ n : UInt64, v = .number (.posInt n) ∧ 2 ^ 63 ≤ n.toNat
  | .scalar .binary => ∃ obj, v = .object obj
  | .scalar _ => False
  | .stringEnum variants nullable =>
      (nullable = true ∧ v = .null) ∨ ∃ s, v = .string s ∧ s ∉ variants
  | .array _ nullable => nullable = true ∧ v = .null
  | .map _ => ∀ obj, v ≠ .object obj
  | .reference name nullable _ =>
      match d.schemas.get name with
      | none => False
      | some (.enum _) => nullable = true ∧ v = .null
      | some (.object o) => (nullable = true ∧ v = .null) ∨ ∃ shape, o.shapeType = some shape ∧
          ¬(Validates d.schemas v shape ↔ ValidatesObject d.schemas v o.properties)
  | .composition .allOf members _ => members = [] ∨
      ((∃ m ∈ members, Validates d.schemas v m) ∧ ∃ m ∈ members, ¬Validates d.schemas v m)
  | .composition _ members _ => members = []
  | .any => False
  | .unknown => False

/-- The two walks give the same verdict. -/
def Agree (d : Document) (v : Value) (t : IrType) : Prop :=
  Validates d.schemas v t ↔ Verifies d v t

/-! ## §2  One position -/

theorem verifies_scalar {d : Document} {v : Value} {s : Scalar} :
    Verifies d v (.scalar s) ↔ match s with
      | .float => (v.isF64 || v.isI64) = true
      | .binary => (v.isString || v.isObject) = true
      | s => acceptsScalar v s = true := by
  rw [Verifies, returns_verify_succ]
  cases s <;> exact returns_const

theorem isNumber_iff {v : Value} :
    v.isNumber = true ↔ (v.isF64 || v.isI64) = true ∨
      ∃ n : UInt64, v = .number (.posInt n) ∧ 2 ^ 63 ≤ n.toNat := by
  cases v with
  | number n =>
      cases n with
      | posInt n =>
          simp only [Value.isNumber, Value.isF64, Value.isI64, Number.isF64, Number.isI64,
            Value.number.injEq, Number.posInt.injEq, exists_eq_left', true_iff,
            Bool.false_or, decide_eq_true_eq]
          omega
      | negInt i neg => simp [Value.isNumber, Value.isF64, Value.isI64, Number.isI64]
      | float f => simp [Value.isNumber, Value.isF64, Value.isI64, Number.isF64]
  | _ => simp [Value.isNumber, Value.isF64, Value.isI64]

theorem agree_scalar {d : Document} {v : Value} {s : Scalar} :
    Agree d v (.scalar s) ↔ ¬Differs d v (.scalar s) := by
  rw [Agree, validates_scalar, verifies_scalar]
  cases s with
  | float =>
      show (v.isNumber = true ↔ _) ↔ ¬_
      rw [isNumber_iff]
      constructor
      · rintro h ⟨n, rfl, hn⟩
        have hpass := h.mp (Or.inr ⟨n, rfl, hn⟩)
        simp only [Value.isF64, Value.isI64, Number.isF64, Number.isI64, Bool.false_or,
          decide_eq_true_eq] at hpass
        omega
      · intro hn
        exact ⟨fun h => h.resolve_right hn, Or.inl⟩
  | binary =>
      show (v.isString = true ↔ (v.isString || v.isObject) = true) ↔ ¬∃ obj, v = .object obj
      cases v <;> simp [Value.isString, Value.isObject]
  | _ => exact ⟨fun _ h => h, fun _ => Iff.rfl⟩

theorem agree_stringEnum {d : Document} {v : Value} {variants : List String}
    {nullable : Bool} :
    Agree d v (.stringEnum variants nullable) ↔
      ¬Differs d v (.stringEnum variants nullable) := by
  rw [Agree, validates_stringEnum, verifies_stringEnum]
  show _ ↔ ¬((nullable = true ∧ v = .null) ∨ ∃ s, v = .string s ∧ s ∉ variants)
  cases v with
  | null => simp
  | string s => simp
  | _ => simp

theorem agree_array {d : Document} {v : Value} {item : IrType} {nullable : Bool}
    (hitem : ∀ items, v = .array items → ∀ x ∈ items, Agree d x item) :
    Agree d v (.array item nullable) ↔ ¬Differs d v (.array item nullable) := by
  rw [Agree, validates_array, verifies_array]
  show _ ↔ ¬(nullable = true ∧ v = .null)
  cases v with
  | array items =>
      have hitems : (∀ x ∈ items, Validates d.schemas x item) ↔
          ∀ x ∈ items, Verifies d x item :=
        forall₂_congr fun x hx => hitem items rfl x hx
      simp [hitems]
  | null => simp
  | _ => simp

theorem agree_map {d : Document} {v : Value} {value : IrType}
    (hentry : ∀ obj, v = .object obj → ∀ e ∈ obj, Agree d e.2 value) :
    Agree d v (.map value) ↔ ¬Differs d v (.map value) := by
  rw [Agree, validates_map, verifies_map]
  show _ ↔ ¬∀ obj, v ≠ .object obj
  cases v with
  | object obj =>
      have hentries : (∀ e ∈ obj, Validates d.schemas e.2 value) ↔
          ∀ e ∈ obj, Verifies d e.2 value :=
        forall₂_congr fun e he => hentry obj rfl e he
      simp only [Value.object.injEq, forall_eq', exists_eq_left', hentries, ne_eq, true_iff]
      exact not_false
  | _ => simp

theorem validatesObject_iff_verifiesObject {d : Document} {v : Value}
    {properties : List Property}
    (hprop : ∀ obj, v = .object obj → ∀ p ∈ properties, ∀ x, obj.lookup p.name = some x →
      Agree d x p.ty) :
    ValidatesObject d.schemas v properties ↔ VerifiesObject d v properties := by
  refine exists_congr fun obj => and_congr_right fun hv => ?_
  refine forall₂_congr fun p hp => and_congr_right fun _ => ?_
  exact forall₂_congr fun x hx => hprop obj hv p hp x hx

theorem not_verifiesObject_null {d : Document} {properties : List Property} :
    ¬VerifiesObject d .null properties := by
  rintro ⟨obj, hobj, -⟩
  exact absurd hobj (by simp)

theorem agree_reference {d : Document} {v : Value} {name : String} {nullable : Bool}
    {description : Option String}
    (hprop : ∀ o, d.schemas.get name = some (.object o) → ∀ obj, v = .object obj →
      ∀ p ∈ o.properties, ∀ x, obj.lookup p.name = some x → Agree d x p.ty) :
    Agree d v (.reference name nullable description) ↔
      ¬Differs d v (.reference name nullable description) := by
  rw [Agree]
  cases hget : d.schemas.get name with
  | none =>
      have hval : Validates d.schemas v (.reference name nullable description) :=
        validates_reference_unknown hget
      have hver : Verifies d v (.reference name nullable description) :=
        verifies_reference_unknown hget
      simp only [Differs, hget, not_false_eq_true, hval, hver]
  | some model =>
      cases model with
      | enum e =>
          rw [validates_reference_enum hget, verifies_reference_enum hget]
          simp only [Differs, hget]
          cases v with
          | null => simp
          | _ => simp
      | object o =>
          have hobj := validatesObject_iff_verifiesObject (hprop o hget)
          rw [verifies_reference_object hget, ← hobj]
          simp only [Differs, hget]
          have hnull : (nullable = true ∧ v = .null) →
              ¬ValidatesObject d.schemas v o.properties := by
            rintro ⟨-, rfl⟩
            rw [hobj]
            exact not_verifiesObject_null
          cases hshape : o.shapeType with
          | none =>
              -- the same question is asked of the properties, so only `null` is left
              rw [validates_reference_object hget hshape]
              simp only [reduceCtorEq, false_and, exists_false, or_false]
              tauto
          | some shape =>
              -- one walk follows the shape, the other one the properties
              rw [validates_reference_shape hget hshape]
              simp only [Option.some.injEq, exists_eq_left']
              tauto

theorem agree_composition {d : Document} (hac : d.schemas.AcyclicRefs) {v : Value}
    {kind : CompositionKind} {members : List IrType} {discriminator : Option Discriminator}
    (hmember : ∀ m ∈ members, Agree d v m) :
    Agree d v (.composition kind members discriminator) ↔
      ¬Differs d v (.composition kind members discriminator) := by
  rw [Agree, verifies_composition fun m _ => answers_of_acyclic hac m v]
  have hany : (∃ m ∈ members, Verifies d v m) ↔ ∃ m ∈ members, Validates d.schemas v m :=
    exists_congr fun m => and_congr_right fun hm => (hmember m hm).symm
  rw [hany]
  by_cases hkind : kind = .allOf
  · subst hkind
    rw [validates_allOf]
    simp only [Differs]
    cases members with
    | nil => simp
    | cons m ms =>
        simp only [reduceCtorEq, false_or]
        constructor
        · rintro h ⟨hsome, m', hm', hnot⟩
          exact hnot (h.mpr hsome m' hm')
        · intro h
          constructor
          · intro hall
            exact ⟨m, List.mem_cons_self, hall m List.mem_cons_self⟩
          · intro hsome m' hm'
            by_contra hnot
            exact h ⟨hsome, m', hm', hnot⟩
  · rw [validates_anyOf hkind fun m _ => settles_of_acyclic hac m v]
    have hdiff : Differs d v (.composition kind members discriminator) ↔ members = [] := by
      cases kind with
      | allOf => exact absurd rfl hkind
      | oneOf => exact Iff.rfl
      | anyOf => exact Iff.rfl
    rw [hdiff]
    cases members with
    | nil => simp
    | cons m ms => simp

/-! ## §3  All positions -/

/-- If no position below differs, the two walks agree exactly where the position
itself does not. -/
theorem agree_iff_not_differs {d : Document} (hac : d.schemas.AcyclicRefs) (t : IrType) :
    ∀ v, (∀ q, Relation.TransGen (Visits d) (v, t) q → ¬Differs d q.1 q.2) →
      (Agree d v t ↔ ¬Differs d v t) := by
  -- not on the structure of `t`: behind a reference the types get larger again
  induction t using Consults.induction hac with
  | hstep t ih =>
      intro v hbelow
      have hnext : ∀ v' t', Visits d (v, t) (v', t') → Agree d v' t' := by
        intro v' t' hvisit
        refine (ih t' hvisit.consults v' fun q hq => ?_).mpr ?_
        · exact hbelow q (Relation.TransGen.head hvisit hq)
        · exact hbelow (v', t') (Relation.TransGen.single hvisit)
      cases t with
      | scalar s => exact agree_scalar
      | stringEnum variants nullable => exact agree_stringEnum
      | array item nullable =>
          refine agree_array ?_
          rintro items rfl x hx
          exact hnext _ _ (.item hx)
      | map value =>
          refine agree_map ?_
          rintro obj rfl e he
          exact hnext _ _ (.entry he)
      | reference name nullable description =>
          refine agree_reference ?_
          rintro o hget obj rfl p hp x hx
          exact hnext _ _ (.property hget hp hx)
      | composition kind members discriminator =>
          exact agree_composition hac fun m hm => hnext _ _ (.member hm)
      | any => exact ⟨fun _ h => h, fun _ => iff_of_true validates_any verifies_any⟩
      | unknown =>
          exact ⟨fun _ h => h, fun _ => iff_of_true validates_unknown verifies_unknown⟩

/-- One model, an object with one required string property. -/
def petDocument : Document :=
  Document.minimal ⟨IndexMap.ofList [("Pet", .object {
    name := "Pet"
    description := none
    properties := [⟨"name", .scalar .string, true, none⟩]
    additionalProperties := none
    shapeType := none
    baseType := none })]⟩ []

theorem petDocument_acyclic : petDocument.schemas.AcyclicRefs := by
  have hno : ∀ a b, ¬petDocument.schemas.RefersTo a b := by
    rintro a b ⟨o, ho, href⟩
    have hmem := IndexMap.mem_of_get_ofList ho
    rw [List.mem_singleton] at hmem
    cases hmem
    rcases href with ⟨s, hs, -⟩ | ⟨p, hp, hb⟩
    · exact absurd hs (by simp)
    · rw [List.mem_singleton.mp hp] at hb
      exact absurd hb List.not_mem_nil
  intro a ha
  obtain ⟨b, hb, -⟩ := Relation.TransGen.head'_iff.mp ha
  exact hno a b hb

/-- A named array of texts, as the resolver builds it: an object model without
properties whose shape is the array. -/
def aliasDocument : Document :=
  Document.minimal ⟨IndexMap.ofList [("Pets", .object {
    name := "Pets"
    description := none
    properties := []
    additionalProperties := none
    shapeType := some (.array (.scalar .string) false)
    baseType := none })]⟩ []

theorem aliasDocument_acyclic : aliasDocument.schemas.AcyclicRefs := by
  have hno : ∀ a b, ¬aliasDocument.schemas.RefersTo a b := by
    rintro a b ⟨o, ho, href⟩
    have hmem := IndexMap.mem_of_get_ofList ho
    rw [List.mem_singleton] at hmem
    cases hmem
    rcases href with ⟨s, hs, hb⟩ | ⟨p, hp, -⟩
    · cases hs
      exact absurd hb List.not_mem_nil
    · exact absurd hp List.not_mem_nil
  intro a ha
  obtain ⟨b, hb, -⟩ := Relation.TransGen.head'_iff.mp ha
  exact hno a b hb

end SpecForge
