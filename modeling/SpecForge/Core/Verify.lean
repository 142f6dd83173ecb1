import SpecForge.Core.Validate

/-!
# The structural check of mock responses (`verify.rs`)

`validateJsonAgainstType` is the second walk of a value along a type: it
answers yes or no and stops at the first answer. As in `validate.rs` its first
number caps the call depth.

- §1 the check; §2 a larger cap never changes its answer.
- §3 `Verifies`, and what it asks constructor by constructor.
- §4 on an acyclic registry it always returns.
-/

namespace SpecForge

open Lib

/-! ## §1  The check -/

/-- `validate_json_against_object`, with the recursive call as a parameter. -/
def validateJsonAgainstObject (recurse : Value → IrType → Option Bool) (value : Value)
    (obj : ObjectModel) : Option Bool :=
  match value.asObject with
  | none => some false
  | some map =>
      if obj.properties.any (fun prop => prop.required && (map.lookup prop.name).isNone) then
        some false
      else
        obj.properties.allM fun (prop : Property) =>
          match map.lookup prop.name with
          | some val => recurse val prop.ty
          | none => some true

def validateJsonAgainstType (doc : Document) : ℕ → Value → IrType → Option Bool
  | 0, _, _ => none
  | fuel + 1, value, ty =>
    let recurse := validateJsonAgainstType doc fuel
    match ty with
    | .scalar .string | .scalar .dateTime | .scalar .uuid | .scalar .base64 =>
        some value.isString
    | .scalar .integer | .scalar .integer64 => some (value.isI64 || value.isU64)
    | .scalar .float => some (value.isF64 || value.isI64)
    | .scalar .boolean => some value.isBoolean
    | .scalar .binary => some (value.isString || value.isObject)
    -- neither the variants nor `nullable` are looked at
    | .stringEnum _ _ => some value.isString
    | .array item _ =>
        match value.asArray with
        | some arr => arr.allM fun (v : Value) => recurse v item
        | none => some false
    | .map mapVal =>
        match value.asObject with
        | some obj => obj.allM fun (x : String × Value) => recurse x.2 mapVal
        | none => some false
    | .reference name _ _ =>
        match doc.schemas.get name with
        | some (.object o) => validateJsonAgainstObject recurse value o
        | some (.enum e) =>
            match value.asStr with
            | some s => some (e.variants.any fun v => v.value == s)
            | none => some false
        | none => some true
    -- whatever the kind, one matching member is enough
    | .composition _ members _ => members.anyM fun (m : IrType) => recurse value m
    | .any | .unknown => some true

/-! ## §2  The cap -/

theorem validateJsonAgainstObject_mono {rec₁ rec₂ : Value → IrType → Option Bool}
    (h : ∀ v t b, rec₁ v t = some b → rec₂ v t = some b) {v : Value} {o : ObjectModel}
    {b : Bool} (hb : validateJsonAgainstObject rec₁ v o = some b) :
    validateJsonAgainstObject rec₂ v o = some b := by
  unfold validateJsonAgainstObject at hb ⊢
  cases hobj : v.asObject with
  | none =>
      rw [hobj] at hb
      exact hb
  | some map =>
      rw [hobj] at hb
      dsimp only at hb ⊢
      split
      · next hmissing =>
          rw [if_pos hmissing] at hb
          exact hb
      · next hmissing =>
          rw [if_neg hmissing] at hb
          refine allM_stable ?_ hb
          intro prop _ c hc
          split at hc
          · exact h _ _ _ hc
          · exact hc

/-- **A larger cap never changes the answer.** -/
theorem validateJsonAgainstType_stable (d : Document) (v : Value) (t : IrType) :
    Stable fun n => validateJsonAgainstType d n v t := by
  intro n
  induction n generalizing v t with
  | zero =>
      intro b h
      exact absurd h (by simp [validateJsonAgainstType])
  | succ n ih =>
      intro b h
      unfold validateJsonAgainstType at h ⊢
      cases t with
      | array item nullable =>
          dsimp only at h ⊢
          cases harr : v.asArray with
          | none =>
              rw [harr] at h
              exact h
          | some arr =>
              rw [harr] at h
              exact allM_stable (fun x _ c hc => ih _ _ c hc) h
      | map mapVal =>
          dsimp only at h ⊢
          cases hobj : v.asObject with
          | none =>
              rw [hobj] at h
              exact h
          | some obj =>
              rw [hobj] at h
              exact allM_stable (fun x _ c hc => ih _ _ c hc) h
      | reference name nullable description =>
          dsimp only at h ⊢
          cases hmodel : d.schemas.get name with
          | none =>
              rw [hmodel] at h
              exact h
          | some model =>
              rw [hmodel] at h
              cases model with
              | enum e => exact h
              | object o => exact validateJsonAgainstObject_mono ih h
      | composition kind members discriminator =>
          exact anyM_stable (fun x _ c hc => ih _ _ c hc) h
      | scalar s => cases s <;> exact h
      | stringEnum variants nullable => exact h
      | any => exact h
      | unknown => exact h

/-! ## §3  Values that pass -/

/-- The check answers yes. -/
def Verifies (d : Document) (v : Value) (t : IrType) : Prop :=
  Returns (fun n => validateJsonAgainstType d n v t) true

/-- The check answers. -/
def Answers (d : Document) (v : Value) (t : IrType) : Prop :=
  ∃ b, Returns (fun n => validateJsonAgainstType d n v t) b

/-- What `validate_json_against_object` asks of a value. -/
def VerifiesObject (d : Document) (v : Value) (properties : List Property) : Prop :=
  ∃ obj, v = .object obj ∧ ∀ p ∈ properties,
    (obj.lookup p.name = none → p.required = false) ∧
    ∀ x, obj.lookup p.name = some x → Verifies d x p.ty

section Unfold

attribute [local simp] validateJsonAgainstType

variable {d : Document} {v : Value}

theorem returns_verify_succ {t : IrType} {b : Bool} :
    Returns (fun n => validateJsonAgainstType d n v t) b ↔
      Returns (fun n => validateJsonAgainstType d (n + 1) v t) b :=
  returns_succ_iff rfl fun _ => rfl

theorem verifies_stringEnum {variants : List String} {nullable : Bool} :
    Verifies d v (.stringEnum variants nullable) ↔ ∃ s, v = .string s := by
  rw [Verifies, returns_verify_succ]
  refine returns_const.trans ?_
  cases v <;> simp [Value.isString]

theorem verifies_array {item : IrType} {nullable : Bool} :
    Verifies d v (.array item nullable) ↔
      ∃ items, v = .array items ∧ ∀ x ∈ items, Verifies d x item := by
  rw [Verifies, returns_verify_succ]
  simp only [validateJsonAgainstType]
  cases v with
  | array items =>
      simp only [Value.asArray, Value.array.injEq, exists_eq_left']
      exact returns_allM_true fun x _ => validateJsonAgainstType_stable d x item
  | _ => simp [Value.asArray, returns_const]

theorem verifies_map {mapVal : IrType} :
    Verifies d v (.map mapVal) ↔
      ∃ obj, v = .object obj ∧ ∀ x ∈ obj, Verifies d x.2 mapVal := by
  rw [Verifies, returns_verify_succ]
  simp only [validateJsonAgainstType]
  cases v with
  | object obj =>
      simp only [Value.asObject, Value.object.injEq, exists_eq_left']
      exact returns_allM_true fun x _ => validateJsonAgainstType_stable d x.2 mapVal
  | _ => simp [Value.asObject, returns_const]

theorem verifyProperties_stable (d : Document) (obj : List (String × Value)) (p : Property) :
    Stable fun n => match obj.lookup p.name with
      | some val => validateJsonAgainstType d n val p.ty
      | none => some true := by
  intro n b hb
  dsimp only at hb ⊢
  split at hb
  · exact validateJsonAgainstType_stable d _ _ n b hb
  · exact hb

theorem verifies_reference_object {name : String} {nullable : Bool}
    {description : Option String} {o : ObjectModel}
    (hget : d.schemas.get name = some (.object o)) :
    Verifies d v (.reference name nullable description) ↔ VerifiesObject d v o.properties := by
  rw [Verifies, returns_verify_succ]
  simp only [validateJsonAgainstType, hget, validateJsonAgainstObject, VerifiesObject]
  cases v with
  | object obj =>
      simp only [Value.asObject, Value.object.injEq, exists_eq_left']
      cases hmissing : o.properties.any
          fun prop => prop.required && (obj.lookup prop.name).isNone with
      | true =>
          -- the first pass over the properties has already failed
          obtain ⟨p, hp, hmiss⟩ := List.any_eq_true.mp hmissing
          rw [Bool.and_eq_true, Option.isNone_iff_eq_none] at hmiss
          simp only [if_true, returns_const, Bool.false_eq_true, false_iff, not_forall]
          refine ⟨p, hp, fun h => ?_⟩
          have hreq := h.1 hmiss.2
          rw [hmiss.1] at hreq
          exact Bool.noConfusion hreq
      | false =>
          simp only [Bool.false_eq_true, if_false]
          refine (returns_allM_true fun p _ => verifyProperties_stable d obj p).trans ?_
          refine forall₂_congr fun p hp => ?_
          have hpresent := List.any_eq_false.mp hmissing p hp
          cases hlookup : obj.lookup p.name with
          | some x => simp [Verifies]
          | none =>
              rw [hlookup] at hpresent
              simpa [returns_const] using hpresent
  | _ => simp [Value.asObject, returns_const]

theorem verifies_reference_enum {name : String} {nullable : Bool}
    {description : Option String} {e : EnumModel}
    (hget : d.schemas.get name = some (.enum e)) :
    Verifies d v (.reference name nullable description) ↔
      ∃ x ∈ e.variants, v = .string x.value := by
  rw [Verifies, returns_verify_succ]
  simp only [validateJsonAgainstType, hget]
  cases v with
  | string s =>
      simp only [Value.asStr, returns_const, List.any_eq_true, beq_iff_eq, Value.string.injEq]
      exact exists_congr fun x => and_congr_right fun _ => eq_comm
  | _ => simp [Value.asStr, returns_const]

theorem verifies_reference_unknown {name : String} {nullable : Bool}
    {description : Option String} (hget : d.schemas.get name = none) :
    Verifies d v (.reference name nullable description) := by
  rw [Verifies, returns_verify_succ]
  simp only [validateJsonAgainstType, hget]
  exact returns_const.mpr rfl

theorem verifies_composition {kind : CompositionKind} {members : List IrType}
    {discriminator : Option Discriminator} (hret : ∀ m ∈ members, Answers d v m) :
    Verifies d v (.composition kind members discriminator) ↔ ∃ m ∈ members, Verifies d v m := by
  rw [Verifies, returns_verify_succ]
  exact returns_anyM_true (fun m _ => validateJsonAgainstType_stable d v m) hret

theorem verifies_any : Verifies d v .any := by
  rw [Verifies, returns_verify_succ]
  exact returns_const.mpr rfl

theorem verifies_unknown : Verifies d v .unknown := by
  rw [Verifies, returns_verify_succ]
  exact returns_const.mpr rfl

end Unfold

/-! ## §4  Termination -/

theorem validateJsonAgainstObject_answers {d : Document} {o : ObjectModel} (v : Value)
    (h : ∀ p ∈ o.properties, ∀ x, Answers d x p.ty) :
    ∃ b, Returns (fun n => validateJsonAgainstObject (validateJsonAgainstType d n) v o) b := by
  unfold validateJsonAgainstObject
  cases v.asObject with
  | none => exact ⟨_, returns_const.mpr rfl⟩
  | some obj =>
      dsimp only
      split
      · exact ⟨_, returns_const.mpr rfl⟩
      · refine exists_returns_allM (fun p _ => verifyProperties_stable d obj p) fun p hp => ?_
        cases obj.lookup p.name with
        | some x => exact h p hp x
        | none => exact ⟨_, returns_const.mpr rfl⟩

/-- The check answers on a type if it does on all that the type consults. -/
theorem answers_of_consults {d : Document} {t : IrType}
    (ih : ∀ s, Consults d.schemas t s → ∀ v, Answers d v s) (v : Value) : Answers d v t := by
  unfold Answers
  simp only [returns_verify_succ]
  have hst := validateJsonAgainstType_stable d
  cases t with
  | scalar s => cases s <;> exact ⟨_, returns_const.mpr rfl⟩
  | stringEnum variants nullable => exact ⟨_, returns_const.mpr rfl⟩
  | array item nullable =>
      simp only [validateJsonAgainstType]
      cases v.asArray with
      | none => exact ⟨_, returns_const.mpr rfl⟩
      | some arr => exact exists_returns_allM (fun x _ => hst x item) fun x _ => ih item .item x
  | map mapVal =>
      simp only [validateJsonAgainstType]
      cases v.asObject with
      | none => exact ⟨_, returns_const.mpr rfl⟩
      | some obj =>
          exact exists_returns_allM (fun x _ => hst x.2 mapVal) fun x _ => ih mapVal .entry x.2
  | reference name nullable description =>
      cases hget : d.schemas.get name with
      | none =>
          simp only [validateJsonAgainstType, hget]
          exact ⟨_, returns_const.mpr rfl⟩
      | some model =>
          cases model with
          | enum e =>
              simp only [validateJsonAgainstType, hget]
              cases v.asStr with
              | none => exact ⟨_, returns_const.mpr rfl⟩
              | some s => exact ⟨_, returns_const.mpr rfl⟩
          | object o =>
              simp only [validateJsonAgainstType, hget]
              exact validateJsonAgainstObject_answers v fun p hp x =>
                ih p.ty (.property hget hp) x
  | composition kind members discriminator =>
      obtain ⟨n, bs, hbs⟩ := exists_returns_loop (fun m _ => hst v m)
        fun m hm => ih m (.member hm) v
      exact ⟨_, n, anyM_eq_some hbs⟩
  | any => exact ⟨_, returns_const.mpr rfl⟩
  | unknown => exact ⟨_, returns_const.mpr rfl⟩

/-- **On an acyclic registry the check answers on every value.** -/
theorem answers_of_acyclic {d : Document} (hac : d.schemas.AcyclicRefs) (t : IrType) :
    ∀ v, Answers d v t :=
  Consults.induction hac (fun _ ih => answers_of_consults ih) t

end SpecForge
