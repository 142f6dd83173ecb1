import SpecForge.Core.Examples
import SpecForge.Core.Json
import SpecForge.Lib.BTreeMap
import SpecForge.Lib.Text

/-!
# Example responses of the mock server (`mock.rs`)

`generateExampleJson` follows references into the properties of the models; its
first number caps the call depth. The shape of a model is never looked at.
-/

namespace SpecForge

open Lib
open Lib.Text (parseU16)

/-! ## §1  Examples -/

/-- `0.0`. -/
def FiniteF64.zero : FiniteF64 := ⟨0, by decide⟩

def scalarExample : Scalar → Value
  | .string => .string "string"
  | .dateTime => .string "2024-01-01T00:00:00Z"
  | .uuid => .string "00000000-0000-0000-0000-000000000000"
  | .integer => .number (.posInt 0)
  | .integer64 => .number (.posInt 0)
  | .float => .number (.float FiniteF64.zero)
  | .boolean => .bool false
  | .base64 => .string "c2FtcGxl"
  | .binary => .string "binary"

/-- `object_example`, with the recursive call as a parameter. -/
def objectExample (recurse : IrType → Option Value) (obj : ObjectModel) : Option Value :=
  (obj.properties.mapM fun (prop : Property) =>
    (recurse prop.ty).map fun value => (prop.name, value)).map fun entries =>
      .object (BTreeMap.collect entries)

def generateExampleFromModel (recurse : IrType → Option Value) : Model → Option Value
  | .object obj => objectExample recurse obj
  | .enum e => some (.string ((e.variants.head?.map (·.value)).getD "value"))

def generateExampleJson (doc : Document) : ℕ → IrType → Option Value
  | 0, _ => none
  | fuel + 1, ty =>
    let recurse := generateExampleJson doc fuel
    match ty with
    | .scalar s => some (scalarExample s)
    | .stringEnum variants _ => some (.string (variants.head?.getD "value"))
    | .array item _ => (recurse item).map fun element => .array [element]
    | .map value => (recurse value).map fun inner => .object [("key", inner)]
    | .reference name _ _ =>
        match doc.schemas.get name with
        | some model => generateExampleFromModel recurse model
        | none => some .null
    | .composition _ members _ =>
        match members with
        | m :: _ => recurse m
        | [] => some .null
    | .any => some (.object [])
    | .unknown => some .null

/-! ## §2  Responses -/

/-- The response that `pick_success_response` answers with: its status and the
type of its body. -/
def successResponse (op : Operation) : Option (UInt16 × Option IrType) :=
  op.responses.findSome? fun resp =>
    match parseU16 resp.status with
    | some status => if 200 ≤ status ∧ status < 300 then some (status, resp.body) else none
    | none => none

/-- The status and the body, before it is written out. Without a response or a body
the text is `{}`, which is the empty object. -/
def pickSuccessResponse (fuel : ℕ) (doc : Document) (op : Operation) : Option (UInt16 × Value) :=
  match successResponse op with
  | some (status, some bodyType) =>
      (generateExampleJson doc fuel bodyType).map fun json => (status, json)
  | some (status, none) => some (status, .object [])
  | none => some (200, .object [])

/-! ## §3  When generation ends -/

section

variable {doc : Document}

theorem objectExample_mono {rec₁ rec₂ : IrType → Option Value}
    (h : ∀ t v, rec₁ t = some v → rec₂ t = some v) {o : ObjectModel} {v : Value}
    (hv : objectExample rec₁ o = some v) : objectExample rec₂ o = some v := by
  refine mapM_map_stable (fun p _ e hp => ?_) hv
  obtain ⟨x, hx, he⟩ := Option.map_eq_some_iff.mp hp
  exact Option.map_eq_some_iff.mpr ⟨x, h _ _ hx, he⟩

/-- **A larger cap never changes an example.** -/
theorem generateExampleJson_stable (doc : Document) (t : IrType) :
    Stable fun n => generateExampleJson doc n t := by
  intro n
  induction n generalizing t with
  | zero =>
      intro v h
      cases h
  | succ n ih =>
      intro v h
      have hmap : ∀ (s : IrType) (k : Value → Value) v,
          (generateExampleJson doc n s).map k = some v →
          (generateExampleJson doc (n + 1) s).map k = some v := by
        intro s k v hv
        obtain ⟨x, hx, hk⟩ := Option.map_eq_some_iff.mp hv
        exact Option.map_eq_some_iff.mpr ⟨x, ih s x hx, hk⟩
      unfold generateExampleJson at h ⊢
      rcases t with s | ⟨variants, nullable⟩ | ⟨item, nullable⟩ | value | ⟨name, nullable, descr⟩
        | ⟨kind, members, discriminator⟩ | _ | _
      · exact h
      · exact h
      · exact hmap item _ v h
      · exact hmap value _ v h
      · dsimp only at h ⊢
        cases hget : doc.schemas.get name with
        | none =>
            rw [hget] at h
            exact h
        | some model =>
            rw [hget] at h
            rcases model with o | e
            · exact objectExample_mono ih h
            · exact h
      · rcases members with _ | ⟨m, ms⟩
        · exact h
        · exact ih m v h
      · exact h
      · exact h

/-- The models are expanded to the types of their properties. -/
def propertyTypes (o : ObjectModel) : List IrType := o.properties.map (·.ty)

theorem objectExample_returns {o : ObjectModel}
    (h : ∀ p ∈ o.properties, ∃ v, Returns (fun n => generateExampleJson doc n p.ty) v) :
    ∃ v, Returns (fun n => objectExample (generateExampleJson doc n) o) v := by
  refine exists_returns_mapM (fun p _ => ?_) (fun p hp => ?_) _
  · intro n e he
    obtain ⟨x, hx, he⟩ := Option.map_eq_some_iff.mp he
    exact Option.map_eq_some_iff.mpr ⟨x, generateExampleJson_stable doc p.ty n x hx, he⟩
  · obtain ⟨v, hv⟩ := h p hp
    exact ⟨_, hv.map fun value => (p.name, value)⟩

/-- What `generate_example_json` calls itself on. -/
theorem generateExampleJson_recurses (doc : Document) :
    Recurses (generateExampleJson doc) (ExampleCalls propertyTypes doc.schemas) where
  zero := fun _ => rfl
  returns := by
    intro t ih
    have hstep : ∀ {f : ℕ → Option Value}, (∀ n, generateExampleJson doc (n + 1) t = f n) →
        (∃ v, Returns f v) → ∃ v, Returns (fun n => generateExampleJson doc n t) v := by
      rintro f hf ⟨v, hv⟩
      exact ⟨v, (returns_succ_iff rfl hf).mpr hv⟩
    rcases t with s | ⟨variants, nullable⟩ | ⟨item, nullable⟩ | value | ⟨name, nullable, descr⟩
      | ⟨kind, members, discriminator⟩ | _ | _
    · exact hstep (fun _ => rfl) ⟨_, returns_const.mpr rfl⟩
    · exact hstep (fun _ => rfl) ⟨_, returns_const.mpr rfl⟩
    · obtain ⟨v, hv⟩ := ih item .item
      exact hstep (fun _ => rfl) ⟨_, hv.map _⟩
    · obtain ⟨v, hv⟩ := ih value .entry
      exact hstep (fun _ => rfl) ⟨_, hv.map _⟩
    · cases hget : doc.schemas.get name with
      | none =>
          refine hstep (f := fun _ => some .null) (fun n => ?_) ⟨_, returns_const.mpr rfl⟩
          simp only [generateExampleJson, hget]
      | some model =>
          refine hstep (f := fun n => generateExampleFromModel (generateExampleJson doc n) model)
            (fun n => by simp only [generateExampleJson, hget]) ?_
          rcases model with o | e
          · exact objectExample_returns fun p hp =>
              ih p.ty (.model hget (List.mem_map.mpr ⟨p, hp, rfl⟩))
          · exact ⟨_, returns_const.mpr rfl⟩
    · rcases members with _ | ⟨m, ms⟩
      · exact hstep (fun _ => rfl) ⟨_, returns_const.mpr rfl⟩
      · exact hstep (fun _ => rfl) (ih m .first)
    · exact hstep (fun _ => rfl) ⟨_, returns_const.mpr rfl⟩
    · exact hstep (fun _ => rfl) ⟨_, returns_const.mpr rfl⟩
  callee := by
    intro n t s hcall h
    unfold generateExampleJson at h
    cases hcall with
    | item => exact (Option.isSome_map ..).symm.trans h
    | entry => exact (Option.isSome_map ..).symm.trans h
    | first => exact h
    | model hget hs =>
        obtain ⟨p, hp, rfl⟩ := List.mem_map.mp hs
        simp only [hget] at h
        have hprop := isSome_of_mapM h hp
        exact (Option.isSome_map ..).symm.trans hprop

/-- **Generation ends exactly where the walk along the properties ends.** -/
theorem generates_iff_acc {t : IrType} :
    (∃ v, Returns (fun n => generateExampleJson doc n t) v) ↔
      Acc (fun s t => ExampleCalls propertyTypes doc.schemas t s) t :=
  (generateExampleJson_recurses doc).returns_iff_acc t

end

end SpecForge
