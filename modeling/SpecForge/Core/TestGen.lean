import SpecForge.Core.Mock
import SpecForge.Core.ResolvedObjects

/-!
# Example literals of the test generators (`testgen.rs`)

The three generators recurse alike and differ in how a map and an object are
written. Unlike the mock server they look at the shape of a model, if it is an
array or a map.

- §1 the generators, §2 when they end.
- §3 for which documents all four example generators end.
-/

namespace SpecForge

open Lib
open Lib.Text (join)
open OpenApi (ReferenceOr Schema SchemaData Components OpenAPI)

/-! ## §1  Literals -/

def scalarLiteral : Scalar → String
  | .string => "\"example\""
  | .dateTime => "\"2024-01-01T00:00:00Z\""
  | .uuid => "\"550e8400-e29b-41d4-a716-446655440000\""
  | .integer | .integer64 => "1"
  | .float => "1.0"
  | .boolean | .base64 => "true"
  | .binary => "new Uint8Array([1,2,3])"

def enumLiteral (first : Option String) : String :=
  match first with
  | some value => "\"" ++ value ++ "\""
  | none => "\"enum_value\""

/-- How a target language writes maps and objects. An object is written from the
names and literals of its properties, at an indentation. -/
structure LiteralSyntax where
  map : String → String
  object : ℕ → List (String × String) → String

/-- The literal of an object model that is written property by property. -/
def objectLiteral (L : LiteralSyntax) (recurse : IrType → ℕ → Option String) (obj : ObjectModel)
    (indent : ℕ) : Option String :=
  if obj.properties.isEmpty then some "\x7b\x7d"
  else (obj.properties.mapM fun (prop : Property) =>
    (recurse prop.ty (indent + 1)).map fun val => (prop.name, val)).map (L.object indent)

def modelLiteral (L : LiteralSyntax) (recurse : IrType → ℕ → Option String) (indent : ℕ) :
    Model → Option String
  | .object obj =>
      match obj.shapeType with
      | some (.array item _) => (recurse item indent).map fun inner => "[" ++ inner ++ "]"
      | some (.map value) => (recurse value indent).map L.map
      | _ => objectLiteral L recurse obj indent
  | .enum e => some (enumLiteral (e.variants.head?.map (·.value)))

/-- The recursion the three generators share. -/
def generateLiteral (L : LiteralSyntax) (schemas : SchemaRegistry) :
    ℕ → IrType → ℕ → Option String
  | 0, _, _ => none
  | fuel + 1, ty, indent =>
    let recurse := generateLiteral L schemas fuel
    match ty with
    | .scalar s => some (scalarLiteral s)
    | .stringEnum variants _ => some (enumLiteral variants.head?)
    | .array item _ => (recurse item indent).map fun inner => "[" ++ inner ++ "]"
    | .map value => (recurse value indent).map L.map
    | .reference name _ _ =>
        match schemas.get name with
        | some model => modelLiteral L recurse indent model
        | none => some "\x7b\x7d"
    | .composition _ members _ =>
        match members with
        | m :: _ => recurse m indent
        | [] => some "\x7b\x7d"
    | .any | .unknown => some "null"

def pad (indent : ℕ) : String := join "" (List.replicate indent "    ")

/-- One property a line. -/
def tsSyntax : LiteralSyntax where
  map inner := "\x7b \"key\": " ++ inner ++ " \x7d"
  object indent props :=
    "\x7b\n" ++ join ",\n" (props.map fun p => pad (indent + 1) ++ p.1 ++ ": " ++ p.2)
      ++ "\n" ++ pad indent ++ "\x7d"

/-- JSON without blanks. -/
def jsonSyntax : LiteralSyntax where
  map inner := "\x7b\"key\": " ++ inner ++ "\x7d"
  object _ props :=
    "\x7b" ++ join "," (props.map fun p => "\"" ++ p.1 ++ "\":" ++ p.2) ++ "\x7d"

def generateTsExample (fuel : ℕ) (ty : IrType) (schemas : SchemaRegistry) (indent : ℕ) :
    Option String :=
  generateLiteral tsSyntax schemas fuel ty indent

def generateGoExample (fuel : ℕ) (ty : IrType) (schemas : SchemaRegistry) : Option String :=
  generateLiteral jsonSyntax schemas fuel ty 0

def generateRustExample (fuel : ℕ) (ty : IrType) (schemas : SchemaRegistry) : Option String :=
  generateLiteral jsonSyntax schemas fuel ty 0

/-- The body of the first success response, or of the default one. -/
def firstSuccessBody (op : Operation) : Option IrType :=
  match op.responses.find? fun resp => Text.startsWith "2" resp.status with
  | some resp => resp.body
  | none => (op.responses.find? fun resp => resp.status == "default").bind (·.body)

/-! ## §2  When the generators end -/

/-- What a model is expanded to: the inside of an array or a map, or the types of
the properties. -/
def literalTypes (o : ObjectModel) : List IrType :=
  match o.shapeType with
  | some (.array item _) => [item]
  | some (.map value) => [value]
  | _ => propertyTypes o

section

variable {L : LiteralSyntax} {schemas : SchemaRegistry}

theorem objectLiteral_stable {rec₁ rec₂ : IrType → ℕ → Option String}
    (h : ∀ t i s, rec₁ t i = some s → rec₂ t i = some s) {o : ObjectModel} {indent : ℕ}
    {s : String} (hs : objectLiteral L rec₁ o indent = some s) :
    objectLiteral L rec₂ o indent = some s := by
  unfold objectLiteral at hs ⊢
  split at hs
  · next hempty => rwa [if_pos hempty]
  · next hempty =>
      rw [if_neg hempty]
      refine mapM_map_stable (fun p _ e hp => ?_) hs
      obtain ⟨x, hx, he⟩ := Option.map_eq_some_iff.mp hp
      exact Option.map_eq_some_iff.mpr ⟨x, h _ _ _ hx, he⟩

theorem modelLiteral_stable {rec₁ rec₂ : IrType → ℕ → Option String}
    (h : ∀ t i s, rec₁ t i = some s → rec₂ t i = some s) {m : Model} {indent : ℕ} {s : String}
    (hs : modelLiteral L rec₁ indent m = some s) : modelLiteral L rec₂ indent m = some s := by
  have hmap : ∀ (t : IrType) (k : String → String), (rec₁ t indent).map k = some s →
      (rec₂ t indent).map k = some s := by
    intro t k hk
    obtain ⟨x, hx, hk⟩ := Option.map_eq_some_iff.mp hk
    exact Option.map_eq_some_iff.mpr ⟨x, h _ _ _ hx, hk⟩
  unfold modelLiteral at hs ⊢
  rcases m with o | e
  · dsimp only at hs ⊢
    split at hs
    · exact hmap _ _ hs
    · exact hmap _ _ hs
    · exact objectLiteral_stable h hs
  · exact hs

/-- **A larger cap never changes a literal.** -/
theorem generateLiteral_stable (t : IrType) (indent : ℕ) :
    Stable fun n => generateLiteral L schemas n t indent := by
  intro n
  induction n generalizing t indent with
  | zero =>
      intro s h
      cases h
  | succ n ih =>
      intro s h
      have hmap : ∀ (t : IrType) (k : String → String),
          (generateLiteral L schemas n t indent).map k = some s →
          (generateLiteral L schemas (n + 1) t indent).map k = some s := by
        intro t k hk
        obtain ⟨x, hx, hk⟩ := Option.map_eq_some_iff.mp hk
        exact Option.map_eq_some_iff.mpr ⟨x, ih t indent x hx, hk⟩
      unfold generateLiteral at h ⊢
      rcases t with _ | _ | ⟨item, nullable⟩ | value | ⟨name, nullable, descr⟩
        | ⟨kind, members, discriminator⟩ | _ | _
      · exact h
      · exact h
      · exact hmap item _ h
      · exact hmap value _ h
      · dsimp only at h ⊢
        cases hget : schemas.get name with
        | none =>
            rw [hget] at h
            exact h
        | some model =>
            rw [hget] at h
            exact modelLiteral_stable ih h
      · rcases members with _ | ⟨m, ms⟩
        · exact h
        · exact ih m indent s h
      · exact h
      · exact h

/-- Whether a literal is found does not depend on its indentation. -/
theorem isSome_generateLiteral (n : ℕ) (t : IrType) (i j : ℕ) :
    (generateLiteral L schemas n t i).isSome ↔ (generateLiteral L schemas n t j).isSome := by
  induction n generalizing t i j with
  | zero => exact Iff.rfl
  | succ n ih =>
      have hmap : ∀ (t : IrType) (k : String → String),
          ((generateLiteral L schemas n t i).map k).isSome ↔
          ((generateLiteral L schemas n t j).map k).isSome := by
        intro t k
        rw [Option.isSome_map, Option.isSome_map]
        exact ih t i j
      unfold generateLiteral
      rcases t with _ | _ | ⟨item, nullable⟩ | value | ⟨name, nullable, descr⟩
        | ⟨kind, members, discriminator⟩ | _ | _
      · exact Iff.rfl
      · exact Iff.rfl
      · exact hmap item _
      · exact hmap value _
      · dsimp only
        rcases schemas.get name with _ | o | e
        · exact Iff.rfl
        · dsimp only [modelLiteral]
          split
          · exact hmap _ _
          · exact hmap _ _
          · unfold objectLiteral
            split
            · exact Iff.rfl
            · rw [Option.isSome_map, Option.isSome_map, isSome_mapM_iff, isSome_mapM_iff]
              refine forall₂_congr fun p _ => ?_
              rw [Option.isSome_map, Option.isSome_map]
              exact ih p.ty (i + 1) (j + 1)
        · exact Iff.rfl
      · rcases members with _ | ⟨m, ms⟩
        · exact Iff.rfl
        · exact ih m i j
      · exact Iff.rfl
      · exact Iff.rfl

theorem objectLiteral_returns {o : ObjectModel} {indent : ℕ}
    (h : ∀ p ∈ o.properties, ∃ s, Returns
      (fun n => generateLiteral L schemas n p.ty (indent + 1)) s) :
    ∃ s, Returns (fun n => objectLiteral L (generateLiteral L schemas n) o indent) s := by
  unfold objectLiteral
  split
  · exact ⟨_, returns_const.mpr rfl⟩
  · refine exists_returns_mapM (fun p _ => ?_) (fun p hp => ?_) _
    · intro n e he
      obtain ⟨x, hx, he⟩ := Option.map_eq_some_iff.mp he
      exact Option.map_eq_some_iff.mpr ⟨x, generateLiteral_stable p.ty (indent + 1) n x hx, he⟩
    · obtain ⟨s, hs⟩ := h p hp
      exact ⟨_, hs.map fun val => (p.name, val)⟩

theorem modelLiteral_returns {o : ObjectModel} {indent : ℕ}
    (h : ∀ t ∈ literalTypes o, ∀ i, ∃ s, Returns (fun n => generateLiteral L schemas n t i) s) :
    ∃ s, Returns (fun n => modelLiteral L (generateLiteral L schemas n) indent (.object o)) s := by
  unfold literalTypes at h
  unfold modelLiteral
  dsimp only
  split at h
  · obtain ⟨s, hs⟩ := h _ List.mem_cons_self indent
    exact ⟨_, hs.map _⟩
  · obtain ⟨s, hs⟩ := h _ List.mem_cons_self indent
    exact ⟨_, hs.map _⟩
  · exact objectLiteral_returns fun p hp => h p.ty (List.mem_map.mpr ⟨p, hp, rfl⟩) (indent + 1)

/-- A model's literal is made of those of the types it is expanded to. -/
theorem isSome_of_modelLiteral {o : ObjectModel} {indent n : ℕ} {t : IrType}
    (h : (modelLiteral L (generateLiteral L schemas n) indent (.object o)).isSome)
    (ht : t ∈ literalTypes o) : ∃ i, (generateLiteral L schemas n t i).isSome := by
  unfold modelLiteral at h
  unfold literalTypes at ht
  dsimp only at h
  split at ht
  · next item _ hshape =>
      simp only [hshape] at h
      obtain rfl := List.mem_singleton.mp ht
      exact ⟨indent, (Option.isSome_map ..).symm.trans h⟩
  · next value hshape =>
      simp only [hshape] at h
      obtain rfl := List.mem_singleton.mp ht
      exact ⟨indent, (Option.isSome_map ..).symm.trans h⟩
  · next hnotArray hnotMap =>
      obtain ⟨p, hp, rfl⟩ := List.mem_map.mp ht
      have hne : ¬o.properties.isEmpty = true := by
        rw [List.isEmpty_iff]
        exact List.ne_nil_of_mem hp
      split at h
      · next hshape => exact absurd hshape (hnotArray _ _)
      · next hshape => exact absurd hshape (hnotMap _)
      · unfold objectLiteral at h
        rw [if_neg hne] at h
        exact ⟨indent + 1, (Option.isSome_map ..).symm.trans (isSome_of_mapM h hp)⟩

/-- What the generators call themselves on. -/
theorem generateLiteral_recurses (L : LiteralSyntax) (schemas : SchemaRegistry) :
    Recurses (fun n (x : IrType × ℕ) => generateLiteral L schemas n x.1 x.2)
      (fun x y => ExampleCalls literalTypes schemas x.1 y.1) where
  zero := fun _ => rfl
  returns := by
    rintro ⟨t, indent⟩ ih
    have hstep : ∀ {f : ℕ → Option String},
        (∀ n, generateLiteral L schemas (n + 1) t indent = f n) → (∃ s, Returns f s) →
        ∃ s, Returns (fun n => generateLiteral L schemas n t indent) s := by
      rintro f hf ⟨s, hs⟩
      exact ⟨s, (returns_succ_iff rfl hf).mpr hs⟩
    rcases t with _ | _ | ⟨item, nullable⟩ | value | ⟨name, nullable, descr⟩
      | ⟨kind, members, discriminator⟩ | _ | _
    · exact hstep (fun _ => rfl) ⟨_, returns_const.mpr rfl⟩
    · exact hstep (fun _ => rfl) ⟨_, returns_const.mpr rfl⟩
    · obtain ⟨s, hs⟩ := ih (item, indent) .item
      exact hstep (fun _ => rfl) ⟨_, hs.map _⟩
    · obtain ⟨s, hs⟩ := ih (value, indent) .entry
      exact hstep (fun _ => rfl) ⟨_, hs.map _⟩
    · cases hget : schemas.get name with
      | none =>
          refine hstep (f := fun _ => some "\x7b\x7d") (fun n => ?_) ⟨_, returns_const.mpr rfl⟩
          simp only [generateLiteral, hget]
      | some model =>
          refine hstep
            (f := fun n => modelLiteral L (generateLiteral L schemas n) indent model)
            (fun n => by simp only [generateLiteral, hget]) ?_
          rcases model with o | e
          · exact modelLiteral_returns fun s hs i => ih (s, i) (.model hget hs)
          · exact ⟨_, returns_const.mpr rfl⟩
    · rcases members with _ | ⟨m, ms⟩
      · exact hstep (fun _ => rfl) ⟨_, returns_const.mpr rfl⟩
      · exact hstep (fun _ => rfl) (ih (m, indent) .first)
    · exact hstep (fun _ => rfl) ⟨_, returns_const.mpr rfl⟩
    · exact hstep (fun _ => rfl) ⟨_, returns_const.mpr rfl⟩
  callee := by
    rintro n ⟨t, i⟩ ⟨s, j⟩ hcall h
    dsimp only at hcall h ⊢
    unfold generateLiteral at h
    cases hcall with
    | item =>
        refine (isSome_generateLiteral n s i j).mp ?_
        exact (Option.isSome_map ..).symm.trans h
    | entry =>
        refine (isSome_generateLiteral n s i j).mp ?_
        exact (Option.isSome_map ..).symm.trans h
    | first => exact (isSome_generateLiteral n s i j).mp h
    | @model name nullable descr o _ hget hs =>
        simp only [hget] at h
        obtain ⟨k, hk⟩ := isSome_of_modelLiteral h hs
        exact (isSome_generateLiteral n s k j).mp hk

/-- **A literal is found exactly where the walk along shapes and properties
ends**, in each syntax and at each indentation. -/
theorem generateLiteral_iff_acc {t : IrType} {indent : ℕ} :
    (∃ s, Returns (fun n => generateLiteral L schemas n t indent) s) ↔
      Acc (fun s t => ExampleCalls literalTypes schemas t s) t := by
  refine ((generateLiteral_recurses L schemas).returns_iff_acc (t, indent)).trans ⟨?_, ?_⟩
  · intro h
    refine acc_of_simulates (R := fun t x => x.1 = t) ?_ rfl h
    rintro t s ⟨t, i⟩ hcall rfl
    exact ⟨(s, i), rfl, .single hcall⟩
  · intro h
    exact InvImage.accessible (a := (t, indent)) Prod.fst h

end

/-! ## §3  Documents -/

/-- The mock server and the three test generators find an example. -/
def ExamplesEnd (d : Document) (t : IrType) : Prop :=
  (∃ v, Returns (fun n => generateExampleJson d n t) v) ∧
  (∀ indent, ∃ s, Returns (fun n => generateTsExample n t d.schemas indent) s) ∧
  (∃ s, Returns (fun n => generateGoExample n t d.schemas) s) ∧
  ∃ s, Returns (fun n => generateRustExample n t d.schemas) s

theorem examplesEnd_iff_acc {d : Document} {t : IrType} :
    ExamplesEnd d t ↔
      Acc (fun s t => ExampleCalls propertyTypes d.schemas t s) t ∧
      Acc (fun s t => ExampleCalls literalTypes d.schemas t s) t := by
  unfold ExamplesEnd generateTsExample generateGoExample generateRustExample
  rw [generates_iff_acc]
  simp only [generateLiteral_iff_acc]
  simp

theorem hasType_property {d : Document} {name : String} {o : ObjectModel}
    (ho : d.schemas.get name = some (.object o)) {s : IrType} (hs : s ∈ propertyTypes o) :
    d.HasType s := by
  refine d.hasType_of_model ho ?_
  exact List.mem_append_left _ (List.mem_append_left _ (List.mem_append_left _ hs))

theorem hasType_literal {d : Document} {name : String} {o : ObjectModel}
    (ho : d.schemas.get name = some (.object o)) {s : IrType} (hs : s ∈ literalTypes o) :
    d.HasType s := by
  have hshape : ∀ t, o.shapeType = some t → d.HasType t := by
    intro t ht
    refine d.hasType_of_model ho (List.mem_append_left _ (List.mem_append_right _ ?_))
    simp [ht]
  unfold literalTypes at hs
  split at hs
  · next h =>
      obtain rfl := List.mem_singleton.mp hs
      exact (hshape _ h).part (.single .item)
  · next h =>
      obtain rfl := List.mem_singleton.mp hs
      exact (hshape _ h).part (.single .entry)
  · exact hasType_property ho hs

/-- **The example generators end on every type of a document exactly if no model's
example contains an example of the model itself**, through the properties for the
mock server, and for the test generators through the shape where it is an array or a
map and through the properties otherwise. -/
theorem examples_end_on_document_iff (d : Document) :
    (∀ t, d.HasType t → ExamplesEnd d t) ↔
      Acyclic (d.schemas.ExampleOf propertyTypes) ∧
      Acyclic (d.schemas.ExampleOf literalTypes) := by
  rw [← examples_end_iff fun name o ho s hs => hasType_property ho hs,
    ← examples_end_iff fun name o ho s hs => hasType_literal ho hs]
  simp only [examplesEnd_iff_acc]
  constructor
  · intro h
    exact ⟨fun t ht => (h t ht).1, fun t ht => (h t ht).2⟩
  · rintro ⟨hmock, hliteral⟩ t ht
    exact ⟨hmock t ht, hliteral t ht⟩

/-- A node with a list of child nodes. -/
def nodeSpec : OpenAPI where
  info := ⟨"Nodes", "1.0.0"⟩
  servers := []
  paths := IndexMap.empty
  components := some (Components.ofSchemas
    [("TreeNode", .item ⟨SchemaData.default, .type (.object
      ⟨[("children", .item ⟨SchemaData.default, .type (.array
        (some (.reference "#/components/schemas/TreeNode")))⟩)], [], none⟩)⟩)])
  security := none

theorem node_examples_never_end : ∃ d t, resolve nodeSpec = .ok d ∧ d.HasType t ∧
    (∀ v, ¬Returns (fun n => generateExampleJson d n t) v) ∧
    ∀ s, ¬Returns (fun n => generateRustExample n t d.schemas) s := by
  obtain ⟨d, hd⟩ : ∃ d, resolve nodeSpec = .ok d := ⟨_, rfl⟩
  obtain ⟨o, ho, hprops, hshape⟩ := resolved_object (N := "TreeNode") hd rfl rfl
  obtain ⟨p, hp, href⟩ : ∃ p ∈ o.properties, p.ty.exampleRef = some "TreeNode" := by
    rw [hprops]
    exact ⟨_, List.mem_singleton.mpr rfl, by decide⟩
  have hty : p.ty ∈ propertyTypes o := List.mem_map.mpr ⟨p, hp, rfl⟩
  have hliteral : literalTypes o = propertyTypes o := by
    unfold literalTypes
    rw [hshape]
    rfl
  -- the model is expanded to its children, whose example starts from the model
  have hnot : ∀ expand, p.ty ∈ expand o →
      ¬Acc (fun s t => ExampleCalls expand d.schemas t s) p.ty := by
    intro expand hexpand hacc
    obtain ⟨nullable, description, hrun⟩ :=
      @exampleCalls_of_exampleRef expand d.schemas _ _ href
    refine not_transGen_of_acc (acc_exampleOf (acc_of_reflTransGen hacc hrun)) ?_
    exact .single ⟨o, ho, p.ty, hexpand, href⟩
  refine ⟨d, p.ty, hd, hasType_property ho hty, fun v hv => ?_, fun s hs => ?_⟩
  · exact hnot propertyTypes hty (generates_iff_acc.mp ⟨v, hv⟩)
  · exact hnot literalTypes (hliteral ▸ hty) (generateLiteral_iff_acc.mp ⟨s, hs⟩)

end SpecForge
