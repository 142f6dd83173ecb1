import SpecForge.Core.Mock
import SpecForge.Core.Termination

/-!
# Do mock responses conform to their schema?

The generator goes from a reference to the properties of the model and from a
composition to its first member; the validator goes to the shape of the model and to all
the members. `Sample` is what an example looks like from the outside, as a matter of types
(§1), and `Fits` says whether a type admits it (§2): the example is valid
exactly if it does (§3).
-/

namespace SpecForge

open Lib
open OpenApi (ReferenceOr Schema SchemaData Components OpenAPI)

/-! ## §1  Samples -/

/-- The outside of an example: its kind, and the types its parts are examples of. -/
inductive Sample where
  | text (s : String)
  | integer
  | float
  | boolean
  | null
  | array (item : IrType)
  | object (members : List (String × IrType))

def scalarSample : Scalar → Sample
  | .string => .text "string"
  | .dateTime => .text "2024-01-01T00:00:00Z"
  | .uuid => .text "00000000-0000-0000-0000-000000000000"
  | .integer | .integer64 => .integer
  | .float => .float
  | .boolean => .boolean
  | .base64 => .text "c2FtcGxl"
  | .binary => .text "binary"

def modelSample : Model → Sample
  | .object o => .object (BTreeMap.collect (o.properties.map fun p => (p.name, p.ty)))
  | .enum e => .text ((e.variants.head?.map (·.value)).getD "value")

mutual

/-- What examples of a type look like. A composition is represented by its first
member, a model by its properties. -/
def IrType.sample (reg : SchemaRegistry) : IrType → Sample
  | .scalar s => scalarSample s
  | .stringEnum variants _ => .text (variants.head?.getD "value")
  | .array item _ => .array item
  | .map value => .object [("key", value)]
  | .reference name _ _ => ((reg.get name).map modelSample).getD .null
  | .composition _ members _ => firstSample reg members
  | .any => .object []
  | .unknown => .null

def firstSample (reg : SchemaRegistry) : List IrType → Sample
  | [] => .null
  | m :: _ => m.sample reg

end

/-- The value looks like the sample, and its parts are examples. -/
def Looks (doc : Document) (v : Value) : Sample → Prop
  | .text s => v = .string s
  | .integer => v = .number (.posInt 0)
  | .float => v = .number (.float FiniteF64.zero)
  | .boolean => v = .bool false
  | .null => v = .null
  | .array item => ∃ w, v = .array [w] ∧ Returns (fun n => generateExampleJson doc n item) w
  | .object members => ∃ entries, v = .object entries ∧
      List.Forall₂ (fun m e => m.1 = e.1 ∧ Returns (fun n => generateExampleJson doc n m.2) e.2)
        members entries

section

variable {doc : Document}

theorem looks_scalarExample (s : Scalar) : Looks doc (scalarExample s) (scalarSample s) := by
  cases s <;> rfl

/-- The example of a model has the properties of the model. -/
theorem looks_objectExample {n : ℕ} {o : ObjectModel} {v : Value}
    (h : objectExample (generateExampleJson doc n) o = some v) :
    Looks doc v (modelSample (.object o)) := by
  obtain ⟨entries, hentries, rfl⟩ := Option.map_eq_some_iff.mp h
  refine ⟨_, rfl, BTreeMap.forall₂_collect (fun m e hme => hme.1) ?_⟩
  rw [List.forall₂_map_left_iff]
  refine (mapM_eq_some.mp hentries).imp fun p e hpe => ?_
  obtain ⟨x, hx, rfl⟩ := Option.map_eq_some_iff.mp hpe
  exact ⟨rfl, n, hx⟩

/-- **An example looks like the sample of its type.** -/
theorem looks_generateExampleJson {n : ℕ} {t : IrType} {v : Value}
    (h : generateExampleJson doc n t = some v) : Looks doc v (t.sample doc.schemas) := by
  induction t using IrType.induction generalizing n with
  | composition kind members discriminator ih =>
      rcases n with _ | n
      · cases h
      · rw [IrType.sample]
        rcases members with _ | ⟨m, ms⟩
        · cases h
          rfl
        · exact ih m List.mem_cons_self h
  | reference name nullable description =>
      rcases n with _ | n
      · cases h
      · unfold generateExampleJson at h
        rw [IrType.sample]
        cases hget : doc.schemas.get name with
        | none =>
            simp only [hget] at h
            cases h
            rfl
        | some model =>
            simp only [hget] at h
            rcases model with o | e
            · exact looks_objectExample h
            · cases h
              rfl
  | array item nullable _ =>
      rcases n with _ | n
      · cases h
      · obtain ⟨w, hw, rfl⟩ := Option.map_eq_some_iff.mp h
        exact ⟨w, rfl, n, hw⟩
  | map value _ =>
      rcases n with _ | n
      · cases h
      · obtain ⟨w, hw, rfl⟩ := Option.map_eq_some_iff.mp h
        exact ⟨[("key", w)], rfl, .cons ⟨rfl, n, hw⟩ .nil⟩
  | scalar s =>
      rcases n with _ | n
      · cases h
      · cases h
        exact looks_scalarExample s
  | any =>
      rcases n with _ | n
      · cases h
      · cases h
        exact ⟨[], rfl, .nil⟩
  | _ =>
      rcases n with _ | n
      · cases h
      · cases h
        rfl

theorem looks_of_returns {t : IrType} {v : Value}
    (h : Returns (fun n => generateExampleJson doc n t) v) : Looks doc v (t.sample doc.schemas) := by
  obtain ⟨n, hn⟩ := h
  exact looks_generateExampleJson hn

end

/-! ## §2  Types that admit a sample -/

def Sample.ofScalar : Sample → Scalar → Bool
  | .text _, .string | .text _, .dateTime | .text _, .uuid | .text _, .base64
  | .text _, .binary => true
  | .integer, .integer | .integer, .integer64 | .integer, .float => true
  | .float, .float => true
  | .boolean, .boolean => true
  | _, _ => false

/-- The type admits what looks like the sample: parts of the example are compared
with parts of the type, a model by its shape. -/
inductive Fits (reg : SchemaRegistry) : Sample → IrType → Prop where
  | scalar {x s} : x.ofScalar s = true → Fits reg x (.scalar s)
  | variant {s variants nullable} : s ∈ variants → Fits reg (.text s) (.stringEnum variants nullable)
  | nullEnum {variants} : Fits reg .null (.stringEnum variants true)
  | array {t item nullable} : Fits reg (t.sample reg) item →
      Fits reg (.array t) (.array item nullable)
  | nullArray {item} : Fits reg .null (.array item true)
  | map {x value} : (∀ members, x = .object members → ∀ m ∈ members,
      Fits reg (m.2.sample reg) value) → Fits reg x (.map value)
  | noModel {x name nullable description} : reg.get name = none →
      Fits reg x (.reference name nullable description)
  | enumModel {name nullable description e y} : reg.get name = some (.enum e) →
      y ∈ e.variants → Fits reg (.text y.value) (.reference name nullable description)
  | shape {x name nullable description o s} : reg.get name = some (.object o) →
      o.shapeType = some s → Fits reg x s → Fits reg x (.reference name nullable description)
  | nullReference {name description} : Fits reg .null (.reference name true description)
  | allOf {x members discriminator} : (∀ m ∈ members, Fits reg x m) →
      Fits reg x (.composition .allOf members discriminator)
  | noAlternative {x kind discriminator} : kind ≠ .allOf →
      Fits reg x (.composition kind [] discriminator)
  | alternative {x kind members discriminator m} : kind ≠ .allOf → m ∈ members → Fits reg x m →
      Fits reg x (.composition kind members discriminator)
  | any {x} : Fits reg x .any
  | unknown {x} : Fits reg x .unknown

section

variable {reg : SchemaRegistry} {x : Sample}

theorem fits_shape_iff {name : String} {nullable : Bool} {description : Option String}
    {o : ObjectModel} {s : IrType} (hget : reg.get name = some (.object o))
    (hs : o.shapeType = some s) :
    Fits reg x (.reference name nullable description) ↔
      (nullable = true ∧ x = .null) ∨ Fits reg x s := by
  constructor
  · intro hfits
    cases hfits with
    | noModel hnone => simp [hget] at hnone
    | enumModel henum _ => simp [hget] at henum
    | nullReference => exact Or.inl ⟨rfl, rfl⟩
    | shape hget' hs' hfits =>
        rw [hget] at hget'
        cases hget'
        rw [hs] at hs'
        cases hs'
        exact Or.inr hfits
  · rintro (⟨rfl, rfl⟩ | hfits)
    · exact .nullReference
    · exact .shape hget hs hfits

theorem fits_enumModel_iff {name : String} {nullable : Bool} {description : Option String}
    {e : EnumModel} (hget : reg.get name = some (.enum e)) :
    Fits reg x (.reference name nullable description) ↔
      (nullable = true ∧ x = .null) ∨ ∃ y ∈ e.variants, x = .text y.value := by
  constructor
  · intro hfits
    cases hfits with
    | noModel hnone => simp [hget] at hnone
    | shape hobject _ _ => simp [hget] at hobject
    | nullReference => exact Or.inl ⟨rfl, rfl⟩
    | @enumModel _ _ _ _ y hget' hy =>
        rw [hget] at hget'
        cases hget'
        exact Or.inr ⟨y, hy, rfl⟩
  · rintro (⟨rfl, rfl⟩ | ⟨y, hy, rfl⟩)
    · exact .nullReference
    · exact .enumModel hget hy

theorem fits_allOf_iff {members : List IrType} {discriminator : Option Discriminator} :
    Fits reg x (.composition .allOf members discriminator) ↔ ∀ m ∈ members, Fits reg x m := by
  constructor
  · intro hfits
    cases hfits with
    | allOf hall => exact hall
    | noAlternative hkind => exact absurd rfl hkind
    | alternative hkind _ _ => exact absurd rfl hkind
  · exact .allOf

theorem fits_anyOf_iff {kind : CompositionKind} (hkind : kind ≠ .allOf) {members : List IrType}
    {discriminator : Option Discriminator} :
    Fits reg x (.composition kind members discriminator) ↔
      members = [] ∨ ∃ m ∈ members, Fits reg x m := by
  constructor
  · intro hfits
    cases hfits with
    | allOf _ => exact absurd rfl hkind
    | noAlternative _ => exact Or.inl rfl
    | alternative _ hm hfits => exact Or.inr ⟨_, hm, hfits⟩
  · rintro (rfl | ⟨m, hm, hfits⟩)
    · exact .noAlternative hkind
    · exact .alternative hkind hm hfits

end

section

variable {doc : Document} {v : Value} {x : Sample}

theorem looks_null_iff (h : Looks doc v x) : v = .null ↔ x = .null := by
  rcases x with s | _ | _ | _ | _ | item | members
  · rw [h]; simp
  · rw [h]; simp
  · rw [h]; simp
  · rw [h]; simp
  · exact iff_of_true h rfl
  · obtain ⟨w, rfl, -⟩ := h; simp
  · obtain ⟨entries, rfl, -⟩ := h; simp

theorem looks_string_iff (h : Looks doc v x) (s : String) : v = .string s ↔ x = .text s := by
  rcases x with s | _ | _ | _ | _ | item | members
  · rw [h]; simp
  · rw [h]; simp
  · rw [h]; simp
  · rw [h]; simp
  · rw [h]; simp
  · obtain ⟨w, rfl, -⟩ := h; simp
  · obtain ⟨entries, rfl, -⟩ := h; simp

theorem acceptsScalar_iff_ofScalar (h : Looks doc v x) (s : Scalar) :
    acceptsScalar v s = x.ofScalar s := by
  rcases x with _ | _ | _ | _ | _ | item | members
  · rw [h]; cases s <;> rfl
  · rw [h]; cases s <;> rfl
  · rw [h]; cases s <;> rfl
  · rw [h]; cases s <;> rfl
  · rw [h]; cases s <;> rfl
  · obtain ⟨w, rfl, -⟩ := h; cases s <;> rfl
  · obtain ⟨entries, rfl, -⟩ := h; cases s <;> rfl

/-- An array is compared by its only item. -/
theorem looks_array (h : Looks doc v x) {item : IrType} {nullable : Bool}
    (ih : ∀ x w, Looks doc w x → (Validates doc.schemas w item ↔ Fits doc.schemas x item)) :
    Validates doc.schemas v (.array item nullable) ↔
      Fits doc.schemas x (.array item nullable) := by
  rw [validates_array, looks_null_iff h]
  constructor
  · rintro (⟨rfl, rfl⟩ | ⟨items, rfl, hitems⟩)
    · exact .nullArray
    · rcases x with _ | _ | _ | _ | _ | t | _
      case array =>
        obtain ⟨w, hw, hret⟩ := h
        cases hw
        refine .array ((ih _ w (looks_of_returns hret)).mp (hitems w List.mem_cons_self))
      case object =>
        obtain ⟨entries, hv, -⟩ := h
        cases hv
      all_goals cases h
  · intro hfits
    rcases hfits with _ | _ | _ | hitem | _
    · obtain ⟨w, rfl, hret⟩ := h
      refine Or.inr ⟨[w], rfl, fun y hy => ?_⟩
      obtain rfl := List.mem_singleton.mp hy
      exact (ih _ y (looks_of_returns hret)).mpr hitem
    · exact Or.inl ⟨rfl, rfl⟩

/-- A map value by value. -/
theorem looks_map (h : Looks doc v x) {value : IrType}
    (ih : ∀ x w, Looks doc w x → (Validates doc.schemas w value ↔ Fits doc.schemas x value)) :
    Validates doc.schemas v (.map value) ↔ Fits doc.schemas x (.map value) := by
  rw [validates_map]
  constructor
  · intro hall
    refine .map fun members hx m hm => ?_
    subst hx
    obtain ⟨entries, rfl, hentries⟩ := h
    obtain ⟨e, he, -, hret⟩ := forall₂_mem_left hentries hm
    exact (ih _ e.2 (looks_of_returns hret)).mp (hall entries rfl e he)
  · intro hfits obj hv e he
    cases hfits with
    | map hmembers =>
        subst hv
        rcases x with _ | _ | _ | _ | _ | _ | members
        case object =>
          obtain ⟨entries, hv, hentries⟩ := h
          cases hv
          obtain ⟨m, hm, -, hret⟩ := forall₂_mem_right hentries he
          exact (ih _ e.2 (looks_of_returns hret)).mpr (hmembers members rfl m hm)
        case array =>
          obtain ⟨w, hv, -⟩ := h
          cases hv
        all_goals cases h

end

/-! ## §3  Valid examples -/

theorem returns_of_acyclic {doc : Document} (hac : doc.schemas.AcyclicRefs) (t : IrType) :
    ∃ v, Returns (fun n => generateExampleJson doc n t) v := by
  rw [generates_iff_acc]
  induction t using Consults.induction hac with
  | hstep t ih =>
      refine ⟨t, fun s hs => ih s ?_⟩
      cases hs with
      | item => exact .item
      | entry => exact .entry
      | first => exact .member List.mem_cons_self
      | model hget hmem =>
          obtain ⟨p, hp, rfl⟩ := List.mem_map.mp hmem
          exact .property hget hp

/-- **A value that looks like a sample is valid at a type exactly if the type
admits the sample**, where references are acyclic and every model has a shape. -/
theorem validates_iff_fits {doc : Document} (hac : doc.schemas.AcyclicRefs)
    (hshape : ∀ name o, doc.schemas.get name = some (.object o) → o.shapeType ≠ none)
    (s : IrType) : ∀ x v, Looks doc v x →
      (Validates doc.schemas v s ↔ Fits doc.schemas x s) := by
  induction s using Consults.induction hac with
  | hstep s ih =>
      intro x v h
      rcases s with sc | ⟨variants, nullable⟩ | ⟨item, nullable⟩ | value
        | ⟨name, nullable, description⟩ | ⟨kind, members, discriminator⟩ | _ | _
      · rw [validates_scalar, acceptsScalar_iff_ofScalar h]
        exact ⟨.scalar, fun hfits => by cases hfits; assumption⟩
      · rw [validates_stringEnum, looks_null_iff h]
        simp only [looks_string_iff h]
        constructor
        · rintro (⟨rfl, rfl⟩ | ⟨s, hs, rfl⟩)
          · exact .nullEnum
          · exact .variant hs
        · intro hfits
          cases hfits with
          | variant hs => exact Or.inr ⟨_, hs, rfl⟩
          | nullEnum => exact Or.inl ⟨rfl, rfl⟩
      · exact looks_array h (ih item .item)
      · exact looks_map h (ih value .entry)
      · cases hget : doc.schemas.get name with
        | none => exact iff_of_true (validates_reference_unknown hget) (.noModel hget)
        | some model =>
            rcases model with o | e
            · obtain ⟨shape, hs⟩ := Option.ne_none_iff_exists'.mp (hshape name o hget)
              rw [validates_reference_shape hget hs, fits_shape_iff hget hs, looks_null_iff h,
                ih shape (.shape hget hs) x v h]
            · rw [validates_reference_enum hget, fits_enumModel_iff hget, looks_null_iff h]
              simp only [looks_string_iff h]
      · have hmember : ∀ m ∈ members, (Validates doc.schemas v m ↔ Fits doc.schemas x m) :=
          fun m hm => ih m (.member hm) x v h
        by_cases hkind : kind = .allOf
        · subst hkind
          rw [validates_allOf, fits_allOf_iff]
          exact forall₂_congr hmember
        · rw [validates_anyOf hkind fun m _ => settles_of_acyclic hac m v, fits_anyOf_iff hkind]
          refine or_congr Iff.rfl (exists_congr fun m => and_congr_right fun hm => ?_)
          exact hmember m hm
      · exact iff_of_true validates_any .any
      · exact iff_of_true validates_unknown .unknown

theorem resolve_shape {spec : OpenAPI} {d : Document} (h : resolve spec = .ok d) {name : String}
    {o : ObjectModel} (ho : d.schemas.get name = some (.object o)) : o.shapeType ≠ none := by
  obtain ⟨c, s, known, -, -, hmodel⟩ := resolve_models h ho
  rw [modelOf_object hmodel.symm]
  exact Option.some_ne_none _

/-- **The body that the mock server answers with is valid exactly if its type
admits the sample of the type.** -/
theorem mock_response_valid_iff {spec : OpenAPI} {d : Document} (h : resolve spec = .ok d)
    (hac : d.schemas.AcyclicRefs) {op : Operation} {status : UInt16} {ty : IrType}
    (hop : successResponse op = some (status, some ty)) :
    (∃ v, Returns (fun n => pickSuccessResponse n d op) (status, v) ∧
      Validates d.schemas v ty) ↔
    Fits d.schemas (ty.sample d.schemas) ty := by
  have hpick : ∀ n, pickSuccessResponse n d op =
      (generateExampleJson d n ty).map fun json => (status, json) := by
    intro n
    unfold pickSuccessResponse
    rw [hop]
  have hfits := validates_iff_fits hac fun name o ho => resolve_shape h ho
  constructor
  · rintro ⟨v, ⟨n, hn⟩, hvalid⟩
    dsimp only at hn
    rw [hpick] at hn
    obtain ⟨w, hw, heq⟩ := Option.map_eq_some_iff.mp hn
    cases heq
    exact (hfits ty _ v (looks_generateExampleJson hw)).mp hvalid
  · intro hty
    obtain ⟨v, hv⟩ := returns_of_acyclic hac ty
    refine ⟨v, ?_, (hfits ty _ v (looks_of_returns hv)).mpr hty⟩
    obtain ⟨n, hn⟩ := hv
    refine ⟨n, ?_⟩
    dsimp only at hn ⊢
    rw [hpick, hn]
    rfl

/-- A document with the schema `Tags`, and what `GET /tags` answers with. -/
def answeringSpec (body : ReferenceOr Schema) (tags : Schema) : OpenAPI where
  info := ⟨"Tags", "1.0.0"⟩
  servers := []
  paths := IndexMap.ofList [("/tags", .item
    { get := some ⟨[], none, none, some "listTags", [], none, ⟨none, IndexMap.ofList
        [(.code 200, .item ⟨"All tags", IndexMap.ofList
          [("application/json", ⟨some body⟩)]⟩)]⟩⟩
      put := none
      post := none
      delete := none
      options := none
      head := none
      patch := none
      parameters := [] })]
  components := some (Components.ofSchemas [("Tags", .item tags)])
  security := none

def tagsSpec (tags : Schema) : OpenAPI :=
  answeringSpec (.reference "#/components/schemas/Tags") tags

/-- An enum of one value. -/
def enumTags (value : String) : Schema :=
  ⟨SchemaData.default, .type (.string ⟨.empty, [some value]⟩)⟩

/-- An array of tags is the answer. -/
def listedTags : OpenAPI :=
  answeringSpec (.item ⟨SchemaData.default, .type (.array (some
    (.reference "#/components/schemas/Tags")))⟩) (enumTags "red")

/-- An array schema: the model is an alias. -/
def arrayTags : Schema := ⟨SchemaData.default, .type (.array (some (.item
  ⟨SchemaData.default, .type (.string ⟨.empty, []⟩)⟩)))⟩

theorem acyclicRefs_single {reg : SchemaRegistry} {name : String} {o : ObjectModel} {s : IrType}
    (h : reg.models.entries = [(name, .object o)])
    (hprops : o.properties.flatMap (·.ty.refs) = []) (hshape : o.shapeType = some s)
    (hrefs : s.refs = []) : reg.AcyclicRefs := by
  intro a ha
  obtain ⟨b, ⟨o', ho, hb⟩, -⟩ := Relation.TransGen.head'_iff.mp ha
  have hmem := IndexMap.mem_entries_iff.mpr ho
  rw [h] at hmem
  cases List.mem_singleton.mp hmem
  rcases hb with ⟨t, ht, hb⟩ | ⟨p, hp, hb⟩
  · rw [hshape] at ht
    cases ht
    simp [hrefs] at hb
  · rw [List.flatMap_eq_nil_iff.mp hprops p hp] at hb
    cases hb

theorem acyclicRefs_enum {reg : SchemaRegistry} {name : String} {e : EnumModel}
    (h : reg.models.entries = [(name, .enum e)]) : reg.AcyclicRefs := by
  intro a ha
  obtain ⟨b, ⟨o, ho, -⟩, -⟩ := Relation.TransGen.head'_iff.mp ha
  have hmem := IndexMap.mem_entries_iff.mpr ho
  rw [h] at hmem
  cases List.mem_singleton.mp hmem

/-- The sample of an array has one item, the first value of the enum. -/
theorem listed_tags_valid : ∃ d op, resolve listedTags = .ok d ∧ op ∈ d.operations ∧
    ∃ v, Returns (fun n => pickSuccessResponse n d op) (200, v) ∧
      Validates d.schemas v (.array (.reference "Tags" false none) false) := by
  obtain ⟨d, op, e, y, hd, hops, hop, hentries, hget, hvariants, hsample⟩ : ∃ d op e y,
      resolve listedTags = .ok d ∧ d.operations = [op] ∧
      successResponse op = some (200, some (.array (.reference "Tags" false none) false)) ∧
      d.schemas.models.entries = [("Tags", .enum e)] ∧ d.schemas.get "Tags" = some (.enum e) ∧
      e.variants = [y] ∧
      (IrType.reference "Tags" false none).sample d.schemas = .text y.value :=
    ⟨_, _, _, _, rfl, rfl, rfl, rfl, rfl, rfl, rfl⟩
  refine ⟨d, op, hd, hops ▸ List.mem_singleton.mpr rfl, ?_⟩
  refine (mock_response_valid_iff hd (acyclicRefs_enum hentries) hop).mpr (.array ?_)
  rw [hsample]
  exact .enumModel hget (hvariants ▸ List.mem_singleton.mpr rfl)

/-- The example of an alias of an array is an empty object. -/
theorem array_alias_invalid : ∃ d op v, resolve (tagsSpec arrayTags) = .ok d ∧
    d.schemas.AcyclicRefs ∧ op ∈ d.operations ∧
    successResponse op = some (200, some (.reference "Tags" false none)) ∧
    Returns (fun n => pickSuccessResponse n d op) (200, v) ∧
    ¬Validates d.schemas v (.reference "Tags" false none) := by
  obtain ⟨d, op, hd, hops, hop, hac, hret, o, ho, hshape⟩ : ∃ d op,
      resolve (tagsSpec arrayTags) = .ok d ∧ d.operations = [op] ∧
      successResponse op = some (200, some (.reference "Tags" false none)) ∧
      d.schemas.AcyclicRefs ∧ pickSuccessResponse 2 d op = some (200, .object []) ∧
      ∃ o, d.schemas.get "Tags" = some (.object o) ∧
        o.shapeType = some (.array (.scalar .string) false) :=
    ⟨_, _, rfl, rfl, rfl, acyclicRefs_single rfl rfl rfl rfl, rfl, _, rfl, rfl⟩
  refine ⟨d, op, .object [], hd, hac, hops ▸ List.mem_singleton.mpr rfl, hop, ⟨2, hret⟩, ?_⟩
  rw [validates_reference_shape ho hshape, validates_array]
  simp

end SpecForge
