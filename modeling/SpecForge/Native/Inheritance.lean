import SpecForge.Core.MergeOverlay
import SpecForge.Core.ResolvedObjects
import SpecForge.Native.FiniteTypes

/-!
# Inheritance

The resolver merges the properties of an `allOf` into one list, in which a later member
overrides an earlier one and everything required by a member is required. The Go and the Rust
emitter leave out of the struct each property whose name its base has too. Together the structs
up the chain of bases say the same as the merged list exactly if nothing was overridden.

- §1 chains of bases, for any emitter; §2 what a chain declares and what was merged.
- §3 the structs of the two emitters; §4 when they keep the merged model.
-/

namespace SpecForge.Native

open Lib Relation

/-! ## §1  Chains -/

/-- The struct of `o` has that of `b` as its base. -/
def Base (schemas : SchemaRegistry) (o b : ObjectModel) : Prop :=
  o.properties ≠ [] ∧ ∃ base, baseName o = some base ∧ schemas.get base = some (.object b)

/-- A property that the struct of a model declares itself. -/
def Declares (schemas : SchemaRegistry) (o : ObjectModel) (p : Property) : Prop :=
  p ∈ ownProperties schemas o

/-- What a struct says of a field: its JSON name, its type and whether it is required. -/
structure StructField (T : Type) where
  json : String
  type : T
  required : Bool

section Chain

variable {T : Type} (type : Property → T) (listed : String → Bool → Prop)

/-- The field for a property. -/
def fieldOf (p : Property) : StructField T := ⟨p.name, type p, p.required⟩

/-- The fields of a struct and of those up its chain of bases, without those that are not listed
in JSON. -/
def chainFields (schemas : SchemaRegistry) (o : ObjectModel) : Set (StructField T) :=
  { f | ∃ a, ReflTransGen (Base schemas) o a ∧ ∃ p, Declares schemas a p ∧
    listed p.name p.required ∧ f = fieldOf type p }

def mergedFields (o : ObjectModel) : Set (StructField T) :=
  { f | ∃ p ∈ o.properties, f = fieldOf type p }

/-- No base up the chain declares anything that was overridden, and nothing gets lost. -/
structure KeepsMerged (schemas : SchemaRegistry) (o : ObjectModel) : Prop where
  agree : ∀ a, TransGen (Base schemas) o a → ∀ p, Declares schemas a p →
    listed p.name p.required → ∃ q ∈ o.properties, fieldOf type q = fieldOf type p
  declared : ∀ p ∈ o.properties, listed p.name p.required ∧
    ∃ a, ReflTransGen (Base schemas) o a ∧ ∃ q, Declares schemas a q ∧
      listed q.name q.required ∧ q.name = p.name

variable {type listed}

theorem declares_iff {schemas : SchemaRegistry} {o : ObjectModel} {p : Property} :
    Declares schemas o p ↔ p ∈ o.properties ∧ fromBase schemas o p = false :=
  mem_ownProperties

/-- **A chain keeps the merged properties** exactly if its bases agree with them. -/
theorem chainFields_eq_mergedFields_iff {schemas : SchemaRegistry} {o : ObjectModel}
    (hunique : ∀ p ∈ o.properties, ∀ q ∈ o.properties, p.name = q.name → p = q) :
    chainFields type listed schemas o = mergedFields type o ↔
      KeepsMerged type listed schemas o := by
  constructor
  · intro heq
    constructor
    · intro a ha p hp hlisted
      have hmem : fieldOf type p ∈ chainFields type listed schemas o :=
        ⟨a, ha.to_reflTransGen, p, hp, hlisted, rfl⟩
      rw [heq] at hmem
      obtain ⟨q, hq, hfield⟩ := hmem
      exact ⟨q, hq, hfield.symm⟩
    · intro p hp
      have hmem : fieldOf type p ∈ mergedFields type o := ⟨p, hp, rfl⟩
      rw [← heq] at hmem
      obtain ⟨a, ha, q, hq, hlisted, hfield⟩ := hmem
      have hname : p.name = q.name := congrArg StructField.json hfield
      have hrequired : p.required = q.required := congrArg StructField.required hfield
      exact ⟨by rw [hname, hrequired]; exact hlisted, a, ha, q, hq, hlisted, hname.symm⟩
  · intro hkeeps
    ext f
    constructor
    · rintro ⟨a, ha, p, hp, hlisted, rfl⟩
      rcases reflTransGen_iff_eq_or_transGen.mp ha with rfl | ha
      · exact ⟨p, (declares_iff.mp hp).1, rfl⟩
      · obtain ⟨q, hq, hfield⟩ := hkeeps.agree a ha p hp hlisted
        exact ⟨q, hq, hfield.symm⟩
    · rintro ⟨p, hp, rfl⟩
      obtain ⟨hlisted, a, ha, q, hq, hqlisted, hname⟩ := hkeeps.declared p hp
      rcases reflTransGen_iff_eq_or_transGen.mp ha with rfl | ha'
      · obtain rfl := hunique q (declares_iff.mp hq).1 p hp hname
        exact ⟨_, .refl, q, hq, hlisted, rfl⟩
      · -- the merged property of that name is the one that the base agrees with
        obtain ⟨p', hp', hfield⟩ := hkeeps.agree a ha' q hq hqlisted
        have hname' : p'.name = q.name := congrArg StructField.json hfield
        obtain rfl := hunique p' hp' p hp (hname'.trans hname)
        exact ⟨a, ha, q, hq, hqlisted, hfield⟩

/-- Nothing gets lost where the chain comes to an end. -/
theorem exists_declares_of_acc {schemas : SchemaRegistry} {o : ObjectModel}
    (hends : Acc (fun b o => Base schemas o b) o) : ∀ p ∈ o.properties,
      ∃ a, ReflTransGen (Base schemas) o a ∧ ∃ q, Declares schemas a q ∧ q.name = p.name := by
  induction hends with
  | intro o _ ih =>
      intro p hp
      by_cases hbase : fromBase schemas o p = true
      · have hprops : o.properties ≠ [] := List.ne_nil_of_mem hp
        unfold fromBase at hbase
        split at hbase
        · next base hname =>
            split at hbase
            · next b hb =>
                obtain ⟨bp, hbp, hsame⟩ := List.any_eq_true.mp hbase
                have hstep : Base schemas o b := ⟨hprops, base, hname, hb⟩
                obtain ⟨a, ha, q, hq, heq⟩ := ih b hstep bp hbp
                exact ⟨a, ha.head hstep, q, hq, heq.trans (eq_of_beq hsame)⟩
            · cases hbase
        · cases hbase
      · exact ⟨o, .refl, p, declares_iff.mpr ⟨hp, by simpa using hbase⟩, rfl⟩

/-- Where the chain ends and every field is listed, only agreement matters. -/
theorem keepsMerged_iff_of_acc {schemas : SchemaRegistry} {o : ObjectModel}
    (hlisted : ∀ name required, listed name required)
    (hends : Acc (fun b o => Base schemas o b) o) : KeepsMerged type listed schemas o ↔
      ∀ a, TransGen (Base schemas) o a → ∀ p, Declares schemas a p →
        ∃ q ∈ o.properties, fieldOf type q = fieldOf type p := by
  constructor
  · intro h a ha p hp
    exact h.agree a ha p hp (hlisted _ _)
  · intro h
    refine ⟨fun a ha p hp _ => h a ha p hp, fun p hp => ⟨hlisted _ _, ?_⟩⟩
    obtain ⟨a, ha, q, hq, hname⟩ := exists_declares_of_acc hends p hp
    exact ⟨a, ha, q, hq, hlisted _ _, hname⟩

end Chain

section Structs

variable {F : Type} (parts : ObjectModel → Option (Option String × List F))
  (ident : String → String) (fields : ObjectModel → List F)

/-- The fields of an emitted struct and of those it holds as its base: `parts` is what is
emitted for a model, the name of a base and the fields. -/
inductive ChainField (schemas : SchemaRegistry) : ObjectModel → F → Prop where
  | own {o held fs f} : parts o = some (held, fs) → f ∈ fs → ChainField schemas o f
  | base {o name fs base b f} : parts o = some (some name, fs) → baseName o = some base →
      schemas.get base = some (.object b) → ChainField schemas b f → ChainField schemas o f

/-- A model with properties becomes a struct with its base; another has no fields. -/
structure EmitsStructs : Prop where
  of_properties : ∀ {o : ObjectModel}, o.properties ≠ [] →
    parts o = some ((baseName o).map ident, fields o)
  of_nil : ∀ {o : ObjectModel}, o.properties = [] → parts o = none ∨ parts o = some (none, [])

variable {parts ident fields}

theorem chainField_iff (h : EmitsStructs parts ident fields) {schemas : SchemaRegistry}
    {o : ObjectModel} {f : F} : ChainField parts schemas o f ↔
      ∃ a, ReflTransGen (Base schemas) o a ∧ a.properties ≠ [] ∧ f ∈ fields a := by
  constructor
  · intro hfield
    induction hfield with
    | @own o held fs f hparts hf =>
        by_cases hprops : o.properties = []
        · rcases h.of_nil hprops with hnone | hempty
          · rw [hnone] at hparts
            cases hparts
          · rw [hempty] at hparts
            cases hparts
            cases hf
        · rw [h.of_properties hprops] at hparts
          cases hparts
          exact ⟨o, .refl, hprops, hf⟩
    | @base o name fs base b f hparts hbase hb _ ih =>
        have hprops : o.properties ≠ [] := by
          intro hnil
          rcases h.of_nil hnil with hnone | hempty
          · rw [hnone] at hparts
            cases hparts
          · rw [hempty] at hparts
            cases hparts
        obtain ⟨a, ha, hfield⟩ := ih
        exact ⟨a, ha.head ⟨hprops, base, hbase, hb⟩, hfield⟩
  · rintro ⟨a, ha, hprops, hf⟩
    induction ha using ReflTransGen.head_induction_on with
    | refl => exact .own (h.of_properties hprops) hf
    | head hstep _ ih =>
        obtain ⟨hne, base, hbase, hb⟩ := hstep
        have hparts := h.of_properties hne
        rw [hbase] at hparts
        exact .base hparts hbase hb ih

end Structs

/-! ## §2  Resolved models -/

/-- The properties of a merge have distinct names. -/
theorem unique_of_resolve {spec : OpenApi.OpenAPI} {d : Document} (h : resolve spec = .ok d)
    {M B : String} {o : ObjectModel} (hM : d.schemas.get M = some (.object o))
    (hB : baseName o = some B) :
    ∀ p ∈ o.properties, ∀ q ∈ o.properties, p.name = q.name → p = q := by
  obtain ⟨c, s, known, -, -, hmodel⟩ := resolve_models h hM
  obtain ⟨nullable, description, hbase⟩ := baseName_eq_some_iff.mp hB
  unfold modelOf at hmodel
  split at hmodel
  · cases hmodel
  · obtain rfl := Model.object.inj hmodel
    dsimp only at hbase
    split at hbase
    · next allOf hkind =>
        dsimp only
        rw [hkind]
        intro p hp q hq hname
        have hat := mem_mergedProperties.mp hp
        rw [hname, mem_mergedProperties.mp hq] at hat
        exact (Option.some.inj hat).symm
    · cases hbase

end SpecForge.Native

/-! ## §3  Structs -/

namespace SpecForge.Go

open Native Relation

def GoDecl.structParts : GoDecl → Option (Option String × List GoField)
  | .struct _ embedded fields => some (embedded, fields)
  | _ => none

/-- The fields of the struct of a model and of those embedded in it. -/
def HasField (schemas : SchemaRegistry) : ObjectModel → GoField → Prop :=
  ChainField (fun o => (emitObject o schemas).structParts) schemas

/-- A field with the tag `-` is no JSON field. -/
def GoField.IsJson (f : GoField) : Prop := ¬(f.json = "-" ∧ f.omitempty = false)

def jsonFields (schemas : SchemaRegistry) (o : ObjectModel) : Set (StructField GoType) :=
  { f | ∃ g, HasField schemas o g ∧ g.IsJson ∧ f = ⟨g.json, g.type, !g.omitempty⟩ }

def propertyType (p : Property) : GoType := renderType p.ty

def Listed (name : String) (required : Bool) : Prop := ¬(name = "-" ∧ required = true)

theorem emitsStructs (schemas : SchemaRegistry) :
    EmitsStructs (fun o => (emitObject o schemas).structParts) exportIdent
      (structFields · schemas) where
  of_properties := by
    intro o hprops
    rw [emitObject_of_properties schemas hprops]
    rfl
  of_nil := by
    intro o hprops
    unfold emitObject
    dsimp only
    rw [hprops, List.isEmpty_nil, Bool.not_true, Bool.and_false]
    cases unionMembers o with
    | some members => exact Or.inl rfl
    | none =>
        cases o.shapeType with
        | some shape => exact Or.inl rfl
        | none => exact Or.inr rfl

/-- The JSON fields of a struct are those for properties; `AdditionalProperties` is none. -/
theorem mem_structFields_iff {schemas : SchemaRegistry} {o : ObjectModel} {f : GoField} :
    f ∈ structFields o schemas ∧ f.IsJson ↔ ∃ p, Declares schemas o p ∧
      Listed p.name p.required ∧ f = ⟨p.name, !p.required, propertyType p⟩ := by
  have hlisted : ∀ p : Property, GoField.IsJson ⟨p.name, !p.required, propertyType p⟩ ↔
      Listed p.name p.required := by
    intro p
    unfold GoField.IsJson Listed
    rw [Bool.not_eq_false']
  rw [structFields, List.mem_append]
  constructor
  · rintro ⟨hf | hf, hjson⟩
    · obtain ⟨p, hp, rfl⟩ := List.mem_map.mp hf
      exact ⟨p, hp, (hlisted p).mp hjson, rfl⟩
    · split at hf
      · obtain rfl := List.mem_singleton.mp hf
        exact absurd ⟨rfl, rfl⟩ hjson
      · cases hf
  · rintro ⟨p, hp, hjson, rfl⟩
    exact ⟨Or.inl (List.mem_map_of_mem hp), (hlisted p).mpr hjson⟩

theorem jsonFields_eq (schemas : SchemaRegistry) (o : ObjectModel) :
    jsonFields schemas o = chainFields propertyType Listed schemas o := by
  ext f
  constructor
  · rintro ⟨g, hg, hjson, rfl⟩
    obtain ⟨a, ha, -, hfield⟩ := (chainField_iff (emitsStructs schemas)).mp hg
    obtain ⟨p, hp, hlisted, rfl⟩ := mem_structFields_iff.mp ⟨hfield, hjson⟩
    exact ⟨a, ha, p, hp, hlisted, by rw [fieldOf, Bool.not_not]⟩
  · rintro ⟨a, ha, p, hp, hlisted, rfl⟩
    obtain ⟨hfield, hjson⟩ := mem_structFields_iff.mpr ⟨p, hp, hlisted, rfl⟩
    have hprops : a.properties ≠ [] := List.ne_nil_of_mem (declares_iff.mp hp).1
    exact ⟨_, (chainField_iff (emitsStructs schemas)).mpr ⟨a, ha, hprops, hfield⟩, hjson,
      by rw [fieldOf, Bool.not_not]⟩

end SpecForge.Go

namespace SpecForge.Rust

open Native Relation

def RustDecl.structParts : RustDecl → Option (Option String × List RustField)
  | .struct _ flattened fields => some (flattened, fields)
  | _ => none

/-- The fields of the struct of a model and of those flattened into it. -/
def HasField (registry : SchemaRegistry) : ObjectModel → RustField → Prop :=
  ChainField (fun o => (emitObject o registry).structParts) registry

def jsonFields (registry : SchemaRegistry) (o : ObjectModel) : Set (StructField RustType) :=
  { f | ∃ g, HasField registry o g ∧ f = ⟨g.json, g.type, !g.skipNone⟩ }

def propertyType (p : Property) : RustType :=
  if p.required then renderType p.ty else optional (renderType p.ty)

theorem emitsStructs (registry : SchemaRegistry) :
    EmitsStructs (fun o => (emitObject o registry).structParts) pascal
      (structFields · registry) where
  of_properties := by
    intro o hprops
    rw [emitObject_of_properties registry hprops]
    rfl
  of_nil := by
    intro o hprops
    unfold emitObject
    dsimp only
    rw [hprops, List.isEmpty_nil, Bool.not_true]
    cases (unionArms o).isEmpty with
    | false => exact Or.inl rfl
    | true =>
        cases o.shapeType with
        | some shape => exact Or.inl rfl
        | none => exact Or.inr rfl

theorem jsonFields_eq (registry : SchemaRegistry) (o : ObjectModel) :
    jsonFields registry o = chainFields propertyType (fun _ _ => True) registry o := by
  ext f
  constructor
  · rintro ⟨g, hg, rfl⟩
    obtain ⟨a, ha, -, hfield⟩ := (chainField_iff (emitsStructs registry)).mp hg
    obtain ⟨p, hp, rfl⟩ := List.mem_map.mp hfield
    exact ⟨a, ha, p, hp, trivial, by rw [fieldOf, Bool.not_not]; rfl⟩
  · rintro ⟨a, ha, p, hp, -, rfl⟩
    have hprops : a.properties ≠ [] := List.ne_nil_of_mem (declares_iff.mp hp).1
    exact ⟨_, (chainField_iff (emitsStructs registry)).mpr
      ⟨a, ha, hprops, List.mem_map_of_mem hp⟩, by rw [fieldOf, Bool.not_not]; rfl⟩

end SpecForge.Rust

/-! ## §4  Merged models -/

namespace SpecForge.Native

open Relation

/-- **When inheritance keeps the merged model**: in either language exactly if each struct up the
chain of bases declares what was merged, and nothing gets lost. -/
theorem inheritance_keepsMerged_iff {spec : OpenApi.OpenAPI} {d : Document}
    (h : resolve spec = .ok d) {M B : String} {o : ObjectModel}
    (hM : d.schemas.get M = some (.object o)) (hB : baseName o = some B) :
    (Go.jsonFields d.schemas o = mergedFields Go.propertyType o ↔
      KeepsMerged Go.propertyType Go.Listed d.schemas o) ∧
    (Rust.jsonFields d.schemas o = mergedFields Rust.propertyType o ↔
      KeepsMerged Rust.propertyType (fun _ _ => True) d.schemas o) := by
  have hunique := unique_of_resolve h hM hB
  rw [Go.jsonFields_eq, Rust.jsonFields_eq]
  exact ⟨chainFields_eq_mergedFields_iff hunique, chainFields_eq_mergedFields_iff hunique⟩

/-- A schema with a text property, and one that takes the property from it and declares another
on top. -/
def derivedSpec (property : String) (s : OpenApi.OApiType) : OpenApi.OpenAPI where
  info := ⟨"Derived", "1.0.0"⟩
  servers := []
  paths := Lib.IndexMap.empty
  components := some (.ofSchemas
    [("Base", .item ⟨.default, .type (.object
      ⟨[("x", .item ⟨.default, .type (.string ⟨.empty, []⟩)⟩)], [], none⟩)⟩),
     ("Derived", .item ⟨.default, .allOf [.reference "#/components/schemas/Base",
      .item ⟨.default, .type (.object ⟨[(property, .item ⟨.default, .type s⟩)], [], none⟩)⟩]⟩)])
  security := none

/-- Another property next to the one of the base. -/
theorem derived_extends : ∃ d o b, resolve (derivedSpec "y" (.integer ⟨.empty⟩)) = .ok d ∧
    d.schemas.get "Derived" = some (.object o) ∧ baseName o = some "Base" ∧
    d.schemas.get "Base" = some (.object b) :=
  ⟨_, _, _, rfl, rfl, rfl, rfl⟩

theorem inheritance_keepsMerged_extended : ∃ d o,
    resolve (derivedSpec "y" (.integer ⟨.empty⟩)) = .ok d ∧
    d.schemas.get "Derived" = some (.object o) ∧
    (Go.jsonFields d.schemas o = mergedFields Go.propertyType o ↔
      KeepsMerged Go.propertyType Go.Listed d.schemas o) ∧
    (Rust.jsonFields d.schemas o = mergedFields Rust.propertyType o ↔
      KeepsMerged Rust.propertyType (fun _ _ => True) d.schemas o) := by
  obtain ⟨d, o, b, hd, hderived, hbase, -⟩ := derived_extends
  exact ⟨d, o, hd, hderived, inheritance_keepsMerged_iff hd hderived hbase⟩

theorem derived_overrides : ∃ d o b, resolve (derivedSpec "x" (.integer ⟨.empty⟩)) = .ok d ∧
    d.schemas.get "Derived" = some (.object o) ∧ baseName o = some "Base" ∧
    d.schemas.get "Base" = some (.object b) ∧ b.baseType = none ∧
    b.properties = [⟨"x", .scalar .string, false, none⟩] ∧
    o.properties = [⟨"x", .scalar .integer, false, none⟩] :=
  ⟨_, _, _, rfl, rfl, rfl, rfl, rfl, rfl, rfl⟩

/-- The struct of the base says `string` where the merged property is an integer. -/
theorem override_lost : ¬ ∀ (spec : OpenApi.OpenAPI) (d : Document) (M B : String)
    (o b : ObjectModel), resolve spec = .ok d → d.schemas.get M = some (.object o) →
    baseName o = some B → d.schemas.get B = some (.object b) →
    Go.jsonFields d.schemas o = mergedFields Go.propertyType o ∧
      Rust.jsonFields d.schemas o = mergedFields Rust.propertyType o := by
  intro h
  obtain ⟨d, o, b, hd, hderived, hbase, hb, hnobase, hbprops, hoprops⟩ := derived_overrides
  obtain ⟨hgo, -⟩ := h _ d "Derived" "Base" o b hd hderived hbase hb
  have hkeeps := (inheritance_keepsMerged_iff hd hderived hbase).1.mp hgo
  have hprops : o.properties ≠ [] := by
    rw [hoprops]
    exact List.cons_ne_nil _ _
  have hstep : Base d.schemas o b := ⟨hprops, "Base", hbase, hb⟩
  have hdeclares : Declares d.schemas b ⟨"x", .scalar .string, false, none⟩ := by
    refine declares_iff.mpr ⟨by rw [hbprops]; exact List.mem_singleton.mpr rfl, ?_⟩
    unfold fromBase baseName
    rw [hnobase]
  obtain ⟨q, hq, hfield⟩ := hkeeps.agree b (.single hstep) _ hdeclares
    (show ¬("x" = "-" ∧ false = true) by decide)
  rw [hoprops] at hq
  obtain rfl := List.mem_singleton.mp hq
  have htype := congrArg StructField.type hfield
  exact absurd htype (by decide)

end SpecForge.Native
