import SpecForge.Core.PlainRefs
import SpecForge.Core.References
import SpecForge.Lib.Acyclic
import SpecForge.Native.Go
import SpecForge.Native.Rust

/-!
# Types of finite size

A declared type has a finite size only if it does not come to hold itself. Neither emitter
looks beyond the model at hand, and a resolved document has no reference that would make one
of them add an indirection; so the declarations are as cyclic as the references in the places
that hold a value (`RefersTo`), for Go (§1) and for Rust (§2). §3 is the sizes.
-/

namespace SpecForge

open Lib (Acyclic IndexMap)
open Native
open OpenApi (OpenAPI Components ReferenceOr Schema)

/-! ## §1  Go -/

namespace Go

/-- The declaration of a schema. -/
def declOf (doc : Document) (schema : String) : Option GoDecl :=
  (doc.schemas.get schema).map (emitModel doc.schemas)

def HoldsByValue (doc : Document) : String → String → Prop :=
  Native.HoldsByValue (declOf doc) GoDecl.name GoDecl.byValue

/-- The model refers to a name where a value is held: as its base, by a property that is not
from the base, or as what it is another name of. -/
inductive Refers (schemas : SchemaRegistry) (o : ObjectModel) : String → Prop where
  | base {base nullable description} : o.properties ≠ [] →
      o.baseType = some (.reference base nullable description) → Refers schemas o base
  | property {p name nullable description} : p ∈ o.properties → fromBase schemas o p = false →
      p.ty = .reference name nullable description → Refers schemas o name
  | shape {name nullable description} : o.properties = [] →
      o.shapeType = some (.reference name nullable description) → Refers schemas o name

/-- The model of `M` refers to a name that Go writes like that of the schema `N`. -/
def RefersTo (schemas : SchemaRegistry) (M N : String) : Prop :=
  ∃ o name n, schemas.get M = some (.object o) ∧ schemas.get N = some n ∧
    Refers schemas o name ∧ exportIdent name = exportIdent N

theorem capitalised_exportIdent (input : String) : Capitalised (exportIdent input) := by
  unfold exportIdent
  dsimp only
  split
  · exact (capitalised_pascal input).append "Model"
  · exact capitalised_pascal input

theorem not_capitalised_scalarName (s : Scalar) : ¬Capitalised (scalarName s) := by
  rintro ⟨c, cs, h, hc⟩
  cases s <;> · cases h; cases hc

theorem not_capitalised_any : ¬Capitalised "any" := by
  rintro ⟨c, cs, h, hc⟩
  cases h
  cases hc

theorem name_emitModel (schemas : SchemaRegistry) (m : Model) :
    (emitModel schemas m).name = exportIdent m.name := by
  cases m with
  | enum e => rfl
  | object o =>
      show (emitObject o schemas).name = exportIdent o.name
      unfold emitObject
      dsimp only
      repeat' split
      all_goals rfl

/-- Only a reference is held by its own name, unless it is a pointer. -/
theorem mem_byValue_renderType {ident : String} (hident : Capitalised ident) {t : IrType}
    (hplain : t.PlainRef) : ident ∈ (renderType t).byValue ↔
      ∃ name nullable description, t = .reference name nullable description ∧
        exportIdent name = ident := by
  have hbasic : ∀ basic, ¬Capitalised basic → ident ∉ (GoType.ident basic).byValue := by
    rintro basic hbasic hmem
    exact hbasic (List.mem_singleton.mp hmem ▸ hident)
  cases t with
  | reference name nullable description =>
      obtain rfl := hplain name nullable description rfl
      constructor
      · intro hmem
        exact ⟨name, false, description, rfl, (List.mem_singleton.mp hmem).symm⟩
      · rintro ⟨name', nullable', description', h, rfl⟩
        cases h
        exact List.mem_singleton.mpr rfl
  | scalar s =>
      exact iff_of_false (hbasic _ (not_capitalised_scalarName s))
        (by rintro ⟨_, _, _, h, -⟩; cases h)
  | stringEnum variants nullable =>
      exact iff_of_false (hbasic _ (not_capitalised_scalarName .string))
        (by rintro ⟨_, _, _, h, -⟩; cases h)
  | array item nullable =>
      exact iff_of_false List.not_mem_nil (by rintro ⟨_, _, _, h, -⟩; cases h)
  | map value => exact iff_of_false List.not_mem_nil (by rintro ⟨_, _, _, h, -⟩; cases h)
  | composition kind members discriminator =>
      exact iff_of_false List.not_mem_nil (by rintro ⟨_, _, _, h, -⟩; cases h)
  | any =>
      exact iff_of_false (hbasic _ not_capitalised_any) (by rintro ⟨_, _, _, h, -⟩; cases h)
  | unknown =>
      exact iff_of_false (hbasic _ not_capitalised_any) (by rintro ⟨_, _, _, h, -⟩; cases h)

theorem mem_byValue_structFields {o : ObjectModel} {schemas : SchemaRegistry} {ident : String} :
    ident ∈ (structFields o schemas).flatMap (·.type.byValue) ↔
      ∃ p ∈ ownProperties schemas o, ident ∈ (renderType p.ty).byValue := by
  rw [structFields, List.flatMap_append, List.mem_append, List.flatMap_map, List.mem_flatMap]
  refine or_iff_left ?_
  -- the additional properties are a map
  cases o.additionalProperties with
  | none => exact List.not_mem_nil
  | some addl => exact List.not_mem_nil

theorem emitObject_of_properties {o : ObjectModel} (schemas : SchemaRegistry)
    (h : o.properties ≠ []) : emitObject o schemas = .struct (exportIdent o.name)
      ((baseName o).map exportIdent) (structFields o schemas) := by
  have hstruct : (isStructModel o && !o.properties.isEmpty) = true := by
    rw [isStructModel, List.isEmpty_eq_false_iff.mpr h]
    rfl
  simp only [emitObject, unionMembers_of_properties h, hstruct, if_true]

theorem byValue_emitObject_of_properties {o : ObjectModel} (schemas : SchemaRegistry)
    (h : o.properties ≠ []) : (emitObject o schemas).byValue =
      ((baseName o).map exportIdent).toList ++
        (structFields o schemas).flatMap (·.type.byValue) := by
  rw [emitObject_of_properties schemas h]
  rfl

/-- Without properties a model is another name of its shape; a union holds nothing. -/
theorem byValue_emitObject_of_nil {o : ObjectModel} (schemas : SchemaRegistry)
    (h : o.properties = []) : (emitObject o schemas).byValue =
      (o.shapeType.map fun t => (renderType t).byValue).getD [] := by
  have hstruct : (isStructModel o && !o.properties.isEmpty) = false := by
    rw [h]
    exact Bool.and_false _
  unfold emitObject
  cases hm : unionMembers o with
  | some members =>
      obtain ⟨-, kind, discriminator, hshape, -⟩ := unionMembers_eq_some_iff.mp hm
      rw [hshape]
      rfl
  | none =>
      rw [hstruct]
      cases o.shapeType with
      | none => rfl
      | some t => rfl

theorem mem_byValue_emitObject {o : ObjectModel} {schemas : SchemaRegistry} {ident : String}
    (hident : Capitalised ident) (hplain : (Model.object o).PlainRefs) :
    ident ∈ (emitObject o schemas).byValue ↔
      ∃ name, Refers schemas o name ∧ exportIdent name = ident := by
  obtain ⟨hplainProps, hplainShape⟩ := hplain o rfl
  by_cases hprops : o.properties = []
  · rw [byValue_emitObject_of_nil schemas hprops]
    constructor
    · intro hmem
      cases hshape : o.shapeType with
      | none =>
          rw [hshape] at hmem
          cases hmem
      | some t =>
          rw [hshape] at hmem
          obtain ⟨name, nullable, description, rfl, hname⟩ :=
            (mem_byValue_renderType hident (hplainShape t hshape)).mp hmem
          exact ⟨name, .shape hprops hshape, hname⟩
    · rintro ⟨name, hrefers, hname⟩
      cases hrefers with
      | base hne _ => exact absurd hprops hne
      | property hp _ _ => exact absurd (hprops ▸ hp) List.not_mem_nil
      | shape _ hshape =>
          rw [hshape]
          exact (mem_byValue_renderType hident (hplainShape _ hshape)).mpr
            ⟨name, _, _, rfl, hname⟩
  · rw [byValue_emitObject_of_properties schemas hprops, List.mem_append, Option.mem_toList,
      mem_byValue_structFields]
    constructor
    · rintro (hbase | ⟨p, hp, hmem⟩)
      · obtain ⟨base, hbase, hname⟩ := Option.map_eq_some_iff.mp hbase
        obtain ⟨nullable, description, hbase⟩ := baseName_eq_some_iff.mp hbase
        exact ⟨base, .base hprops hbase, hname⟩
      · obtain ⟨hp, hown⟩ := mem_ownProperties.mp hp
        obtain ⟨name, nullable, description, hty, hname⟩ :=
          (mem_byValue_renderType hident (hplainProps p hp)).mp hmem
        exact ⟨name, .property hp hown hty, hname⟩
    · rintro ⟨name, hrefers, hname⟩
      cases hrefers with
      | base _ hbase =>
          refine Or.inl (Option.map_eq_some_iff.mpr ⟨name, ?_, hname⟩)
          exact baseName_eq_some_iff.mpr ⟨_, _, hbase⟩
      | property hp hown hty =>
          refine Or.inr ⟨_, mem_ownProperties.mpr ⟨hp, hown⟩, ?_⟩
          exact (mem_byValue_renderType hident (hplainProps _ hp)).mpr ⟨name, _, _, hty, hname⟩
      | shape hnil _ => exact absurd hnil hprops

theorem holdsByValue_iff {spec : OpenAPI} {d : Document} (h : resolve spec = .ok d)
    {M N : String} : HoldsByValue d M N ↔ RefersTo d.schemas M N := by
  constructor
  · rintro ⟨decl, decl', hM, hN, hmem⟩
    obtain ⟨m, hm, rfl⟩ := Option.map_eq_some_iff.mp hM
    obtain ⟨n, hn, rfl⟩ := Option.map_eq_some_iff.mp hN
    rw [name_emitModel, resolve_named h hn] at hmem
    cases m with
    | enum e =>
        have heq : exportIdent N = "string" := List.mem_singleton.mp hmem
        have hcap := capitalised_exportIdent N
        rw [heq] at hcap
        exact absurd hcap (not_capitalised_scalarName .string)
    | object o =>
        obtain ⟨name, hrefers, hname⟩ :=
          (mem_byValue_emitObject (capitalised_exportIdent N) (resolve_plainRefs h hm)).mp hmem
        exact ⟨o, name, n, hm, hn, hrefers, hname⟩
  · rintro ⟨o, name, n, hm, hn, hrefers, hname⟩
    refine ⟨_, _, Option.map_eq_some_iff.mpr ⟨_, hm, rfl⟩,
      Option.map_eq_some_iff.mpr ⟨_, hn, rfl⟩, ?_⟩
    rw [name_emitModel, resolve_named h hn]
    exact (mem_byValue_emitObject (capitalised_exportIdent N) (resolve_plainRefs h hm)).mpr
      ⟨name, hrefers, hname⟩

end Go

/-! ## §2  Rust -/

namespace Rust

def declOf (doc : Document) (schema : String) : Option RustDecl :=
  (doc.schemas.get schema).map (emitModel doc.schemas)

theorem mem_emitModels {doc : Document} {decl : RustDecl} :
    decl ∈ emitModels doc ↔ ∃ schema, declOf doc schema = some decl :=
  IndexMap.mem_map_values_iff

def HoldsByValue (doc : Document) : String → String → Prop :=
  Native.HoldsByValue (declOf doc) RustDecl.name RustDecl.byValue

/-- A field of this type holds a value of the Rust type with that name. A text is a `String`,
which may be a model as well. -/
inductive Holds : IrType → String → Prop where
  | reference {name nullable description} :
      Holds (.reference name nullable description) (pascal name)
  | text {s} : s = .string ∨ s = .dateTime ∨ s = .uuid → Holds (.scalar s) "String"
  | enumText {variants nullable} : Holds (.stringEnum variants nullable) "String"
  | first {m members discriminator ident} : Holds m ident →
      Holds (.composition .allOf (m :: members) discriminator) ident

/-- As in Go; the arms of a union are held too. -/
inductive Refers (schemas : SchemaRegistry) (o : ObjectModel) : String → Prop where
  | base {base nullable description} : o.properties ≠ [] →
      o.baseType = some (.reference base nullable description) → Refers schemas o (pascal base)
  | property {p ident} : p ∈ o.properties → fromBase schemas o p = false →
      Holds p.ty ident → Refers schemas o ident
  | shape {t ident} : o.properties = [] → o.shapeType = some t → Holds t ident →
      Refers schemas o ident
  | arm {kind members discriminator name nullable description} : o.properties = [] →
      o.shapeType = some (.composition kind members discriminator) → kind ≠ .allOf →
      .reference name nullable description ∈ members → Refers schemas o (pascal name)

/-- The model of `M` refers to a type that has the name of the one declared for `N`. -/
def RefersTo (schemas : SchemaRegistry) (M N : String) : Prop :=
  ∃ o n, schemas.get M = some (.object o) ∧ schemas.get N = some n ∧
    Refers schemas o (safeModelName (pascal N))

theorem capitalised_safeModelName (input : String) :
    Capitalised (safeModelName (pascal input)) := by
  unfold safeModelName
  split
  · exact (capitalised_pascal input).append "Model"
  · exact capitalised_pascal input

theorem not_capitalised_value : ¬Capitalised "serde_json::Value" := by
  rintro ⟨c, cs, h, hc⟩
  cases h
  cases hc

theorem name_emitModel (schemas : SchemaRegistry) (m : Model) :
    (emitModel schemas m).name = safeModelName (pascal m.name) := by
  cases m with
  | enum e => rfl
  | object o =>
      show (emitObject o schemas).name = safeModelName (pascal o.name)
      unfold emitObject
      dsimp only
      repeat' split
      all_goals rfl

@[simp] theorem byValue_optional (t : RustType) : (optional t).byValue = t.byValue := by
  cases t <;> rfl

theorem mem_byValue_scalarName {ident : String} (hident : Capitalised ident) {s : Scalar} :
    ident = scalarName s ↔ Holds (.scalar s) ident := by
  constructor
  · rintro rfl
    obtain ⟨c, cs, h, hc⟩ := hident
    cases s with
    | string => exact .text (Or.inl rfl)
    | dateTime => exact .text (Or.inr (Or.inl rfl))
    | uuid => exact .text (Or.inr (Or.inr rfl))
    | integer => cases h; cases hc
    | integer64 => cases h; cases hc
    | float => cases h; cases hc
    | boolean => cases h; cases hc
    | base64 => cases h; cases hc
    | binary => cases h; cases hc
  · intro h
    cases h with
    | text hs => rcases hs with rfl | rfl | rfl <;> rfl

theorem mem_byValue_renderType {ident : String} (hident : Capitalised ident) (t : IrType) :
    ident ∈ (renderType t).byValue ↔ Holds t ident := by
  have hvalue : ident ∉ (RustType.path "serde_json::Value").byValue := fun hmem =>
    not_capitalised_value (List.mem_singleton.mp hmem ▸ hident)
  induction t using IrType.induction with
  | scalar s => exact List.mem_singleton.trans (mem_byValue_scalarName hident)
  | stringEnum variants nullable =>
      constructor
      · intro hmem
        obtain rfl := List.mem_singleton.mp hmem
        exact .enumText
      · rintro ⟨⟩
        exact List.mem_singleton.mpr rfl
  | array item nullable ih => exact iff_of_false List.not_mem_nil (by rintro ⟨⟩)
  | map value ih => exact iff_of_false List.not_mem_nil (by rintro ⟨⟩)
  | reference name nullable description =>
      have hbyValue : (renderType (.reference name nullable description)).byValue =
          [pascal name] := by
        cases nullable <;> rfl
      rw [hbyValue, List.mem_singleton]
      constructor
      · rintro rfl
        exact .reference
      · rintro ⟨⟩
        rfl
  | composition kind members discriminator ih =>
      cases kind with
      | oneOf => exact iff_of_false hvalue (by rintro ⟨⟩)
      | anyOf => exact iff_of_false hvalue (by rintro ⟨⟩)
      | allOf =>
          cases members with
          | nil => exact iff_of_false hvalue (by rintro ⟨⟩)
          | cons m members =>
              refine (ih m List.mem_cons_self).trans ⟨Holds.first, ?_⟩
              rintro ⟨⟩
              assumption
  | any => exact iff_of_false hvalue (by rintro ⟨⟩)
  | unknown => exact iff_of_false hvalue (by rintro ⟨⟩)

theorem mem_unionArms {o : ObjectModel} {name : String} : name ∈ unionArms o ↔
    o.properties = [] ∧ ∃ kind members discriminator nullable description,
      o.shapeType = some (.composition kind members discriminator) ∧ kind ≠ .allOf ∧
        .reference name nullable description ∈ members := by
  unfold unionArms
  constructor
  · intro hmem
    cases hm : unionMembers o with
    | none =>
        rw [hm] at hmem
        cases hmem
    | some members =>
        rw [hm] at hmem
        obtain ⟨hprops, kind, discriminator, hshape, hkind⟩ := unionMembers_eq_some_iff.mp hm
        obtain ⟨nullable, description, ht⟩ := mem_referenceArms.mp hmem
        exact ⟨hprops, kind, members, discriminator, nullable, description, hshape, hkind, ht⟩
  · rintro ⟨hprops, kind, members, discriminator, nullable, description, hshape, hkind, ht⟩
    rw [unionMembers_eq_some_iff.mpr ⟨hprops, kind, discriminator, hshape, hkind⟩]
    exact mem_referenceArms.mpr ⟨nullable, description, ht⟩

theorem unionArms_of_properties {o : ObjectModel} (h : o.properties ≠ []) : unionArms o = [] := by
  rw [unionArms, unionMembers_of_properties h]
  rfl

theorem emitObject_of_properties {o : ObjectModel} (schemas : SchemaRegistry)
    (h : o.properties ≠ []) : emitObject o schemas = .struct (safeModelName (pascal o.name))
      ((baseName o).map pascal) (structFields o schemas) := by
  simp only [emitObject, unionArms_of_properties h, List.isEmpty_nil, Bool.not_true, Bool.false_eq_true, if_false,
    List.isEmpty_eq_false_iff.mpr h, Bool.not_false, if_true]

theorem byValue_emitObject_of_nil {o : ObjectModel} (schemas : SchemaRegistry)
    (h : o.properties = []) : (emitObject o schemas).byValue =
      if (unionArms o).isEmpty then (o.shapeType.map fun t => (renderType t).byValue).getD []
      else (unionArms o).map pascal := by
  unfold emitObject
  dsimp only
  cases harms : (unionArms o).isEmpty with
  | false => rfl
  | true =>
      rw [h]
      cases o.shapeType with
      | none => rfl
      | some t => rfl

theorem mem_byValue_structFields {o : ObjectModel} {schemas : SchemaRegistry} {ident : String} :
    ident ∈ (structFields o schemas).flatMap (·.type.byValue) ↔
      ∃ p ∈ ownProperties schemas o, ident ∈ (renderType p.ty).byValue := by
  have htype : ∀ p : Property, (if p.required then renderType p.ty
      else optional (renderType p.ty)).byValue = (renderType p.ty).byValue := by
    intro p
    split
    · rfl
    · exact byValue_optional _
  simp only [structFields, List.flatMap_map, List.mem_flatMap, htype]

theorem mem_byValue_emitObject {o : ObjectModel} {schemas : SchemaRegistry} {ident : String}
    (hident : Capitalised ident) :
    ident ∈ (emitObject o schemas).byValue ↔ Refers schemas o ident := by
  by_cases hprops : o.properties = []
  · rw [byValue_emitObject_of_nil schemas hprops]
    split
    · next hnone =>
        constructor
        · intro hmem
          cases hshape : o.shapeType with
          | none =>
              rw [hshape] at hmem
              cases hmem
          | some t =>
              rw [hshape] at hmem
              exact .shape hprops hshape ((mem_byValue_renderType hident t).mp hmem)
        · intro hrefers
          cases hrefers with
          | base hne _ => exact absurd hprops hne
          | property hp _ _ => exact absurd (hprops ▸ hp) List.not_mem_nil
          | shape _ hshape hholds =>
              rw [hshape]
              exact (mem_byValue_renderType hident _).mpr hholds
          | arm _ hshape hkind ht =>
              have harm := mem_unionArms.mpr ⟨hprops, _, _, _, _, _, hshape, hkind, ht⟩
              rw [List.isEmpty_iff.mp hnone] at harm
              cases harm
    · next hsome =>
        constructor
        · intro hmem
          obtain ⟨name, hname, rfl⟩ := List.mem_map.mp hmem
          obtain ⟨-, kind, members, discriminator, nullable, description, hshape, hkind, ht⟩ :=
            mem_unionArms.mp hname
          exact .arm hprops hshape hkind ht
        · intro hrefers
          cases hrefers with
          | base hne _ => exact absurd hprops hne
          | property hp _ _ => exact absurd (hprops ▸ hp) List.not_mem_nil
          | shape _ hshape hholds =>
              -- a type with reference arms is held as a JSON value
              obtain ⟨name, hname⟩ := List.exists_mem_of_ne_nil _
                fun hnil => hsome (List.isEmpty_iff.mpr hnil)
              obtain ⟨-, kind, members, discriminator, _, _, hshape', hkind, -⟩ :=
                mem_unionArms.mp hname
              rw [hshape] at hshape'
              cases hshape'
              cases hholds
              exact absurd rfl hkind
          | arm _ hshape hkind ht =>
              exact List.mem_map_of_mem
                (mem_unionArms.mpr ⟨hprops, _, _, _, _, _, hshape, hkind, ht⟩)
  · rw [emitObject_of_properties schemas hprops, RustDecl.byValue, List.mem_append,
      Option.mem_toList, mem_byValue_structFields]
    constructor
    · rintro (hbase | ⟨p, hp, hmem⟩)
      · obtain ⟨base, hname, rfl⟩ := Option.map_eq_some_iff.mp hbase
        obtain ⟨nullable, description, hbase⟩ := baseName_eq_some_iff.mp hname
        exact .base hprops hbase
      · obtain ⟨hp, hown⟩ := mem_ownProperties.mp hp
        exact .property hp hown ((mem_byValue_renderType hident p.ty).mp hmem)
    · intro hrefers
      cases hrefers with
      | base _ hbase =>
          refine Or.inl (Option.map_eq_some_iff.mpr ⟨_, ?_, rfl⟩)
          exact baseName_eq_some_iff.mpr ⟨_, _, hbase⟩
      | property hp hown hholds =>
          exact Or.inr ⟨_, mem_ownProperties.mpr ⟨hp, hown⟩,
            (mem_byValue_renderType hident _).mpr hholds⟩
      | shape hnil _ _ => exact absurd hnil hprops
      | arm hnil _ _ _ => exact absurd hnil hprops

theorem holdsByValue_iff {spec : OpenAPI} {d : Document} (h : resolve spec = .ok d)
    {M N : String} : HoldsByValue d M N ↔ RefersTo d.schemas M N := by
  constructor
  · rintro ⟨decl, decl', hM, hN, hmem⟩
    obtain ⟨m, hm, rfl⟩ := Option.map_eq_some_iff.mp hM
    obtain ⟨n, hn, rfl⟩ := Option.map_eq_some_iff.mp hN
    rw [name_emitModel, resolve_named h hn] at hmem
    cases m with
    | enum e => cases hmem
    | object o =>
        exact ⟨o, n, hm, hn, (mem_byValue_emitObject (capitalised_safeModelName N)).mp hmem⟩
  · rintro ⟨o, n, hm, hn, hrefers⟩
    refine ⟨_, _, Option.map_eq_some_iff.mpr ⟨_, hm, rfl⟩,
      Option.map_eq_some_iff.mpr ⟨_, hn, rfl⟩, ?_⟩
    rw [name_emitModel, resolve_named h hn]
    exact (mem_byValue_emitObject (capitalised_safeModelName N)).mpr hrefers

end Rust

/-! ## §3  Documents -/

/-- Every declared type has a size, one more than those of the types it holds together, exactly
if the declarations are acyclic. -/
theorem declared_sizes_iff (doc : Document) :
    (Acyclic (Go.HoldsByValue doc) ↔ ∃ size : String → ℕ, ∀ M, size M =
        1 + ((heldSchemas (Go.declOf doc) Go.GoDecl.name Go.GoDecl.byValue
          doc.schemas.names M).map size).sum) ∧
      (Acyclic (Rust.HoldsByValue doc) ↔ ∃ size : String → ℕ, ∀ M, size M =
        1 + ((heldSchemas (Rust.declOf doc) Rust.RustDecl.name Rust.RustDecl.byValue
          doc.schemas.names M).map size).sum) := by
  have hnames : ∀ N m, doc.schemas.get N = some m → N ∈ doc.schemas.names :=
    fun N m hm => IndexMap.mem_keys_iff.mpr ⟨m, hm⟩
  constructor
  · apply acyclic_holdsByValue_iff
    intro N decl hdecl
    obtain ⟨m, hm, -⟩ := Option.map_eq_some_iff.mp hdecl
    exact hnames N m hm
  · apply acyclic_holdsByValue_iff
    intro N decl hdecl
    obtain ⟨m, hm, -⟩ := Option.map_eq_some_iff.mp hdecl
    exact hnames N m hm

/-- **The types declared for a resolved document are acyclic exactly if its schemas are, along
the references where a value is held**: in Go the base, the properties and the other names of
a model, in Rust also the arms of a union and what an `allOf` starts with. -/
theorem declarations_acyclic_iff {spec : OpenAPI} {d : Document} (h : resolve spec = .ok d) :
    (Acyclic (Go.HoldsByValue d) ↔ Acyclic (Go.RefersTo d.schemas)) ∧
      (Acyclic (Rust.HoldsByValue d) ↔ Acyclic (Rust.RefersTo d.schemas)) := by
  have hgo : Go.HoldsByValue d = Go.RefersTo d.schemas := by
    ext M N
    exact Go.holdsByValue_iff h
  have hrust : Rust.HoldsByValue d = Rust.RefersTo d.schemas := by
    ext M N
    exact Rust.holdsByValue_iff h
  rw [hgo, hrust]
  exact ⟨Iff.rfl, Iff.rfl⟩

/-- A document with one object schema of one property. -/
def singlePropertySpec (name property : String) (s : ReferenceOr Schema) : OpenAPI where
  info := ⟨"Nodes", "1.0.0"⟩
  servers := []
  paths := IndexMap.empty
  components := some (Components.ofSchemas [(name, .item ⟨OpenApi.SchemaData.default,
    .type (.object ⟨[(property, s)], [], none⟩)⟩)])
  security := none

/-- A node with a list of nodes. -/
def treeNodeSpec : OpenAPI := singlePropertySpec "TreeNode" "children" (.item ⟨OpenApi.SchemaData.default,
  .type (.array (some (.reference "#/components/schemas/TreeNode")))⟩)

/-- A node with another node. -/
def linkedNodeSpec : OpenAPI := singlePropertySpec "Node" "next" (.reference "#/components/schemas/Node")

theorem treeNode_properties {d : Document} (h : resolve treeNodeSpec = .ok d) {M : String}
    {o : ObjectModel} (hM : d.schemas.get M = some (.object o)) : o.properties ≠ [] ∧
      o.baseType = none ∧ ∀ p ∈ o.properties, ∃ item nullable, p.ty = .array item nullable := by
  cases h
  have hmem := IndexMap.mem_entries_iff.mpr hM
  cases List.mem_singleton.mp hmem
  refine ⟨List.cons_ne_nil _ _, rfl, fun p hp => ?_⟩
  cases List.mem_singleton.mp hp
  exact ⟨_, _, rfl⟩

theorem declarations_acyclic_tree : ∃ d, resolve treeNodeSpec = .ok d ∧
    Acyclic (Go.HoldsByValue d) ∧ Acyclic (Rust.HoldsByValue d) := by
  obtain ⟨d, hd⟩ : ∃ d, resolve treeNodeSpec = .ok d := ⟨_, rfl⟩
  refine ⟨d, hd, (declarations_acyclic_iff hd).1.mpr ?_, (declarations_acyclic_iff hd).2.mpr ?_⟩
  · intro M hcycle
    obtain ⟨N, ⟨o, name, n, hM, -, hrefers, -⟩, -⟩ := Relation.TransGen.head'_iff.mp hcycle
    obtain ⟨hne, hbase, harray⟩ := treeNode_properties hd hM
    cases hrefers with
    | base _ hbase' => cases hbase.symm.trans hbase'
    | property hp _ hty =>
        obtain ⟨item, nullable, hty'⟩ := harray _ hp
        cases hty.symm.trans hty'
    | shape hnil _ => exact hne hnil
  · intro M hcycle
    obtain ⟨N, ⟨o, n, hM, -, hrefers⟩, -⟩ := Relation.TransGen.head'_iff.mp hcycle
    obtain ⟨hne, hbase, harray⟩ := treeNode_properties hd hM
    generalize Rust.safeModelName (pascal N) = ident at hrefers
    cases hrefers with
    | base _ hbase' => cases hbase.symm.trans hbase'
    | property hp _ hholds =>
        obtain ⟨item, nullable, hty'⟩ := harray _ hp
        rw [hty'] at hholds
        cases hholds
    | shape hnil _ _ => exact hne hnil
    | arm hnil _ _ _ => exact hne hnil

/-- A schema that refers to itself gives a type of infinite size, in both languages. -/
theorem self_reference_unsized : ∃ spec d, resolve spec = .ok d ∧
    ¬Acyclic (Go.HoldsByValue d) ∧ ¬Acyclic (Rust.HoldsByValue d) := by
  obtain ⟨d, hd⟩ : ∃ d, resolve linkedNodeSpec = .ok d := ⟨_, rfl⟩
  refine ⟨linkedNodeSpec, d, hd, fun hac => hac "Node" (.single ?_), fun hac => hac "Node" (.single ?_)⟩
  · rw [Go.holdsByValue_iff hd]
    cases hd
    exact ⟨_, "Node", _, rfl, rfl, .property List.mem_cons_self rfl rfl, rfl⟩
  · rw [Rust.holdsByValue_iff hd]
    cases hd
    have hname : Rust.safeModelName (pascal "Node") = pascal "Node" := by decide
    refine ⟨_, _, rfl, rfl, ?_⟩
    rw [hname]
    exact .property List.mem_cons_self rfl .reference

end SpecForge
