import SpecForge.Core.ComponentRefs

/-!
# Parameters of a path item and of its operations

An operation has the parameters that its path item declares and its own. The two levels
are told apart by keys, a name and a place, and under one key the operation has the last
word (`OverridesPathLevel`, §1). `resolve_operation` keeps the first parameter of each name
instead. §2 says what it keeps, §3 when that is the same.
-/

namespace SpecForge

open Lib (keepNew)
open OpenApi (ReferenceOr Components)

/-! ## §1  Declarations -/

namespace OpenApi

/-- Where a parameter is sent. -/
inductive ParameterIn where
  | query
  | header
  | path
  | cookie
deriving DecidableEq

def Parameter.name : Parameter → String
  | .query data | .header data | .path data | .cookie data => data.name

def Parameter.place : Parameter → ParameterIn
  | .query _ => .query
  | .header _ => .header
  | .path _ => .path
  | .cookie _ => .cookie

/-- Two parameters are the same one if they have one key. -/
def Parameter.key (d : Parameter) : String × ParameterIn := (d.name, d.place)

end OpenApi

variable {components : Option Components}

/-- A parameter object or the one behind a chain of references. -/
inductive Denotes (components : Option Components) :
    ReferenceOr OpenApi.Parameter → OpenApi.Parameter → Prop
  | item (d : OpenApi.Parameter) : Denotes components (.item d) d
  | reference {reference : String} {p : ReferenceOr OpenApi.Parameter} {d : OpenApi.Parameter}
      (hget : (components.bind fun c => c.parameters.get (refName reference)) = some p)
      (hp : Denotes components p d) : Denotes components (.reference reference) d

/-- Some entry of a parameter list declares `d`. -/
def DeclaredIn (components : Option Components) (ps : List (ReferenceOr OpenApi.Parameter))
    (d : OpenApi.Parameter) : Prop :=
  ∃ p ∈ ps, Denotes components p d

/-- One parameter for each key that is declared at either level, the one of the operation if
the operation declares the key. -/
def OverridesPathLevel (components : Option Components)
    (pathParams opParams : List (ReferenceOr OpenApi.Parameter)) (parameters : List Parameter) :
    Prop :=
  ∃ kept : List OpenApi.Parameter, parameters = kept.map resolveParameterItem ∧
    (kept.map (·.key)).Nodup ∧
    (∀ d, DeclaredIn components (pathParams ++ opParams) d → d.key ∈ kept.map (·.key)) ∧
    ∀ d ∈ kept, DeclaredIn components (pathParams ++ opParams) d ∧
      ((∃ o, DeclaredIn components opParams o ∧ o.key = d.key) →
        DeclaredIn components opParams d)

theorem declaredIn_append {ps qs : List (ReferenceOr OpenApi.Parameter)} {d : OpenApi.Parameter} :
    DeclaredIn components (ps ++ qs) d ↔
      DeclaredIn components ps d ∨ DeclaredIn components qs d := by
  simp only [DeclaredIn, List.mem_append, or_and_right, exists_or]

/-! ## §2  What is kept -/

@[simp] theorem name_resolveParameterItem (d : OpenApi.Parameter) :
    (resolveParameterItem d).name = d.name := by
  cases d <;> rfl

/-- Resolution follows one reference at most. -/
theorem denotes_of_resolveParameter {p : ReferenceOr OpenApi.Parameter} {ir : Parameter}
    (h : resolveParameter p components = some ir) :
    ∃ d, Denotes components p d ∧ resolveParameterItem d = ir := by
  cases p with
  | item d => exact ⟨d, .item d, Option.some.inj h⟩
  | reference reference =>
      rw [resolveParameter] at h
      rcases hget : components.bind fun c => c.parameters.get (refName reference) with _ | (_ | d)
      · simp [hget] at h
      · simp [hget] at h
      · rw [hget] at h
        exact ⟨d, .reference hget (.item d), Option.some.inj h⟩

/-- The entries that resolution reads, resolved. -/
def resolvedEntries (components : Option Components) (ps : List (ReferenceOr OpenApi.Parameter)) :
    List Parameter :=
  ps.filterMap (resolveParameter · components)

theorem declaredIn_of_mem_resolvedEntries {ps : List (ReferenceOr OpenApi.Parameter)}
    {ir : Parameter} (h : ir ∈ resolvedEntries components ps) :
    ∃ d, DeclaredIn components ps d ∧ resolveParameterItem d = ir := by
  obtain ⟨p, hp, hir⟩ := List.mem_filterMap.mp h
  obtain ⟨d, hd, heq⟩ := denotes_of_resolveParameter hir
  exact ⟨d, ⟨p, hp, hd⟩, heq⟩

variable {pathParams opParams : List (ReferenceOr OpenApi.Parameter)}

theorem mem_resolveParameters_iff {ps : List (ReferenceOr OpenApi.Parameter)} {ir : Parameter} :
    ir ∈ resolveParameters ps components ↔
      (resolvedEntries components ps).find? (fun x => x.name == ir.name) = some ir := by
  rw [resolveParameters_eq, Lib.mem_foldl_keepNew_iff]
  simp [resolvedEntries]

theorem nodup_names_resolveParameters (ps : List (ReferenceOr OpenApi.Parameter))
    (components : Option Components) :
    ((resolveParameters ps components).map (·.name)).Nodup := by
  rw [resolveParameters_eq]
  exact Lib.nodup_keys_foldl_keepNew List.nodup_nil

theorem mem_names_resolveParameters {ps : List (ReferenceOr OpenApi.Parameter)} {name : String} :
    name ∈ (resolveParameters ps components).map (·.name) ↔
      name ∈ (resolvedEntries components ps).map (·.name) := by
  rw [resolveParameters_eq, Lib.mem_keys_foldl_keepNew]
  simp [resolvedEntries]

/-! ## §3  When the operation has the last word -/

/-- The conditions under which a name may stand for a key, and the first declaration of it for
the one that counts. -/
structure NamesSuffice (components : Option Components)
    (pathParams opParams : List (ReferenceOr OpenApi.Parameter)) : Prop where
  /-- no name is declared for two places -/
  one_place : ∀ d d', DeclaredIn components (pathParams ++ opParams) d →
    DeclaredIn components (pathParams ++ opParams) d' → d.name = d'.name → d.place = d'.place
  /-- each name is declared within one reference -/
  resolved : ∀ d, DeclaredIn components (pathParams ++ opParams) d →
    d.name ∈ (resolvedEntries components (pathParams ++ opParams)).map (·.name)
  /-- what the path item declares first under a name of the operation, the operation repeats -/
  repeated : ∀ o ir, DeclaredIn components opParams o →
    (resolvedEntries components pathParams).find? (fun x => x.name == o.name) = some ir →
    ∃ d, DeclaredIn components opParams d ∧ resolveParameterItem d = ir

theorem NamesSuffice.key_eq (h : NamesSuffice components pathParams opParams)
    {d d' : OpenApi.Parameter} (hd : DeclaredIn components (pathParams ++ opParams) d)
    (hd' : DeclaredIn components (pathParams ++ opParams) d') (hname : d.name = d'.name) :
    d.key = d'.key :=
  Prod.ext hname (h.one_place d d' hd hd' hname)

/-- What is kept comes from a declaration that may be kept. -/
theorem NamesSuffice.exists_declaration (h : NamesSuffice components pathParams opParams)
    {ir : Parameter} (hir : ir ∈ resolveParameters (pathParams ++ opParams) components) :
    ∃ d, (DeclaredIn components (pathParams ++ opParams) d ∧
      ((∃ o, DeclaredIn components opParams o ∧ o.key = d.key) →
        DeclaredIn components opParams d)) ∧ resolveParameterItem d = ir := by
  have hfirst := mem_resolveParameters_iff.mp hir
  rw [resolvedEntries, List.filterMap_append, List.find?_append] at hfirst
  rcases hpath : (resolvedEntries components pathParams).find? (fun x => x.name == ir.name)
    with _ | x
  · -- the path item does not declare the name, so the operation does
    rw [← resolvedEntries, ← resolvedEntries, hpath, Option.none_or] at hfirst
    obtain ⟨d, hd, heq⟩ :=
      declaredIn_of_mem_resolvedEntries (List.mem_of_find?_eq_some hfirst)
    exact ⟨d, ⟨declaredIn_append.mpr (Or.inr hd), fun _ => hd⟩, heq⟩
  · rw [← resolvedEntries, ← resolvedEntries, hpath, Option.some_or] at hfirst
    obtain rfl : x = ir := Option.some.inj hfirst
    obtain ⟨d, hd, heq⟩ :=
      declaredIn_of_mem_resolvedEntries (List.mem_of_find?_eq_some hpath)
    have hname : d.name = x.name := by rw [← heq, name_resolveParameterItem]
    by_cases hop : ∃ o, DeclaredIn components opParams o ∧ o.key = d.key
    · obtain ⟨o, ho, hkey⟩ := hop
      have honame : o.name = x.name := (Prod.ext_iff.mp hkey).1.trans hname
      obtain ⟨d', hd', heq'⟩ := h.repeated o x ho (by rw [honame]; exact hpath)
      exact ⟨d', ⟨declaredIn_append.mpr (Or.inr hd'), fun _ => hd'⟩, heq'⟩
    · exact ⟨d, ⟨declaredIn_append.mpr (Or.inl hd), fun h => absurd h hop⟩, heq⟩

theorem overrides_of_namesSuffice (h : NamesSuffice components pathParams opParams) :
    OverridesPathLevel components pathParams opParams
      (resolveParameters (pathParams ++ opParams) components) := by
  obtain ⟨kept, hkept, hdecl⟩ := Lib.exists_map_eq fun ir hir => h.exists_declaration hir
  have hnames : kept.map (·.name) =
      (resolveParameters (pathParams ++ opParams) components).map (·.name) := by
    rw [← hkept, List.map_map]
    exact List.map_congr_left fun d _ => (name_resolveParameterItem d).symm
  refine ⟨kept, hkept.symm, ?_, ?_, hdecl⟩
  · apply List.Nodup.of_map Prod.fst
    rw [List.map_map]
    show (kept.map (·.name)).Nodup
    rw [hnames]
    exact nodup_names_resolveParameters _ _
  · intro d hd
    have hmem := mem_names_resolveParameters.mpr (h.resolved d hd)
    rw [← hnames] at hmem
    obtain ⟨k, hk, hname⟩ := List.mem_map.mp hmem
    exact List.mem_map.mpr ⟨k, hk, h.key_eq (hdecl k hk).1 hd hname⟩

theorem namesSuffice_of_overrides (h : OverridesPathLevel components pathParams opParams
    (resolveParameters (pathParams ++ opParams) components)) :
    NamesSuffice components pathParams opParams := by
  obtain ⟨kept, hkept, -, hcover, hdecl⟩ := h
  have hnames : (kept.map (·.name)).Nodup := by
    have hnd := nodup_names_resolveParameters (pathParams ++ opParams) components
    rw [hkept, List.map_map] at hnd
    simpa [Function.comp_def] using hnd
  have hof : ∀ d, DeclaredIn components (pathParams ++ opParams) d →
      ∃ k ∈ kept, k.key = d.key := fun d hd => List.mem_map.mp (hcover d hd)
  have hplace : ∀ d d', DeclaredIn components (pathParams ++ opParams) d →
      DeclaredIn components (pathParams ++ opParams) d' → d.name = d'.name →
      d.place = d'.place := by
    intro d d' hd hd' hname
    obtain ⟨k, hk, hkey⟩ := hof d hd
    obtain ⟨k', hk', hkey'⟩ := hof d' hd'
    have hkname : k.name = k'.name :=
      (Prod.ext_iff.mp hkey).1.trans (hname.trans (Prod.ext_iff.mp hkey').1.symm)
    -- of one name there is only one parameter, so it has both keys
    obtain rfl : k = k' := List.inj_on_of_nodup_map hnames hk hk' hkname
    exact (Prod.ext_iff.mp hkey).2.symm.trans (Prod.ext_iff.mp hkey').2
  refine ⟨hplace, ?_, ?_⟩
  · intro d hd
    obtain ⟨k, hk, hkey⟩ := hof d hd
    rw [← mem_names_resolveParameters, hkept, List.map_map]
    refine List.mem_map.mpr ⟨k, hk, ?_⟩
    exact (name_resolveParameterItem k).trans (Prod.ext_iff.mp hkey).1
  · intro o ir ho hfirst
    have hirname : ir.name = o.name := by simpa using List.find?_some hfirst
    have hir : ir ∈ resolveParameters (pathParams ++ opParams) components := by
      rw [mem_resolveParameters_iff, hirname, resolvedEntries, List.filterMap_append,
        List.find?_append, ← resolvedEntries, hfirst, Option.some_or]
    rw [hkept] at hir
    obtain ⟨k, hk, rfl⟩ := List.mem_map.mp hir
    have hkname : o.name = k.name := hirname.symm.trans (name_resolveParameterItem k)
    have hboth : DeclaredIn components (pathParams ++ opParams) o :=
      declaredIn_append.mpr (Or.inr ho)
    have hkey : o.key = k.key :=
      Prod.ext hkname (hplace o k hboth (hdecl k hk).1 hkname)
    exact ⟨k, (hdecl k hk).2 ⟨o, ho, hkey⟩, rfl⟩

/-- **The operation overrides its path item exactly if the names suffice.** -/
theorem resolveOperation_overrides_iff (method : HttpMethod) (path : String)
    (op : OpenApi.Operation) (pathItemParams : List (ReferenceOr OpenApi.Parameter))
    (components : Option Components) :
    OverridesPathLevel components pathItemParams op.parameters
        (resolveOperation method path op pathItemParams components).parameters ↔
      NamesSuffice components pathItemParams op.parameters :=
  ⟨namesSuffice_of_overrides, overrides_of_namesSuffice⟩

/-- A query parameter `limit`. -/
def pageLimit (required : Bool) : ReferenceOr OpenApi.Parameter :=
  .item (.query ⟨"limit", none, required, .content⟩)

/-- An operation that makes `limit` required. -/
def limitedOperation : OpenApi.Operation :=
  ⟨[], none, none, none, [pageLimit true], none, ⟨none, Lib.IndexMap.empty⟩⟩

/-- The path item says that `limit` is optional, and that is what stays. -/
theorem limit_not_overridden :
    ¬ OverridesPathLevel none [pageLimit false] limitedOperation.parameters
      (resolveOperation .get "/pets" limitedOperation [pageLimit false] none).parameters := by
  intro h
  have hsuffice := namesSuffice_of_overrides h
  obtain ⟨d, ⟨p, hp, hd⟩, heq⟩ := hsuffice.repeated (.query ⟨"limit", none, true, .content⟩) _
    ⟨_, List.mem_singleton_self _, .item _⟩ rfl
  rw [List.mem_singleton.mp hp] at hd
  cases hd
  exact absurd (congrArg Parameter.required heq) (by decide)

end SpecForge
