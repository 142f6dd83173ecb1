import SpecForge.Core.Registry

/-!
# What an `allOf` merge depends on

`mergedProperties` lists the declared names in the order of their first
declaration, each with its last declaration, required if any member says so
(§1). Hence the merge of an overlay of contributions is the merge of each of
them, if these are all the same (`mergedProperties_overlay`, §2). Where each
member is an object schema, or refers to one, the merge is told by the schemas
alone (`mergeAllofProperties_of_objects`, §3).
-/

namespace SpecForge

open Lib
open OpenApi (ReferenceOr Schema ObjectType Components)

/-! ## §1  The merge by names -/

/-- The declarations of all members, in order. -/
def declarations (xs : List (List Property × List String)) : List (String × Property) :=
  (xs.flatMap Prod.fst).map fun p => (p.name, p)

/-- The names that some member requires. -/
def requiredNames (xs : List (List Property × List String)) : List String :=
  xs.flatMap Prod.snd

def markRequired (names : List String) (p : Property) : Property :=
  { p with required := names.contains p.name }

/-- What the merge says of one name. -/
def mergedAt (xs : List (List Property × List String)) (name : String) : Option Property :=
  ((declarations xs).reverse.lookup name).map (markRequired (requiredNames xs))

theorem foldl_extend (xs : List (List Property × List String)) : ∀ m : AllofMerge,
    xs.foldl (fun m x => m.extend x.1 x.2) m =
      ⟨(declarations xs).foldl (fun m e => m.insert e.1 e.2) m.merged,
        m.allRequired ++ requiredNames xs⟩ := by
  induction xs with
  | nil =>
      intro m
      simp [declarations, requiredNames]
  | cons x xs ih =>
      intro m
      rw [List.foldl_cons, ih]
      simp [AllofMerge.extend, declarations, requiredNames, List.foldl_map]

theorem lookup_declarations {xs : List (List Property × List String)} {name : String}
    {p : Property} (h : (declarations xs).reverse.lookup name = some p) : p.name = name := by
  have hmem := List.mem_reverse.mp (mem_of_lookup_eq_some h)
  obtain ⟨q, -, hq⟩ := List.mem_map.mp hmem
  cases hq
  rfl

theorem mergedProperties_eq (xs : List (List Property × List String)) :
    mergedProperties xs =
      (firstOccurrences ((declarations xs).map Prod.fst)).filterMap (mergedAt xs) := by
  unfold mergedProperties
  simp only [foldl_extend, List.nil_append]
  show (IndexMap.ofList (declarations xs)).values.map (markRequired (requiredNames xs)) = _
  rw [IndexMap.values_eq, List.map_filterMap, IndexMap.keys_ofList]
  refine congrArg (fun k => List.filterMap k _) (funext fun name => ?_)
  rw [IndexMap.get_ofList]
  rfl

theorem mergedAt_name {xs : List (List Property × List String)} {name : String}
    {p : Property} (h : mergedAt xs name = some p) : p.name = name := by
  obtain ⟨q, hq, rfl⟩ := Option.map_eq_some_iff.mp h
  have hname := lookup_declarations hq
  exact hname

theorem mergedAt_required {xs : List (List Property × List String)} {name : String}
    {p : Property} (h : mergedAt xs name = some p) :
    p.required = (requiredNames xs).contains name := by
  obtain ⟨q, hq, rfl⟩ := Option.map_eq_some_iff.mp h
  show (requiredNames xs).contains q.name = _
  rw [lookup_declarations hq]

theorem mem_mergedProperties {xs : List (List Property × List String)} {p : Property} :
    p ∈ mergedProperties xs ↔ mergedAt xs p.name = some p := by
  rw [mergedProperties_eq, List.mem_filterMap]
  constructor
  · rintro ⟨name, -, h⟩
    rw [mergedAt_name h]
    exact h
  · intro h
    refine ⟨p.name, ?_, h⟩
    obtain ⟨q, hq, -⟩ := Option.map_eq_some_iff.mp h
    rw [← IndexMap.keys_ofList]
    exact IndexMap.mem_keys_of_get ((IndexMap.get_ofList _ _).trans hq)

theorem names_mergedProperties (xs : List (List Property × List String)) :
    (mergedProperties xs).map (·.name) = firstOccurrences ((declarations xs).map Prod.fst) := by
  rw [mergedProperties_eq, List.map_filterMap]
  refine (List.filterMap_congr fun name hname => ?_).trans List.filterMap_some
  rw [← IndexMap.keys_ofList] at hname
  obtain ⟨p, hp⟩ := IndexMap.mem_keys_iff.mp hname
  rw [IndexMap.get_ofList] at hp
  have hat : mergedAt xs name = some (markRequired (requiredNames xs) p) := by
    rw [mergedAt, hp]
    rfl
  rw [hat]
  exact congrArg some (mergedAt_name hat)

/-! ## §2  Overlaid contributions -/

section Overlaid

variable {ι α : Type} {members : List α}
  {f : ι → α → List Property × List String} {g : α → List Property × List String}

/-- Each contribution of `g` is that of some `f i`, and every other run has it
or contributes nothing. -/
def OverlaidBy (members : List α) (f : ι → α → List Property × List String)
    (g : α → List Property × List String) : Prop :=
  ∀ a ∈ members, (∃ i, f i a = g a) ∧ ∀ i, f i a = g a ∨ f i a = ([], [])

theorem overlays_of_overlaidBy {γ : Type} (h : OverlaidBy members f g)
    (k : List Property × List String → List γ) (hk : k ([], []) = []) :
    Overlays members (fun i a => k (f i a)) fun a => k (g a) := by
  intro a ha
  obtain ⟨⟨i, hi⟩, hall⟩ := h a ha
  refine ⟨⟨i, congrArg k hi⟩, fun j => ?_⟩
  rcases hall j with hj | hj
  · exact Or.inl (congrArg k hj)
  · exact Or.inr ((congrArg k hj).trans hk)

theorem declarations_map (f : α → List Property × List String) :
    declarations (members.map f) =
      members.flatMap fun a => (f a).1.map fun p => (p.name, p) := by
  simp [declarations, List.flatMap_map, List.map_flatMap]

theorem requiredNames_map (f : α → List Property × List String) :
    requiredNames (members.map f) = members.flatMap fun a => (f a).2 := by
  simp [requiredNames, List.flatMap_map]

/-- **If all runs merge to one property list, so does their overlay.** -/
theorem mergedProperties_overlay [Nonempty ι] (h : OverlaidBy members f g) {merged : List Property}
    (hrun : ∀ i, mergedProperties (members.map (f i)) = merged) :
    mergedProperties (members.map g) = merged := by
  have hdecl := overlays_of_overlaidBy h (fun x => x.1.map fun p => (p.name, p)) rfl
  have hreq := overlays_of_overlaidBy h Prod.snd rfl
  have hat : ∀ i p, mergedAt (members.map (f i)) p.name = some p ↔ p ∈ merged :=
    fun i p => by rw [← hrun i, mem_mergedProperties]
  have hkeys : firstOccurrences ((declarations (members.map g)).map Prod.fst)
      = merged.map (·.name) := by
    rw [declarations_map, List.map_flatMap]
    refine (hdecl.map Prod.fst).firstOccurrences fun i => ?_
    rw [← hrun i, names_mergedProperties, declarations_map, List.map_flatMap]
  have hmergedAt : ∀ p ∈ merged, mergedAt (members.map g) p.name = some p := by
    intro p hp
    have hdeclared : p.name ∈ (IndexMap.ofList (declarations (members.map g))).keys := by
      rw [IndexMap.keys_ofList, hkeys]
      exact List.mem_map_of_mem hp
    obtain ⟨q, hq⟩ := IndexMap.mem_keys_iff.mp hdeclared
    rw [IndexMap.get_ofList] at hq
    have hlast := hq
    rw [declarations_map] at hlast
    obtain ⟨i, hi⟩ := hdecl.lookup_last hlast
    rw [← declarations_map] at hi
    -- the last declaration of the overlay is that of run `i`, which yields `p`
    have hp' : some (markRequired (requiredNames (members.map (f i))) q) = some p := by
      rw [← (hat i p).mpr hp, mergedAt, hi]
      rfl
    have hrequired : (requiredNames (members.map g)).contains p.name
        = (requiredNames (members.map (f i))).contains p.name := by
      have hall : ∀ j, (requiredNames (members.map (f j))).contains p.name = p.required :=
        fun j => (mergedAt_required ((hat j p).mpr hp)).symm
      rw [hall i, Bool.eq_iff_iff, List.contains_iff_mem, requiredNames_map, hreq.mem_iff]
      constructor
      · rintro ⟨j, hj⟩
        rw [← requiredNames_map, ← List.contains_iff_mem, hall j] at hj
        exact hj
      · intro hreqp
        refine ⟨i, ?_⟩
        rw [← requiredNames_map, ← List.contains_iff_mem, hall i]
        exact hreqp
    rw [← hp', mergedAt]
    have hname : q.name = p.name := lookup_declarations hq
    have hmark : markRequired (requiredNames (members.map g)) q
        = markRequired (requiredNames (members.map (f i))) q := by
      rw [markRequired, markRequired, hname, hrequired]
    rw [hq, Option.map_some, hmark]
  rw [mergedProperties_eq, hkeys, List.filterMap_map]
  exact (List.filterMap_congr hmergedAt).trans List.filterMap_some

end Overlaid

/-! ## §3  Members that are object schemas -/

section Objects

variable {c : Components} {allOf : List (ReferenceOr Schema)}

/-- The object schema that a member is or refers to. -/
def memberObject (c : Components) : ReferenceOr Schema → Option ObjectType
  | .item schema => inlineObject (.item schema)
  | .reference reference => (c.schemas.get (refName reference)).bind inlineObject

def declaredDescription : ReferenceOr Schema → Option String
  | .item schema => schema.schemaData.description
  | .reference _ => none

/-- The property names that the members declare, one member after the other. -/
def declaredNames (c : Components) (allOf : List (ReferenceOr Schema)) : List String :=
  (allOf.filterMap (memberObject c)).flatMap fun o => o.properties.map Prod.fst

/-- The last member that declares the name of `p` declares it with the type and the
description of `p`. -/
def LastDeclaredAs (c : Components) (allOf : List (ReferenceOr Schema)) (p : Property) : Prop :=
  ∃ before member after o schema, allOf = before ++ member :: after ∧
    memberObject c member = some o ∧ (p.name, schema) ∈ o.properties ∧
    p.ty = refOrSchemaToType schema ∧ p.description = declaredDescription schema ∧
    ∀ m ∈ after, ∀ o', memberObject c m = some o' → p.name ∉ o'.properties.map Prod.fst

theorem contribution_of_object {known : String → Option Model} {member : ReferenceOr Schema}
    {o : ObjectType} (h : memberObject c member = some o) :
    contribution c known member = (objectProperties o, o.required) := by
  cases member with
  | item schema =>
      have hitem : inlineObject (.item schema) = some o := h
      simp only [contribution, hitem]
  | reference reference => exact contribution_reference_object h known

theorem names_objectProperties (o : ObjectType) :
    (objectProperties o).map (·.name) = o.properties.map Prod.fst := by
  simp [objectProperties, Function.comp_def]

theorem mem_objectProperties {o : ObjectType} {p : Property} (hp : p ∈ objectProperties o) :
    ∃ schema, (p.name, schema) ∈ o.properties ∧ p.ty = refOrSchemaToType schema ∧
      p.description = declaredDescription schema := by
  obtain ⟨⟨name, schema⟩, hmem, rfl⟩ := List.mem_map.mp hp
  refine ⟨schema, hmem, rfl, ?_⟩
  cases schema <;> rfl

/-- What the members of `allOf` contribute, when the registry has no say. -/
theorem names_declarations_of_objects (known : String → Option Model) :
    ∀ {allOf : List (ReferenceOr Schema)},
      (∀ member ∈ allOf, ∃ o, memberObject c member = some o) →
      (declarations (allOf.map (contribution c known))).map Prod.fst = declaredNames c allOf
  | [], _ => rfl
  | member :: allOf, hobj => by
      obtain ⟨o, ho⟩ := hobj member List.mem_cons_self
      have ih := names_declarations_of_objects known
        fun m hm => hobj m (List.mem_cons_of_mem member hm)
      have hnames := names_objectProperties o
      simp only [declarations, declaredNames, List.map_map, Function.comp_def] at ih hnames ⊢
      rw [List.map_cons, List.flatMap_cons, List.map_append, ih, List.filterMap_cons, ho,
        contribution_of_object ho, List.flatMap_cons, hnames]

theorem mem_requiredNames_of_objects {known : String → Option Model}
    (hobj : ∀ member ∈ allOf, ∃ o, memberObject c member = some o) {name : String} :
    name ∈ requiredNames (allOf.map (contribution c known)) ↔
      ∃ member ∈ allOf, ∃ o, memberObject c member = some o ∧ name ∈ o.required := by
  rw [requiredNames_map, List.mem_flatMap]
  constructor
  · rintro ⟨member, hmem, hname⟩
    obtain ⟨o, ho⟩ := hobj member hmem
    rw [contribution_of_object ho] at hname
    exact ⟨member, hmem, o, ho, hname⟩
  · rintro ⟨member, hmem, o, ho, hname⟩
    refine ⟨member, hmem, ?_⟩
    rw [contribution_of_object ho]
    exact hname

theorem lastDeclaredAs_of_mergedAt {known : String → Option Model}
    (hobj : ∀ member ∈ allOf, ∃ o, memberObject c member = some o) {p : Property}
    (hp : mergedAt (allOf.map (contribution c known)) p.name = some p) :
    LastDeclaredAs c allOf p := by
  obtain ⟨q, hq, hmark⟩ := Option.map_eq_some_iff.mp hp
  have hname : q.name = p.name := lookup_declarations hq
  rw [declarations_map] at hq
  obtain ⟨before, member, after, hsplit, hmem, hafter⟩ := lookup_reverse_flatMap hq
  have hmember : member ∈ allOf := by
    rw [hsplit]
    exact List.mem_append_right before List.mem_cons_self
  obtain ⟨o, ho⟩ := hobj member hmember
  rw [contribution_of_object ho] at hmem
  obtain ⟨q', hq', heq⟩ := List.mem_map.mp hmem
  obtain rfl : q' = q := (Prod.mk.inj heq).2
  obtain ⟨schema, hschema, hty, hdescription⟩ := mem_objectProperties hq'
  refine ⟨before, member, after, o, schema, hsplit, ho, hname ▸ hschema, ?_, ?_, ?_⟩
  · rw [← hmark]
    exact hty
  · rw [← hmark]
    exact hdescription
  · intro m hm o' ho' hdeclared
    apply hafter m hm
    rw [contribution_of_object ho', List.map_map]
    rw [← names_objectProperties o'] at hdeclared
    exact hdeclared

/-- Later members win on a conflict, a name keeps the place of its first declaration, and what
any member requires is required. -/
theorem mergeAllofProperties_of_objects (registry : SchemaRegistry)
    (hobj : ∀ member ∈ allOf, ∃ o, memberObject c member = some o) :
    ∃ props, mergeAllofProperties allOf c registry = .ok (props, none) ∧
      (props.map (·.name)).Nodup ∧
      props.map (·.name) = firstOccurrences (declaredNames c allOf) ∧
      ∀ p ∈ props, LastDeclaredAs c allOf p ∧
        (p.required = true ↔
          ∃ member ∈ allOf, ∃ o, memberObject c member = some o ∧ p.name ∈ o.required) := by
  have hnames : (mergedProperties (allOf.map (contribution c registry.get))).map (·.name) =
      firstOccurrences (declaredNames c allOf) := by
    rw [names_mergedProperties, names_declarations_of_objects registry.get hobj]
  refine ⟨_, mergeAllofProperties_eq allOf c registry, ?_, hnames, ?_⟩
  · rw [names_mergedProperties, ← IndexMap.keys_ofList]
    exact (IndexMap.ofList _).nodup
  · intro p hp
    have hat := mem_mergedProperties.mp hp
    refine ⟨lastDeclaredAs_of_mergedAt hobj hat, ?_⟩
    rw [mergedAt_required hat, List.contains_iff_mem, mem_requiredNames_of_objects hobj]

end Objects

/-- An object schema whose properties are all booleans. -/
def flagsSchema (names required : List String) : ReferenceOr Schema :=
  .item ⟨OpenApi.SchemaData.default, .type (.object
    ⟨names.map fun name => (name, .item ⟨OpenApi.SchemaData.default, .type .boolean⟩),
      required, none⟩)⟩

/-- The last member requires a name that only the first declares. -/
def flagMembers : List (ReferenceOr Schema) :=
  [.reference "#/components/schemas/Base", flagsSchema ["done"] [], flagsSchema [] ["done", "open"]]

def flagComponents : Components :=
  Components.ofSchemas [("Base", flagsSchema ["open", "done"] ["done"])]

theorem mergeAllofProperties_flags :
    ∃ props, mergeAllofProperties flagMembers flagComponents SchemaRegistry.default =
        .ok (props, none) ∧
      (props.map (·.name)).Nodup ∧
      props.map (·.name) = firstOccurrences (declaredNames flagComponents flagMembers) ∧
      ∀ p ∈ props, LastDeclaredAs flagComponents flagMembers p ∧
        (p.required = true ↔ ∃ member ∈ flagMembers, ∃ o,
          memberObject flagComponents member = some o ∧ p.name ∈ o.required) := by
  apply mergeAllofProperties_of_objects
  intro member hmem
  rcases List.mem_cons.mp hmem with rfl | hmem
  · exact ⟨_, rfl⟩
  · rcases List.mem_cons.mp hmem with rfl | hmem
    · exact ⟨_, rfl⟩
    · rw [List.mem_singleton.mp hmem]
      exact ⟨_, rfl⟩

end SpecForge
