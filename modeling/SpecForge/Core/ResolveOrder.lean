import SpecForge.Core.MergeOverlay

/-!
# Does the order of the schemas matter?

`resolveSchemas` builds the models one after the other, and a member of an
`allOf` that names a schema which is no plain object contributes what the
registry holds by then. `baseModel` is the model a schema gets when it comes
first; `SelfContained` says that no schema's base model adds anything to another
`allOf`. `orderIndependent_iff` is the result: apart from documents that do not
resolve at all, the order does not matter exactly for self-contained components.
-/

namespace SpecForge

open Lib
open OpenApi (ReferenceOr Schema SchemaData SchemaKind OApiType Components)

/-! ## §1  Orders -/

/-- The property list of a model. -/
def Model.properties : Model → List Property
  | .object o => o.properties
  | .enum _ => []

/-- The model that `resolve_schemas` produces for a name. -/
def resolvedModel (c : Components) (n : String) : Option Model :=
  match resolveSchemas (some c) with
  | .ok reg => reg.get n
  | .error _ => none

/-- Every permutation of the schemas yields the same model for each name. -/
def OrderIndependent (c : Components) : Prop :=
  ∀ schemas : IndexMap String (ReferenceOr Schema),
    schemas.entries.Perm c.schemas.entries →
    ∀ n, resolvedModel { c with schemas := schemas } n = resolvedModel c n

/-- A component schema that is itself a `$ref`; resolution rejects it. -/
def HasReference (c : Components) : Prop :=
  ∃ n reference, c.schemas.get n = some (.reference reference)

/-- The empty registry. -/
def noModels : String → Option Model := fun _ => none

/-- The model of a schema that comes first. -/
def baseModel (c : Components) (n : String) : Option Model :=
  match c.schemas.get n with
  | some (.item s) => some (modelOf c noModels n s)
  | _ => none

/-- The registry after `r` alone. -/
def onlyBase (c : Components) (r : String) : String → Option Model :=
  fun n => if n = r then baseModel c r else none

/-- Whatever the members of the `allOf` inherit from `r`, they declare anyway: with
the base model of `r` at hand the merged properties are those without it. -/
def AddsNothing (c : Components) (r : String) (allOf : List (ReferenceOr Schema)) : Prop :=
  mergedProperties (allOf.map (contribution c (onlyBase c r))) =
    mergedProperties (allOf.map (contribution c noModels))

/-- No schema adds anything to the `allOf` of another one. -/
def SelfContained (c : Components) : Prop :=
  ∀ n data allOf, c.schemas.get n = some (.item ⟨data, .allOf allOf⟩) →
    ∀ r, r ≠ n → AddsNothing c r allOf

/-! ## §2  Permuted components -/

section Perm

variable {c c' : Components} (hget : ∀ n, c'.schemas.get n = c.schemas.get n)
include hget

theorem contribution_congr : contribution c' = contribution c := by
  funext known member
  unfold contribution
  cases member with
  | reference reference => simp only [hget]
  | item s => rfl

theorem modelOf_congr : modelOf c' = modelOf c := by
  funext known n s
  unfold modelOf
  rw [contribution_congr hget]

theorem baseModel_congr : baseModel c' = baseModel c := by
  funext n
  unfold baseModel
  rw [hget, modelOf_congr hget]

theorem onlyBase_congr : onlyBase c' = onlyBase c := by
  funext r n
  unfold onlyBase
  rw [baseModel_congr hget]

theorem selfContained_congr (h : SelfContained c) : SelfContained c' := by
  intro n data allOf hn r hr
  rw [hget] at hn
  have hadds := h n data allOf hn r hr
  unfold AddsNothing onlyBase at hadds ⊢
  rw [contribution_congr hget, baseModel_congr hget]
  exact hadds

theorem hasReference_congr (h : HasReference c) : HasReference c' := by
  obtain ⟨n, reference, hn⟩ := h
  exact ⟨n, reference, (hget n).trans hn⟩

end Perm

/-! ## §3  Self-contained components -/

/-- Contributions against a registry of base models are overlaid by those against
each of its models alone. -/
theorem overlaidBy_contribution {c : Components} {known : String → Option Model}
    (hknown : ∀ n m, known n = some m → baseModel c n = some m)
    (members : List (ReferenceOr Schema)) :
    OverlaidBy members
      (fun i : Option {r // known r ≠ none} => contribution c (match i with
        | none => noModels
        | some r => onlyBase c r.1))
      (contribution c known) := by
  -- the run `none` knows no model, the run `some r` that of `r`
  intro member _
  cases member with
  | item s => exact ⟨⟨none, rfl⟩, fun i => Or.inl rfl⟩
  | reference reference =>
      cases hbody : (c.schemas.get (refName reference)).bind inlineObject with
      | some o =>
          simp only [contribution_reference_object hbody]
          exact ⟨⟨none, trivial⟩, fun i => Or.inl trivial⟩
      | none =>
          simp only [contribution_reference_other hbody]
          cases hk : known (refName reference) with
          | none =>
              refine ⟨⟨none, rfl⟩, fun i => Or.inr ?_⟩
              cases i with
              | none => rfl
              | some r =>
                  have hne : refName reference ≠ r.1 := fun heq => r.2 (heq ▸ hk)
                  simp only [onlyBase, if_neg hne]
                  rfl
          | some m =>
              have hbase := hknown _ m hk
              have hisSome : known (refName reference) ≠ none := by
                rw [hk]
                exact Option.some_ne_none m
              refine ⟨⟨some ⟨refName reference, hisSome⟩, ?_⟩, fun i => ?_⟩
              · simp only [onlyBase, if_true, hbase]
              · cases i with
                | none => exact Or.inr rfl
                | some r =>
                    by_cases heq : refName reference = r.1
                    · rw [heq] at hbase
                      exact Or.inl (by simp only [onlyBase, heq, if_true, hbase])
                    · exact Or.inr (by simp only [onlyBase, if_neg heq]; rfl)

/-- In a self-contained document every model is the base model. -/
theorem establishes_base {c : Components} (h : SelfContained c) :
    Establishes c fun n s m => m = modelOf c noModels n s := by
  intro known n s hrel hnew hn
  have hknown : ∀ n m, known n = some m → baseModel c n = some m := by
    intro n m hm
    obtain ⟨s, hs, rfl⟩ := hrel n m hm
    unfold baseModel
    rw [hs]
  obtain ⟨data, kind⟩ := s
  cases kind with
  | allOf allOf =>
      have hmerge : mergedProperties (allOf.map (contribution c known))
          = mergedProperties (allOf.map (contribution c noModels)) := by
        refine mergedProperties_overlay (overlaidBy_contribution hknown allOf) fun i => ?_
        cases i with
        | none => rfl
        | some r =>
            refine h n data allOf hn r.1 ?_
            rintro rfl
            exact r.2 hnew
      unfold modelOf
      simp only [hmerge]
  | type t => cases t <;> rfl
  | _ => rfl

theorem resolveSchemas_ok {c : Components} (h : ¬HasReference c) :
    ∃ reg, resolveSchemas (some c) = .ok reg := by
  have hrun : ∀ (entries : List (String × ReferenceOr Schema)) (reg : SchemaRegistry),
      (∀ e ∈ entries, ∃ s, e.2 = .item s) →
      ∃ reg', entries.foldlM (resolveSchema c) reg = .ok reg' := by
    intro entries
    induction entries with
    | nil => exact fun reg _ => ⟨reg, rfl⟩
    | cons e entries ih =>
        intro reg hitems
        obtain ⟨n, s⟩ := e
        obtain ⟨s, rfl⟩ := hitems _ List.mem_cons_self
        rw [List.foldlM_cons, resolveSchema_item]
        exact ih _ fun e he => hitems e (List.mem_cons_of_mem _ he)
  refine hrun _ _ fun e he => ?_
  obtain ⟨n, s⟩ := e
  cases s with
  | item s => exact ⟨s, rfl⟩
  | reference reference =>
      exact absurd ⟨n, reference, IndexMap.mem_entries_iff.mp he⟩ h

theorem resolvedModel_of_hasReference {c : Components} (h : HasReference c) (n : String) :
    resolvedModel c n = none := by
  obtain ⟨n', reference, hn⟩ := h
  unfold resolvedModel
  cases hreg : resolveSchemas (some c) with
  | error e => rfl
  | ok reg =>
      obtain ⟨s, hs⟩ := foldlM_resolveSchema_items hreg _ (IndexMap.mem_entries_iff.mpr hn)
      cases hs

/-- Names that are no schema have no model. -/
theorem resolvedModel_isSome {c : Components} {n : String} {m : Model}
    (h : resolvedModel c n = some m) : ∃ s, c.schemas.get n = some (.item s) := by
  unfold resolvedModel at h
  cases hreg : resolveSchemas (some c) with
  | error e =>
      rw [hreg] at h
      cases h
  | ok reg =>
      rw [hreg] at h
      have hK : Establishes c fun _ _ _ => True := fun _ _ _ _ _ _ => trivial
      obtain ⟨s, hs, -⟩ := resolveSchemas_related hK hreg n m h
      exact ⟨s, hs⟩

theorem resolvedModel_eq_baseModel {c : Components} (h : SelfContained c)
    (href : ¬HasReference c) (n : String) : resolvedModel c n = baseModel c n := by
  cases hn : c.schemas.get n with
  | none =>
      have hbase : baseModel c n = none := by
        unfold baseModel
        rw [hn]
      rw [hbase]
      cases hm : resolvedModel c n with
      | none => rfl
      | some m =>
          obtain ⟨s, hs⟩ := resolvedModel_isSome hm
          rw [hn] at hs
          cases hs
  | some so =>
      cases so with
      | reference reference => exact absurd ⟨n, reference, hn⟩ href
      | item s =>
          obtain ⟨reg, hreg⟩ := resolveSchemas_ok href
          obtain ⟨m, hm, rfl⟩ := resolveSchemas_models (establishes_base h) hreg hn
          unfold resolvedModel baseModel
          rw [hreg, hn]
          exact hm

/-! ## §4  The first schemas of an order -/

/-- A model that an initial part of the run has built is the resolved one. -/
theorem resolvedModel_of_initial {c : Components} (href : ¬HasReference c)
    {first rest : List (String × ReferenceOr Schema)} {reg : SchemaRegistry} {n : String}
    {m : Model} (hsplit : c.schemas.entries = first ++ rest)
    (hrun : first.foldlM (resolveSchema c) SchemaRegistry.default = .ok reg)
    (hm : reg.get n = some m) : resolvedModel c n = some m := by
  have hK : Establishes c fun _ _ _ => True := fun _ _ _ _ _ _ => trivial
  have hnd := c.schemas.nodup
  rw [hsplit, List.map_append, List.nodup_append] at hnd
  obtain ⟨hnd₁, hnd₂, hdisj⟩ := hnd
  have hget : ∀ e ∈ first ++ rest, c.schemas.get e.1 = some e.2 := by
    intro e he
    rw [← hsplit] at he
    exact IndexMap.mem_entries_iff.mp he
  obtain ⟨hrel, -, hframe⟩ := foldlM_resolveSchema_models hK
    (fun e he => ⟨hget e (List.mem_append_left rest he), rfl⟩) hnd₁
    (fun _ _ h => by cases h) hrun
  have hrest : ∀ e ∈ rest, c.schemas.get e.1 = some e.2 ∧ reg.get e.1 = none := by
    intro e he
    refine ⟨hget e (List.mem_append_right first he), ?_⟩
    rw [hframe e.1 fun hmem =>
      hdisj _ hmem _ (List.mem_map.mpr ⟨e, he, rfl⟩) rfl]
    rfl
  obtain ⟨reg', hreg'⟩ := resolveSchemas_ok href
  have hrun' : rest.foldlM (resolveSchema c) reg = .ok reg' := by
    have happend : (first ++ rest).foldlM (resolveSchema c) SchemaRegistry.default
        = .ok reg' := hsplit ▸ hreg'
    rw [List.foldlM_append, hrun] at happend
    exact happend
  obtain ⟨-, -, hkeep⟩ := foldlM_resolveSchema_models hK hrest hnd₂ hrel hrun'
  -- the rest of the run builds other names, so it leaves the model of `n` alone
  have hnrest : n ∉ rest.map Prod.fst := by
    intro hmem
    obtain ⟨e, he, rfl⟩ := List.mem_map.mp hmem
    rw [(hrest e he).2] at hm
    cases hm
  unfold resolvedModel
  rw [hreg']
  exact (hkeep n hnrest).trans hm

theorem resolvedModel_first {c : Components} (href : ¬HasReference c) {n : String}
    {s : Schema} {rest : List (String × ReferenceOr Schema)}
    (hsplit : c.schemas.entries = (n, .item s) :: rest) :
    resolvedModel c n = some (modelOf c noModels n s) := by
  have hrun : [(n, ReferenceOr.item s)].foldlM (resolveSchema c) SchemaRegistry.default
      = .ok ⟨SchemaRegistry.default.models.insert n (modelOf c noModels n s)⟩ := by
    rw [List.foldlM_cons, resolveSchema_item]
    rfl
  exact resolvedModel_of_initial href hsplit hrun (IndexMap.get_insert_self _ _ _)

theorem resolvedModel_second {c : Components} (href : ¬HasReference c) {r n : String}
    {sr s : Schema} {rest : List (String × ReferenceOr Schema)}
    (hsplit : c.schemas.entries = (r, .item sr) :: (n, .item s) :: rest) :
    resolvedModel c n = some (modelOf c (onlyBase c r) n s) := by
  have hr : c.schemas.get r = some (.item sr) := by
    refine IndexMap.mem_entries_iff.mp ?_
    rw [hsplit]
    exact List.mem_cons_self
  have hbase : (⟨SchemaRegistry.default.models.insert r (modelOf c noModels r sr)⟩ :
      SchemaRegistry).get = onlyBase c r := by
    funext n'
    refine (IndexMap.get_insert _ _ _ _).trans ?_
    unfold onlyBase baseModel
    rw [hr]
    rfl
  have hrun : [(r, ReferenceOr.item sr), (n, .item s)].foldlM (resolveSchema c)
      SchemaRegistry.default = .ok ⟨IndexMap.insert
        (SchemaRegistry.default.models.insert r (modelOf c noModels r sr)) n
        (modelOf c (onlyBase c r) n s)⟩ := by
    rw [List.foldlM_cons, resolveSchema_item, ← hbase]
    show [(n, ReferenceOr.item s)].foldlM (resolveSchema c) _ = _
    rw [List.foldlM_cons, resolveSchema_item]
    rfl
  exact resolvedModel_of_initial href hsplit hrun (IndexMap.get_insert_self _ _ _)

/-! ## §5  The result -/

theorem exists_perm_first_two {l : List (String × ReferenceOr Schema)} {a b}
    (ha : a ∈ l) (hb : b ∈ l) (hne : b ≠ a) : ∃ rest, l.Perm (a :: b :: rest) := by
  obtain ⟨l₁, l₂, rfl⟩ := List.append_of_mem ha
  have hb' : b ∈ l₁ ++ l₂ := by
    rcases List.mem_append.mp hb with hb | hb
    · exact List.mem_append_left _ hb
    · exact List.mem_append_right _ ((List.mem_cons.mp hb).resolve_left hne)
  obtain ⟨l₃, l₄, hsplit⟩ := List.append_of_mem hb'
  refine ⟨l₃ ++ l₄, List.perm_middle.trans ((List.Perm.cons a ?_))⟩
  rw [hsplit]
  exact List.perm_middle

/-- In an order-independent document the base model of one schema adds nothing to
another: the two orders that start with them would disagree. -/
theorem selfContained_of_orderIndependent {c : Components} (hOI : OrderIndependent c)
    (href : ¬HasReference c) : SelfContained c := by
  intro n data allOf hn r hr
  cases hrs : c.schemas.get r with
  | none =>
      have hno : onlyBase c r = noModels := by
        funext n'
        simp only [onlyBase, baseModel, hrs, ite_self]
        rfl
      rw [AddsNothing, hno]
  | some so =>
      cases so with
      | reference reference => exact absurd ⟨r, reference, hrs⟩ href
      | item sr =>
          have hmem_n := IndexMap.mem_entries_iff.mpr hn
          have hmem_r := IndexMap.mem_entries_iff.mpr hrs
          have hne : (r, ReferenceOr.item sr) ≠ (n, .item ⟨data, .allOf allOf⟩) :=
            fun heq => hr (congrArg Prod.fst heq)
          -- in one order `n` comes first, in the other one right after `r`
          obtain ⟨rest, hperm⟩ := exists_perm_first_two hmem_n hmem_r hne
          have hswap := hperm.trans (List.Perm.swap _ _ rest)
          have hnd : ∀ {l}, c.schemas.entries.Perm l → (l.map Prod.fst).Nodup :=
            fun hp => (hp.map Prod.fst).nodup_iff.mp c.schemas.nodup
          let c₁ : Components := { c with schemas := ⟨_, hnd hperm⟩ }
          let c₂ : Components := { c with schemas := ⟨_, hnd hswap⟩ }
          have hget₁ : ∀ n, c₁.schemas.get n = c.schemas.get n :=
            IndexMap.get_perm hperm.symm
          have hget₂ : ∀ n, c₂.schemas.get n = c.schemas.get n :=
            IndexMap.get_perm hswap.symm
          have href₁ : ¬HasReference c₁ :=
            fun h => href (hasReference_congr (fun n => (hget₁ n).symm) h)
          have href₂ : ¬HasReference c₂ :=
            fun h => href (hasReference_congr (fun n => (hget₂ n).symm) h)
          have hfirst := resolvedModel_first (c := c₁) href₁ rfl
          have hsecond := resolvedModel_second (c := c₂) href₂ rfl
          have hsame : resolvedModel c₁ n = resolvedModel c₂ n :=
            (hOI c₁.schemas hperm.symm n).trans (hOI c₂.schemas hswap.symm n).symm
          rw [hfirst, hsecond, modelOf_congr hget₁, modelOf_congr hget₂,
            onlyBase_congr hget₂] at hsame
          -- an `allOf` is no enum, so its properties are the merged ones
          have hprops := congrArg Model.properties (Option.some.inj hsame)
          exact hprops.symm

/-- **When the order of the schemas does not matter.** -/
theorem orderIndependent_iff (c : Components) :
    OrderIndependent c ↔ HasReference c ∨ SelfContained c := by
  constructor
  · intro hOI
    by_cases href : HasReference c
    · exact Or.inl href
    · exact Or.inr (selfContained_of_orderIndependent hOI href)
  · intro h schemas hperm n
    have hget : ∀ n, schemas.get n = c.schemas.get n := IndexMap.get_perm hperm
    have hget' : ∀ n, ({ c with schemas := schemas } : Components).schemas.get n
        = c.schemas.get n := hget
    by_cases href : HasReference c
    · rw [resolvedModel_of_hasReference href,
        resolvedModel_of_hasReference (hasReference_congr hget' href)]
    · have hself := h.resolve_left href
      have href' : ¬HasReference { c with schemas := schemas } :=
        fun h => href (hasReference_congr (fun n => (hget' n).symm) h)
      rw [resolvedModel_eq_baseModel hself href,
        resolvedModel_eq_baseModel (selfContained_congr hget' hself) href',
        baseModel_congr hget']

/-- Enough for order independence: an `allOf` names plain objects only. -/
theorem selfContained_of_plain {c : Components}
    (h : ∀ n data allOf, c.schemas.get n = some (.item ⟨data, .allOf allOf⟩) →
      ∀ reference, ReferenceOr.reference reference ∈ allOf →
        ∃ o, (c.schemas.get (refName reference)).bind inlineObject = some o) :
    SelfContained c := by
  intro n data allOf hn r _
  refine congrArg mergedProperties (List.map_congr_left fun member hm => ?_)
  cases member with
  | item s => rfl
  | reference reference =>
      obtain ⟨o, ho⟩ := h n data allOf hn reference hm
      rw [contribution_reference_object ho, contribution_reference_object ho]

/-- `Pet` declares a name, `Dog` extends `Pet`. -/
def dogSchemas : List (String × ReferenceOr Schema) :=
  let string : Schema := ⟨SchemaData.default, .type (.string ⟨.empty, []⟩)⟩
  [("Pet", .item ⟨SchemaData.default, .allOf
      [.item ⟨SchemaData.default, .type (.object ⟨[("name", .item string)], ["name"], none⟩)⟩]⟩),
    ("Dog", .item ⟨SchemaData.default, .allOf
      [.reference "#/components/schemas/Pet",
        .item ⟨SchemaData.default, .type (.object ⟨[("breed", .item string)], [], none⟩)⟩]⟩)]

/-- Declared before `Pet`, `Dog` loses the name. -/
theorem dog_depends_on_order :
    ¬OrderIndependent (Components.ofSchemas dogSchemas) := by
  intro hOI
  have hsame := hOI (IndexMap.ofList dogSchemas.reverse) (List.reverse_perm dogSchemas) "Dog"
  have hprops := congrArg (Option.map fun m : Model => m.properties.map (·.name)) hsame
  have hbefore : (resolvedModel { Components.ofSchemas dogSchemas with
      schemas := IndexMap.ofList dogSchemas.reverse } "Dog").map
        (fun m => m.properties.map (·.name)) = some ["breed"] := rfl
  have hafter : (resolvedModel (Components.ofSchemas dogSchemas) "Dog").map
        (fun m => m.properties.map (·.name)) = some ["name", "breed"] := rfl
  rw [hbefore, hafter] at hprops
  exact absurd hprops (by decide)

end SpecForge
