import SpecForge.Core.SwaggerExport

/-!
# Is the export self-contained?

The export looks references up in the component schemas although their second segment
names the section, so a reference to a schema finds what stands under its name in a schema
called `schemas`. §1 says what an inlined operation is, §2 compares what references point
to with what they are looked up to, and §3 is the exact condition.
-/

namespace SpecForge

open Lib
open Value (Refers)

/-! ## §1  Inlined operations -/

def inlinedSections : List String := ["schemas", "responses", "parameters"]

/-- The component that a reference to one of the three sections points to. -/
def target (spec : Value) (r : String) : Option Value :=
  (componentRef r).bind fun p =>
    if p.1 ∈ inlinedSections then spec.component p.1 p.2 else none

/-- `v` with its references followed to their targets is `u` with its lookups followed.
References that have no target in the three sections may become anything. -/
inductive Unfolds (spec : Value) (lookup : Value → Option Value) : Value → Value → Prop where
  | target {v r t u} : v.reference = some r → target spec r = some t →
      Unfolds spec lookup t u → Unfolds spec lookup v u
  | other {v r u} : v.reference = some r → SpecForge.target spec r = none →
      Unfolds spec lookup v u
  | lookup {v u u'} : v.reference = none → lookup u = some u' → Unfolds spec lookup v u' →
      Unfolds spec lookup v u
  | object {es fs} : (Value.object es).reference = none → lookup (.object fs) = none →
      (∀ k, (es.lookup k).isSome = (fs.lookup k).isSome) →
      (∀ k x y, es.lookup k = some x → fs.lookup k = some y → Unfolds spec lookup x y) →
      Unfolds spec lookup (.object es) (.object fs)
  | array {xs ys} : xs.length = ys.length →
      (∀ (i : ℕ) x y, xs[i]? = some x → ys[i]? = some y → Unfolds spec lookup x y) →
      Unfolds spec lookup (.array xs) (.array ys)
  | leaf {v} : v.Leaf → Unfolds spec lookup v v

/-- `w` is `v` with its references replaced by their inlined definitions. -/
def Inlines (spec v w : Value) : Prop := Unfolds spec (fun _ => none) v w

def operationMethods : List String :=
  ["get", "put", "post", "delete", "options", "head", "patch", "trace"]

def Value.operationAt (spec : Value) (path method : String) : Option Value :=
  (spec.pathItem path).bind (·.get method)

/-- No operation has a reference with a target, and the operations that were there have been
inlined. -/
structure InlinedOperations (spec bundle : Value) : Prop where
  closed : ∀ path method op r, method ∈ operationMethods →
    bundle.operationAt path method = some op → op.Refers r → target spec r = none
  inlined : ∀ path method op op', method ∈ operationMethods →
    spec.operationAt path method = some op → bundle.operationAt path method = some op' →
    Inlines spec op op'

/-! ## §2  Targets and lookups -/

section

variable {spec components v w u : Value}

theorem reference_of_leaf (hv : v.Leaf) : v.reference = none := by
  cases v with
  | object es => cases hv.1
  | _ => rfl

theorem isSome_lookup_of_forall₂ {es fs : List (String × Value)} {P : Value → Value → Prop}
    (h : List.Forall₂ (fun e f => e.1 = f.1 ∧ P e.2 f.2) es fs) {k : String} :
    (fs.lookup k).isSome = (es.lookup k).isSome := by
  rw [Bool.eq_iff_iff, Option.isSome_iff_exists, Option.isSome_iff_exists]
  constructor
  · rintro ⟨y, hy⟩
    obtain ⟨x, hx, -⟩ := (BTreeMap.lookup_of_forall₂ h).2 y hy
    exact ⟨x, hx⟩
  · rintro ⟨x, hx⟩
    obtain ⟨y, hy, -⟩ := (BTreeMap.lookup_of_forall₂ h).1 x hx
    exact ⟨y, hy⟩

theorem unfolds_of_looksUp (hv : v.reference = none) (hu : LooksUp components u w)
    (h : Unfolds spec (lookedUp components) v w) : Unfolds spec (lookedUp components) v u := by
  induction hu using Relation.ReflTransGen.head_induction_on with
  | refl => exact h
  | head hstep _ ih => exact .lookup hv hstep ih

/-- **Inlining gives the result of the walk exactly if targets and lookups unfold alike.** -/
theorem inlines_walk (h : WalksTo components u w) :
    Inlines spec v w ↔ Unfolds spec (lookedUp components) v u := by
  constructor
  · intro hinlines
    induction hinlines generalizing u with
    | target hr ht _ ih => exact .target hr ht (ih h)
    | other hr ht => exact .other hr ht
    | lookup _ hnone _ _ => cases hnone
    | object href _ hkeys _ ih =>
        obtain ⟨fs, hu, hnone, hall⟩ := looksUp_object h
        have hfind := fun k => BTreeMap.lookup_of_forall₂ (k := k) hall
        refine unfolds_of_looksUp href hu (.object href hnone (fun k => ?_) fun k x y hx hy => ?_)
        · rw [hkeys k, isSome_lookup_of_forall₂ hall]
        · obtain ⟨z, hz, hyz⟩ := (hfind k).1 y hy
          exact ih k x z hx hz hyz
    | array hlen _ ih =>
        obtain ⟨ys, hu, hall⟩ := looksUp_array h
        refine unfolds_of_looksUp rfl hu (.array (hlen.trans hall.length_eq.symm) ?_)
        intro i x y hx hy
        obtain ⟨z, hz, hyz⟩ := forall₂_getElem?_left hall hy
        exact ih i x z hx hz hyz
    | leaf hleaf =>
        exact unfolds_of_looksUp (reference_of_leaf hleaf) ((walksTo_leaf_iff hleaf).mp h)
          (.leaf hleaf)
  · intro hunfolds
    induction hunfolds generalizing w with
    | target hr ht _ ih => exact .target hr ht (ih h)
    | other hr ht => exact .other hr ht
    | lookup _ hu _ ih => exact ih ((walksTo_resolved hu).mp h)
    | object href hnone hkeys _ ih =>
        obtain ⟨gs, rfl, hall⟩ := (walksTo_object hnone).mp h
        refine .object href rfl (fun k => ?_) fun k x z hx hz => ?_
        · rw [hkeys k, isSome_lookup_of_forall₂ hall]
        · obtain ⟨y, hy, hyz⟩ := (BTreeMap.lookup_of_forall₂ hall).2 z hz
          exact ih k x y hx hy hyz
    | array hlen _ ih =>
        obtain ⟨zs, rfl, hall⟩ := walksTo_array.mp h
        refine .array (hlen.trans hall.length_eq) fun i x z hx hz => ?_
        obtain ⟨y, hy, hyz⟩ := forall₂_getElem?_right hall hz
        exact ih i x y hx hy hyz
    | leaf hleaf =>
        rw [← (walksTo_leaf hleaf).mp h]
        exact .leaf hleaf

end

/-! ## §3  The condition -/

/-- The operation that the lookups lead to. -/
def LeadsToOperation (components bundle : Value) (path method : String) (op : Value) : Prop :=
  ∃ ps item, Leads components bundle "paths" ps ∧ Leads components ps path item ∧
    Leads components item method op

/-- The lookups come to an end, miss no reference with a target on the way through an
operation, and give what the targets give. -/
structure LookupsInline (spec : Value) : Prop where
  ends : Acc (fun w v => WalkCalls (exportComponents spec) v w) (exportBundle spec)
  misses : ∀ path method op r, method ∈ operationMethods →
    LeadsToOperation (exportComponents spec) (exportBundle spec) path method op →
    Leaves (exportComponents spec) r op → target spec r = none
  agree : ∀ path method op s, method ∈ operationMethods →
    spec.operationAt path method = some op →
    LeadsToOperation (exportComponents spec) (exportBundle spec) path method s →
    Unfolds spec (lookedUp (exportComponents spec)) op s

section

variable {spec components bundle v : Value} {path method : String}

theorem exportSwaggerEditor_eq (n : ℕ) (spec : Value) : exportSwaggerEditor n spec =
    resolveRefsInValue (exportComponents spec) n (exportBundle spec) := by
  have hget : (spec.insert "openapi" (.string "3.0.3")).get "components" =
      spec.get "components" := Value.get_insert_ne (by decide)
  rw [exportSwaggerEditor, exportComponents, exportComponents, hget]

theorem leadsToOperation_of_operationAt {op' : Value} (h : WalksTo components v bundle)
    (hop : bundle.operationAt path method = some op') :
    ∃ op, LeadsToOperation components v path method op ∧ WalksTo components op op' := by
  obtain ⟨item', hitem', hop'⟩ := Option.bind_eq_some_iff.mp hop
  obtain ⟨ps', hps', hitem'⟩ := Option.bind_eq_some_iff.mp hitem'
  obtain ⟨ps, hps, hwalk⟩ := leads_of_get h hps'
  obtain ⟨item, hitem, hwalk⟩ := leads_of_get hwalk hitem'
  obtain ⟨op, hop, hwalk⟩ := leads_of_get hwalk hop'
  exact ⟨op, ⟨ps, item, hps, hitem, hop⟩, hwalk⟩

theorem operationAt_of_leads {op : Value} (h : WalksTo components v bundle)
    (hop : LeadsToOperation components v path method op) :
    ∃ op', bundle.operationAt path method = some op' ∧ WalksTo components op op' := by
  obtain ⟨ps, item, hps, hitem, hop⟩ := hop
  obtain ⟨ps', hps', hwalk⟩ := get_of_leads h hps
  obtain ⟨item', hitem', hwalk⟩ := get_of_leads hwalk hitem
  obtain ⟨op', hop', hwalk⟩ := get_of_leads hwalk hop
  refine ⟨op', ?_, hwalk⟩
  rw [Value.operationAt, Value.pathItem, hps', Option.bind_some, hitem', Option.bind_some, hop']

/-- **The export is self-contained exactly if its lookups inline the targets.** -/
theorem export_self_contained_iff (spec : Value) :
    (∃ bundle, Returns (fun n => exportSwaggerEditor n spec) bundle ∧
      InlinedOperations spec bundle) ↔ LookupsInline spec := by
  simp only [exportSwaggerEditor_eq]
  constructor
  · rintro ⟨bundle, hwalk, hclosed, hinlined⟩
    refine ⟨walks_iff_acc.mp ⟨bundle, hwalk⟩, ?_, ?_⟩
    · intro path method op r hmethod hop hleaves
      obtain ⟨op', hop', hwalk'⟩ := operationAt_of_leads hwalk hop
      exact hclosed path method op' r hmethod hop' ((refers_walk hwalk').mpr hleaves)
    · intro path method op s hmethod hop hs
      obtain ⟨op', hop', hwalk'⟩ := operationAt_of_leads hwalk hs
      exact (inlines_walk hwalk').mp (hinlined path method op op' hmethod hop hop')
  · rintro ⟨hends, hmisses, hagree⟩
    obtain ⟨bundle, hwalk⟩ := walks_iff_acc.mpr hends
    refine ⟨bundle, hwalk, ?_, ?_⟩
    · intro path method op' r hmethod hop' hrefers
      obtain ⟨op, hop, hwalk'⟩ := leadsToOperation_of_operationAt hwalk hop'
      exact hmisses path method op r hmethod hop ((refers_walk hwalk').mp hrefers)
    · intro path method op op' hmethod hop hop'
      obtain ⟨s, hs, hwalk'⟩ := leadsToOperation_of_operationAt hwalk hop'
      exact (inlines_walk hwalk').mpr (hagree path method op s hmethod hop hs)

end

/-! ## §4  Documents whose references are not found -/

section

variable {spec components v : Value} {path method : String}

/-- Where no reference is found, the walk changes nothing. -/
theorem walksTo_self : (∀ r ∈ v.refs, resolveRef r components = none) →
    WalksTo components v v := by
  induction v using Value.induction with
  | array xs ih =>
      intro h
      refine walksTo_array.mpr ⟨xs, rfl, List.forall₂_same.mpr fun x hx => ?_⟩
      exact ih x hx fun r hr => h r (mem_refsItems hx hr)
  | object es ih =>
      intro h
      have hnone : lookedUp components (.object es) = none := by
        unfold lookedUp
        cases hget : (Value.object es).get "$ref" with
        | none => rfl
        | some w =>
            cases w with
            | string r =>
                exact h r (mem_refsEntries (mem_of_lookup_eq_some hget) (Or.inl ⟨rfl, rfl⟩))
            | _ => rfl
      refine (walksTo_object hnone).mpr ⟨es, rfl, List.forall₂_same.mpr fun e he => ⟨rfl, ?_⟩⟩
      exact ih e he fun r hr => h r (mem_refsEntries (k := e.1) he (Or.inr hr))
  | _ => exact fun _ => (walksTo_leaf ⟨rfl, rfl⟩).mpr rfl

/-- A value without references to inline is its own inlining. -/
theorem inlines_self : (∀ r, v.Refers r → target spec r = none) → Inlines spec v v := by
  induction v using Value.induction with
  | array xs ih =>
      intro h
      refine .array rfl fun i x y hx hy => ?_
      rw [hx] at hy
      cases hy
      have hmem := List.mem_of_getElem? hx
      exact ih x hmem fun r hr => h r (.item hmem hr)
  | object es ih =>
      intro h
      cases href : (Value.object es).reference with
      | some r =>
          refine .other href (h r (.here ?_))
          obtain ⟨w, hw, hstr⟩ := Option.bind_eq_some_iff.mp href
          cases w with
          | string s =>
              cases hstr
              exact hw
          | _ => cases hstr
      | none =>
          refine .object href rfl (fun _ => rfl) fun k x y hx hy => ?_
          rw [hx] at hy
          cases hy
          exact ih (k, x) (mem_of_lookup_eq_some hx) fun r hr => h r (.member hx hr)
  | _ => exact fun _ => .leaf ⟨rfl, rfl⟩

theorem operationAt_exportBundle :
    (exportBundle spec).operationAt path method = spec.operationAt path method := by
  have hopenapi : (spec.insert "openapi" (.string "3.0.3")).get "paths" = spec.get "paths" :=
    Value.get_insert_ne (by decide)
  unfold Value.operationAt Value.pathItem exportBundle
  by_cases hobj : spec.isObject = true
  · rw [get_ensureMember_self (Value.isObject_insert.trans hobj), hopenapi]
    cases spec.get "paths" <;> rfl
  · rw [Bool.not_eq_true] at hobj
    rw [Value.insert_of_not_object hobj, ensureMember, Value.get_of_not_object hobj,
      Value.insert_of_not_object hobj, Value.get_of_not_object hobj]

/-- **A document whose references are not found is exported as it is, so its operations
must not have references to inline.** -/
theorem export_unchanged_iff (h : ∀ r ∈ (exportBundle spec).refs,
    resolveRef r (exportComponents spec) = none) :
    (∃ bundle, Returns (fun n => exportSwaggerEditor n spec) bundle ∧
      InlinedOperations spec bundle) ↔
    ∀ path method op r, method ∈ operationMethods → spec.operationAt path method = some op →
      op.Refers r → target spec r = none := by
  have hself := walksTo_self h
  simp only [exportSwaggerEditor_eq]
  constructor
  · rintro ⟨bundle, hwalk, hclosed, -⟩ path method op r hmethod hop
    obtain rfl := walksTo_unique hself hwalk
    exact hclosed path method op r hmethod (operationAt_exportBundle.trans hop)
  · intro hnone
    refine ⟨_, hself, ?_, ?_⟩
    · intro path method op r hmethod hop
      exact hnone path method op r hmethod (operationAt_exportBundle.symm.trans hop)
    · intro path method op op' hmethod hop hop'
      rw [operationAt_exportBundle, hop] at hop'
      cases hop'
      exact inlines_self fun r => hnone path method op r hmethod hop

/-- A schema refers to another one. -/
def SchemaRef (spec : Value) (a b : String) : Prop :=
  ∃ s r, spec.component "schemas" a = some s ∧ s.Refers r ∧
    componentRef r = some ("schemas", b)

/-- One operation that answers with a pet. -/
def petExportSpec : Value :=
  .object [
    ("components", .object [("schemas", .object [("Pet", .object [
      ("properties", .object [("name", .object [("type", .string "string")])]),
      ("type", .string "object")])])]),
    ("info", .object [("title", .string "Test"), ("version", .string "1.0.0")]),
    ("openapi", .string "3.0.3"),
    ("paths", .object [("/pets", .object [("get", .object [("responses", .object [
      ("200", .object [("content", .object [("application/json", .object [
        ("schema", .object [("$ref", .string "#/components/schemas/Pet")])])])])])])])])]

/-- The reference to the pet is still there after the export. -/
theorem export_keeps_ref : ∃ spec, (∀ a, ¬Relation.TransGen (SchemaRef spec) a a) ∧
    ¬∃ bundle, Returns (fun n => exportSwaggerEditor n spec) bundle ∧
      InlinedOperations spec bundle := by
  refine ⟨petExportSpec, fun a hcycle => ?_, fun hexport => ?_⟩
  · obtain ⟨b, ⟨s, r, hs, hr, -⟩, -⟩ := Relation.TransGen.head'_iff.mp hcycle
    have hmem := mem_of_lookup_eq_some hs
    rw [List.mem_singleton] at hmem
    cases hmem
    have hnone : r ∈ ([] : List String) := hr.mem_refs
    cases hnone
  · have hmiss : ∀ r ∈ (exportBundle petExportSpec).refs,
        resolveRef r (exportComponents petExportSpec) = none := by decide
    have hrefers : ∀ {op}, petExportSpec.operationAt "/pets" "get" = some op →
        op.Refers "#/components/schemas/Pet" := by
      rintro op ⟨⟩
      exact .member (k := "responses") rfl (.member (k := "200") rfl (.member (k := "content") rfl
        (.member (k := "application/json") rfl (.member (k := "schema") rfl (.here rfl)))))
    have htarget := (export_unchanged_iff hmiss).mp hexport "/pets" "get" _ _
      List.mem_cons_self rfl (hrefers rfl)
    exact absurd htarget (by decide)

end

end SpecForge
