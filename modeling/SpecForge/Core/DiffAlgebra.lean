import SpecForge.Core.DiffTexts
import SpecForge.Core.References

/-!
# Laws of the comparison

- §1 `typeChanged` is reflexive and symmetric.
- §2 a reordered document has no changes (`diff_reordered`).
- §3 swapping the documents turns additions into removals (`diff_dual`).
-/

namespace SpecForge

open Lib (IndexMap)

/-! ## §1  Type comparison -/

theorem typeChanged_self (t : IrType) : typeChanged t t = false := by
  induction t using IrType.induction with
  | array item nullable ih => exact ih
  | scalar s => simp [typeChanged]
  | stringEnum variants nullable => simp [typeChanged]
  | reference name nullable description => simp [typeChanged]
  | map value ih => rfl
  | composition kind members discriminator ih => rfl
  | any => rfl
  | unknown => rfl

theorem typeChanged_comm (s t : IrType) : typeChanged s t = typeChanged t s := by
  induction s using IrType.induction generalizing t with
  | array item nullable ih =>
      cases t with
      | array item' nullable' => exact ih item'
      | _ => rfl
  | scalar s =>
      cases t with
      | scalar s' => exact bne_comm
      | _ => rfl
  | stringEnum variants nullable =>
      cases t with
      | stringEnum variants' nullable' => exact bne_comm
      | _ => rfl
  | reference name nullable description =>
      cases t with
      | reference name' nullable' description' => exact bne_comm
      | _ => rfl
  | map value ih => cases t <;> rfl
  | composition kind members discriminator ih => cases t <;> rfl
  | any => cases t <;> rfl
  | unknown => cases t <;> rfl

/-! ## §2  Reordered documents -/

/-- The parameters and the responses in another order. -/
def ReorderedOperation (o o' : Operation) : Prop :=
  ∃ parameters responses, o.parameters.Perm parameters ∧ o.responses.Perm responses ∧
    o' = { o with parameters := parameters, responses := responses }

/-- The properties in another order. -/
inductive ReorderedModel : Model → Model → Prop
  | enum (e : EnumModel) : ReorderedModel (.enum e) (.enum e)
  | object {o : ObjectModel} {properties : List Property}
      (hp : o.properties.Perm properties) :
      ReorderedModel (.object o) (.object { o with properties := properties })

/-- `d'` is `d` with its operations and schemas in another order, and the parts of
each of them too. -/
structure Reordered (d d' : Document) : Prop where
  operations : ∃ ops, d.operations.Perm ops ∧ List.Forall₂ ReorderedOperation ops d'.operations
  schemas : ∃ entries, d.schemas.models.entries.Perm entries ∧
    List.Forall₂ (fun e e' => e.1 = e'.1 ∧ ReorderedModel e.2 e'.2) entries
      d'.schemas.models.entries
  rest : d' = { d with operations := d'.operations, schemas := d'.schemas }

theorem ReorderedModel.refl (m : Model) : ReorderedModel m m := by
  cases m with
  | enum e => exact .enum e
  | object o => exact .object (List.Perm.refl o.properties)

theorem Reordered.refl (d : Document) : Reordered d d where
  operations := ⟨_, List.Perm.refl _, List.forall₂_same.mpr fun _ _ =>
    ⟨_, _, List.Perm.refl _, List.Perm.refl _, rfl⟩⟩
  schemas := ⟨_, List.Perm.refl _, List.forall₂_same.mpr fun e _ =>
    ⟨rfl, ReorderedModel.refl e.2⟩⟩
  rest := rfl

namespace Reordered

variable {d d' : Document}

theorem exists_operation (h : Reordered d d') {o : Operation} (ho : o ∈ d.operations) :
    ∃ o' ∈ d'.operations, ReorderedOperation o o' := by
  obtain ⟨ops, hperm, hops⟩ := h.operations
  exact Lib.forall₂_mem_left hops (hperm.mem_iff.mp ho)

theorem operation_of_mem (h : Reordered d d') {o' : Operation} (ho' : o' ∈ d'.operations) :
    ∃ o ∈ d.operations, ReorderedOperation o o' := by
  obtain ⟨ops, hperm, hops⟩ := h.operations
  obtain ⟨o, ho, hre⟩ := Lib.forall₂_mem_right hops ho'
  exact ⟨o, hperm.mem_iff.mpr ho, hre⟩

theorem exists_model (h : Reordered d d') {n : String} {m : Model}
    (hm : d.schemas.get n = some m) : ∃ m', d'.schemas.get n = some m' ∧ ReorderedModel m m' := by
  obtain ⟨entries, hperm, hentries⟩ := h.schemas
  have hmem := hperm.mem_iff.mp (IndexMap.mem_entries_iff.mpr hm)
  obtain ⟨⟨n', m'⟩, hmem', rfl, hre⟩ := Lib.forall₂_mem_left hentries hmem
  exact ⟨m', IndexMap.mem_entries_iff.mp hmem', hre⟩

theorem model_of_get (h : Reordered d d') {n : String} {m' : Model}
    (hm' : d'.schemas.get n = some m') : ∃ m, d.schemas.get n = some m ∧ ReorderedModel m m' := by
  obtain ⟨entries, hperm, hentries⟩ := h.schemas
  obtain ⟨⟨n', m⟩, hmem, rfl, hre⟩ :=
    Lib.forall₂_mem_right hentries (IndexMap.mem_entries_iff.mpr hm')
  exact ⟨m, IndexMap.mem_entries_iff.mp (hperm.mem_iff.mpr hmem), hre⟩

end Reordered

theorem ReorderedOperation.operationId_eq {o o' : Operation} (h : ReorderedOperation o o') :
    o'.operationId = o.operationId := by
  obtain ⟨_, _, _, _, rfl⟩ := h
  rfl

/-- A reordered operation has none of the changes. -/
theorem ReorderedOperation.not_opChanged {o o' : Operation} (h : ReorderedOperation o o')
    (c : OpChange) : ¬OpChanged o o' c := by
  obtain ⟨parameters, responses, hparams, hresponses, rfl⟩ := h
  intro hc
  cases hc with
  | newRequiredParameter hp _ hnew => exact hnew _ (hparams.mem_iff.mpr hp) rfl
  | parameterRemoved hp hgone => exact hgone _ (hparams.mem_iff.mp hp) rfl
  | newRequiredRequestBody hn _ ho =>
      have hnone : o.requestBody = some _ := hn
      rw [ho] at hnone
      cases hnone
  | responseRemoved hr hgone => exact hgone _ (hresponses.mem_iff.mp hr) rfl

/-- With distinct names the first property found by its name is the property. -/
theorem find?_name_eq {ps : List Property} (hnd : (ps.map (·.name)).Nodup) {p q : Property}
    (hp : p ∈ ps) (hq : (ps.find? fun x => x.name == p.name) = some q) : q = p := by
  rw [Lib.find?_key hnd hp] at hq
  exact (Option.some.inj hq).symm

theorem not_propertyChanged_of_perm {op np : List Property} (hperm : op.Perm np)
    (hnd : (op.map (·.name)).Nodup) (c : PropertyChange) : ¬PropertyChanged op np c := by
  have hnd' : (np.map (·.name)).Nodup := (hperm.map _).nodup_iff.mp hnd
  intro hc
  cases hc with
  | addedRequired hp _ hnew => exact hnew _ (hperm.mem_iff.mpr hp) rfl
  | added hp _ hnew => exact hnew _ (hperm.mem_iff.mpr hp) rfl
  | removed hp hgone => exact hgone _ (hperm.mem_iff.mp hp) rfl
  | typeChanged hp hq hty =>
      rw [find?_name_eq hnd' (hperm.mem_iff.mp hp) hq, typeChanged_self] at hty
      cases hty
  | requiredChanged hp hq _ hreq =>
      rw [find?_name_eq hnd' (hperm.mem_iff.mp hp) hq] at hreq
      exact hreq rfl

theorem Reordered.not_changed {d d' : Document} (h : Reordered d d') (hids : d.UniqueIds)
    (hprops : d.UniqueProperties) (c : Change) : ¬Changed d d' c := by
  intro hc
  cases hc with
  | irVersion hne =>
      rw [h.rest] at hne
      exact hne rfl
  | operationRemoved ho hgone =>
      obtain ⟨o', ho', hre⟩ := h.exists_operation ho
      exact hgone o' ho' hre.operationId_eq
  | operationAdded hn hnew =>
      obtain ⟨o, ho, hre⟩ := h.operation_of_mem hn
      exact hnew o ho hre.operationId_eq.symm
  | operation ho hn hc =>
      obtain ⟨hmemo, hido⟩ := mem_operationsById ho
      obtain ⟨hmemn, hidn⟩ := mem_operationsById hn
      obtain ⟨o₂, ho₂, hre⟩ := h.operation_of_mem hmemn
      have hid : o₂.operationId = _ := hre.operationId_eq.symm.trans (hidn.trans hido.symm)
      -- both come from one operation, since ids are unique
      have hsame := List.inj_on_of_nodup_map hids ho₂ hmemo hid
      rw [hsame] at hre
      exact hre.not_opChanged _ hc
  | schemaRemoved ho hn =>
      obtain ⟨m, hm⟩ := IndexMap.mem_keys_iff.mp ho
      obtain ⟨m', hm', -⟩ := h.exists_model hm
      exact hn (IndexMap.mem_keys_of_get hm')
  | schemaAdded hn ho =>
      obtain ⟨m', hm'⟩ := IndexMap.mem_keys_iff.mp hn
      obtain ⟨m, hm, -⟩ := h.model_of_get hm'
      exact ho (IndexMap.mem_keys_of_get hm)
  | property ho hn hc =>
      obtain ⟨m', hm', hre⟩ := h.exists_model ho
      have hsame := hm'.symm.trans hn
      cases hre with
      | object hperm =>
          cases hsame
          exact not_propertyChanged_of_perm hperm (hprops _ _ ho) _ hc

theorem diffDetailed_eq_empty {old new : Document} (hno : ∀ c, ¬Changed old new c)
    (h : DiffHashing) : diffDetailed h old new = ⟨[], []⟩ := by
  have hfindings : (diffDetailed h old new).findings = [] := by
    refine List.eq_nil_iff_forall_not_mem.mpr fun f hf => ?_
    obtain ⟨c, hc, -⟩ := mem_diff_iff.mp hf
    exact hno c hc
  have hschemas : (diffDetailed h old new).schemaDiffs = [] := by
    refine List.eq_nil_iff_forall_not_mem.mpr fun s hs => ?_
    obtain ⟨heq, hne⟩ := mem_schemaDiffs.mp hs
    obtain ⟨c, hc⟩ := List.exists_mem_of_ne_nil _ hne
    rw [heq] at hc
    obtain ⟨o, n, ho, hn, hc⟩ := mem_schemaPropertyChanges.mp hc
    exact hno _ (.property ho hn hc)
  exact congrArg₂ DiffResult.mk hfindings hschemas

/-- **No alarm on a reordered document**, in particular none on the document
itself, whatever the hashers. -/
theorem diff_reordered {d : Document} (hids : d.UniqueIds) (hprops : d.UniqueProperties)
    (h : DiffHashing) :
    (∀ d', Reordered d d' → diffDetailed h d d' = ⟨[], []⟩) ∧ diff h d d = [] := by
  have hall : ∀ d', Reordered d d' → diffDetailed h d d' = ⟨[], []⟩ :=
    fun d' hre => diffDetailed_eq_empty (hre.not_changed hids hprops) h
  exact ⟨hall, congrArg DiffResult.findings (hall d (Reordered.refl d))⟩

/-- A document with one object model and one operation. -/
def catDocument : Document :=
  Document.minimal ⟨IndexMap.ofList [("Cat", .object {
      name := "Cat"
      description := none
      properties := [⟨"name", .scalar .string, true, none⟩, ⟨"age", .scalar .integer, false, none⟩]
      additionalProperties := none
      shapeType := none
      baseType := none })]⟩
    [{ operationId := "getCat"
       method := .get
       path := "/cat"
       tag := none
       summary := none
       description := none
       parameters := []
       requestBody := none
       responses := [⟨"200", none, some (.reference "Cat" false none)⟩]
       retryPolicy := none }]

theorem catDocument_uniqueIds : catDocument.UniqueIds := List.nodup_singleton _

theorem catDocument_uniqueProperties : catDocument.UniqueProperties := by
  intro name o ho
  have hmem := IndexMap.mem_of_get_ofList ho
  rw [List.mem_singleton] at hmem
  cases hmem
  show ["name", "age"].Nodup
  decide

theorem diff_reordered_cat :
    (∀ d', Reordered catDocument d' →
      diffDetailed DiffHashing.insertion catDocument d' = ⟨[], []⟩) ∧
    diff DiffHashing.insertion catDocument catDocument = [] :=
  diff_reordered catDocument_uniqueIds catDocument_uniqueProperties DiffHashing.insertion

/-! ## §3  Swapped documents -/

/-- The names reported under a kind of change. -/
def DiffResult.reported (r : DiffResult) (k : NamedChange) : Set String :=
  {name | ∃ f ∈ r.findings, f.message = k.tag ++ name}

/-- The (schema, property) pairs reported with a kind of property change. -/
def DiffResult.reportedProperties (r : DiffResult) (kind : PropertyChangeKind → Prop) :
    Set (String × String) :=
  {x | ∃ d ∈ r.schemaDiffs, d.name = x.1 ∧ ∃ c ∈ d.changes, c.property = x.2 ∧ kind c.change}

namespace PropertyChangeKind

def IsRemoved (k : PropertyChangeKind) : Prop := ∃ ty, k = removed ty

/-- Added, as an optional or as a required property. -/
def IsAdded (k : PropertyChangeKind) : Prop := ∃ ty, k = added ty ∨ k = addedRequired ty

def IsTypeChanged (k : PropertyChangeKind) : Prop := ∃ old new, k = typeChanged old new

def IsRequiredChanged (k : PropertyChangeKind) : Prop := ∃ old new, k = requiredChanged old new

end PropertyChangeKind

theorem mem_reported {h : DiffHashing} {old new : Document} {k : NamedChange}
    {name : String} :
    name ∈ (diffDetailed h old new).reported k ↔ Changed old new (k.change name) := by
  constructor
  · rintro ⟨f, hf, hmessage⟩
    obtain ⟨c, hc, rfl⟩ := mem_diff_iff.mp hf
    rw [NamedChange.message_iff] at hmessage
    rw [← hmessage]
    exact hc
  · intro hc
    exact ⟨_, mem_diff_iff.mpr ⟨_, hc, rfl⟩, NamedChange.message_iff.mpr rfl⟩

theorem mem_reportedProperties {h : DiffHashing} {old new : Document}
    {kind : PropertyChangeKind → Prop} {x : String × String} :
    x ∈ (diffDetailed h old new).reportedProperties kind ↔
      ∃ o n, old.schemas.get x.1 = some (.object o) ∧ new.schemas.get x.1 = some (.object n) ∧
        ∃ c, PropertyChanged o.properties n.properties c ∧ c.property = x.2 ∧
          kind c.change := by
  constructor
  · rintro ⟨d, hd, hname, c, hc, hprop, hkind⟩
    rw [(mem_schemaDiffs.mp hd).1] at hc
    obtain ⟨o, n, ho, hn, hc⟩ := mem_schemaPropertyChanges.mp hc
    rw [hname] at ho hn
    exact ⟨o, n, ho, hn, c, hc, hprop, hkind⟩
  · rintro ⟨o, n, ho, hn, c, hc, hprop, hkind⟩
    have hmem : c ∈ schemaPropertyChanges old new x.1 :=
      mem_schemaPropertyChanges.mpr ⟨o, n, ho, hn, hc⟩
    exact ⟨⟨x.1, schemaPropertyChanges old new x.1⟩,
      mem_schemaDiffs.mpr ⟨rfl, List.ne_nil_of_mem hmem⟩, rfl, c, hmem, hprop, hkind⟩

theorem changed_operation_swap {a b : Document} {id : String} :
    Changed a b (.operationRemoved id) ↔ Changed b a (.operationAdded id) := by
  constructor
  · intro hc
    cases hc with
    | operationRemoved ho hgone => exact .operationAdded ho hgone
  · intro hc
    cases hc with
    | operationAdded hn hnew => exact .operationRemoved hn hnew

theorem changed_schema_swap {a b : Document} {name : String} :
    Changed a b (.schemaRemoved name) ↔ Changed b a (.schemaAdded name) := by
  constructor
  · intro hc
    cases hc with
    | schemaRemoved ho hn => exact .schemaAdded ho hn
  · intro hc
    cases hc with
    | schemaAdded hn ho => exact .schemaRemoved hn ho

/-- Of a property list to another: the names that are gone. -/
theorem propertyChanged_removed_iff {op np : List Property} {name : String} :
    (∃ c, PropertyChanged op np c ∧ c.property = name ∧ c.change.IsRemoved) ↔
      ∃ p ∈ op, p.name = name ∧ ∀ x ∈ np, x.name ≠ p.name := by
  constructor
  · rintro ⟨c, hc, rfl, ty, hkind⟩
    cases hc with
    | removed hp hgone => exact ⟨_, hp, rfl, hgone⟩
    | _ => cases hkind
  · rintro ⟨p, hp, rfl, hgone⟩
    exact ⟨_, .removed hp hgone, rfl, _, rfl⟩

theorem propertyChanged_added_iff {op np : List Property} {name : String} :
    (∃ c, PropertyChanged op np c ∧ c.property = name ∧ c.change.IsAdded) ↔
      ∃ p ∈ np, p.name = name ∧ ∀ x ∈ op, x.name ≠ p.name := by
  constructor
  · rintro ⟨c, hc, rfl, ty, hkind⟩
    cases hc with
    | addedRequired hp hreq hnew => exact ⟨_, hp, rfl, hnew⟩
    | added hp hreq hnew => exact ⟨_, hp, rfl, hnew⟩
    | removed _ _ => rcases hkind with h | h <;> cases h
    | typeChanged _ _ _ => rcases hkind with h | h <;> cases h
    | requiredChanged _ _ _ _ => rcases hkind with h | h <;> cases h
  · rintro ⟨p, hp, rfl, hnew⟩
    cases hreq : p.required with
    | true => exact ⟨_, .addedRequired hp hreq hnew, rfl, _, Or.inr rfl⟩
    | false => exact ⟨_, .added hp hreq hnew, rfl, _, Or.inl rfl⟩

/-- With distinct names a shared property is found from either side. -/
theorem find?_name_swap {op np : List Property} (hop : (op.map (·.name)).Nodup)
    {p q : Property} (hp : p ∈ op) (hq : (np.find? fun x => x.name == p.name) = some q) :
    q ∈ np ∧ q.name = p.name ∧ (op.find? fun x => x.name == q.name) = some p := by
  have hname : q.name = p.name := by simpa using List.find?_some hq
  refine ⟨List.mem_of_find?_eq_some hq, hname, ?_⟩
  rw [hname]
  exact Lib.find?_key hop hp

theorem propertyChanged_type_swap {op np : List Property} (hop : (op.map (·.name)).Nodup)
    {name : String}
    (h : ∃ c, PropertyChanged op np c ∧ c.property = name ∧ c.change.IsTypeChanged) :
    ∃ c, PropertyChanged np op c ∧ c.property = name ∧ c.change.IsTypeChanged := by
  obtain ⟨c, hc, rfl, old, new, hkind⟩ := h
  cases hc with
  | typeChanged hp hq hty =>
      obtain ⟨hmem, hname, hback⟩ := find?_name_swap hop hp hq
      rw [typeChanged_comm] at hty
      exact ⟨_, .typeChanged hmem hback hty, hname, _, _, rfl⟩
  | _ => cases hkind

theorem propertyChanged_required_swap {op np : List Property} (hop : (op.map (·.name)).Nodup)
    {name : String}
    (h : ∃ c, PropertyChanged op np c ∧ c.property = name ∧ c.change.IsRequiredChanged) :
    ∃ c, PropertyChanged np op c ∧ c.property = name ∧ c.change.IsRequiredChanged := by
  obtain ⟨c, hc, rfl, old, new, hkind⟩ := h
  cases hc with
  | requiredChanged hp hq hty hreq =>
      obtain ⟨hmem, hname, hback⟩ := find?_name_swap hop hp hq
      rw [typeChanged_comm] at hty
      exact ⟨_, .requiredChanged hmem hback hty hreq.symm, hname, _, _, rfl⟩
  | _ => cases hkind

/-- A kind of property change that survives the swap is reported for the same pairs
either way. -/
theorem reportedProperties_swap {kind : PropertyChangeKind → Prop}
    (hswap : ∀ {op np : List Property}, (op.map (·.name)).Nodup → ∀ {name : String},
      (∃ c, PropertyChanged op np c ∧ c.property = name ∧ kind c.change) →
      ∃ c, PropertyChanged np op c ∧ c.property = name ∧ kind c.change)
    {a b : Document} (ha : a.UniqueProperties) (hb : b.UniqueProperties)
    (h h' : DiffHashing) :
    (diffDetailed h a b).reportedProperties kind =
      (diffDetailed h' b a).reportedProperties kind := by
  ext x
  rw [mem_reportedProperties, mem_reportedProperties]
  constructor
  · rintro ⟨o, n, ho, hn, hc⟩
    exact ⟨n, o, hn, ho, hswap (ha _ _ ho) hc⟩
  · rintro ⟨n, o, hn, ho, hc⟩
    exact ⟨o, n, ho, hn, hswap (hb _ _ hn) hc⟩

/-- **Swapping the documents turns removals into additions** and keeps the other
property changes, whatever the hashers of the two runs. -/
theorem diff_dual {a b : Document} (ha : a.UniqueProperties) (hb : b.UniqueProperties)
    (h h' : DiffHashing) :
    (diffDetailed h a b).reported .operationRemoved =
        (diffDetailed h' b a).reported .operationAdded ∧
      (diffDetailed h a b).reported .schemaRemoved =
        (diffDetailed h' b a).reported .schemaAdded ∧
      (diffDetailed h a b).reportedProperties PropertyChangeKind.IsRemoved =
        (diffDetailed h' b a).reportedProperties PropertyChangeKind.IsAdded ∧
      (diffDetailed h a b).reportedProperties PropertyChangeKind.IsTypeChanged =
        (diffDetailed h' b a).reportedProperties PropertyChangeKind.IsTypeChanged ∧
      (diffDetailed h a b).reportedProperties PropertyChangeKind.IsRequiredChanged =
        (diffDetailed h' b a).reportedProperties PropertyChangeKind.IsRequiredChanged := by
  refine ⟨?_, ?_, ?_, ?_, ?_⟩
  · ext id
    rw [mem_reported, mem_reported]
    exact changed_operation_swap
  · ext name
    rw [mem_reported, mem_reported]
    exact changed_schema_swap
  · ext x
    simp only [mem_reportedProperties, propertyChanged_removed_iff, propertyChanged_added_iff]
    constructor
    · rintro ⟨o, n, ho, hn, hc⟩
      exact ⟨n, o, hn, ho, hc⟩
    · rintro ⟨n, o, hn, ho, hc⟩
      exact ⟨o, n, ho, hn, hc⟩
  · exact reportedProperties_swap propertyChanged_type_swap ha hb h h'
  · exact reportedProperties_swap propertyChanged_required_swap ha hb h h'

/-- Cats have lost their age and have another name and a breed; there are dogs, too. -/
def kennelDocument : Document :=
  Document.minimal ⟨IndexMap.ofList [
    ("Cat", .object ⟨"Cat", none, [⟨"name", .scalar .integer, false, none⟩,
      ⟨"breed", .scalar .string, true, none⟩], none, none, none⟩),
    ("Dog", .object ⟨"Dog", none, [⟨"name", .scalar .string, true, none⟩], none, none, none⟩)]⟩
    [⟨"getDog", .get, "/dog", none, none, none, [], none,
      [⟨"200", none, some (.reference "Dog" false none)⟩], none⟩]

theorem kennelDocument_uniqueProperties : kennelDocument.UniqueProperties := by
  intro name o ho
  rcases List.mem_pair.mp (IndexMap.mem_of_get_ofList ho) with hmem | hmem
  · cases hmem
    exact List.nodup_cons.mpr ⟨by decide, List.nodup_singleton _⟩
  · cases hmem
    exact List.nodup_singleton _

/-- An operation, a schema and properties come and go, and a property changes. -/
theorem diff_dual_kennel :
    let old := diffDetailed DiffHashing.insertion catDocument kennelDocument
    let new := diffDetailed DiffHashing.insertion kennelDocument catDocument
    old.reported .operationRemoved = new.reported .operationAdded ∧
      old.reported .schemaRemoved = new.reported .schemaAdded ∧
      old.reportedProperties PropertyChangeKind.IsRemoved =
        new.reportedProperties PropertyChangeKind.IsAdded ∧
      old.reportedProperties PropertyChangeKind.IsTypeChanged =
        new.reportedProperties PropertyChangeKind.IsTypeChanged ∧
      old.reportedProperties PropertyChangeKind.IsRequiredChanged =
        new.reportedProperties PropertyChangeKind.IsRequiredChanged :=
  diff_dual catDocument_uniqueProperties kennelDocument_uniqueProperties DiffHashing.insertion
    DiffHashing.insertion

end SpecForge
