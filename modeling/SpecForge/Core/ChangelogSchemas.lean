import SpecForge.Core.Changelog

/-!
# Schema entries against findings

Severities are decided twice: when a property change is pushed as a finding, and
again from its kind when the changelog lists it. The two agree, item by item
(`schema_entries_faithful`). Which findings are about properties is read from
their paths, `schemas.<name>.<property>`; a schema that is added or removed has a
path of that form too if its name has a dot.
-/

namespace SpecForge

open Lib
open Lib.Text

/-! ## §1  Property findings -/

/-- The path has the form `schemas.<name>.<property>`. -/
def hasPropertyPath (path : String) : Bool :=
  match stripPrefix "schemas." path with
  | some rest => rest.toList.contains '.'
  | none => false

/-- A finding with such a path that is not about a whole schema. -/
def isPropertyFinding (f : DiffFinding) : Bool :=
  hasPropertyPath f.path && !startsWith "schema removed: " f.message
    && !startsWith "schema added: " f.message

/-- The property changes of a result, each with its schema. -/
def DiffResult.propertyItems (r : DiffResult) : List (String × PropertyChange) :=
  r.schemaDiffs.flatMap fun d => d.changes.map fun c => (d.name, c)

theorem hasPropertyPath_iff {path : String} :
    hasPropertyPath path = true ↔
      ∃ name property, path = "schemas." ++ name ++ "." ++ property := by
  unfold hasPropertyPath
  constructor
  · intro h
    cases hstrip : stripPrefix "schemas." path with
    | none =>
        rw [hstrip] at h
        cases h
    | some rest =>
        rw [hstrip] at h
        have hdot : '.' ∈ rest.toList := List.contains_iff_mem.mp h
        obtain ⟨pre, post, hsplit⟩ := List.append_of_mem hdot
        have hrest : rest = String.ofList pre ++ "." ++ String.ofList post := by
          rw [← String.toList_inj, String.toList_append, String.toList_append,
            String.toList_ofList, String.toList_ofList, hsplit]
          simp
        have hpath := eq_append_of_stripPrefix hstrip
        refine ⟨String.ofList pre, String.ofList post, ?_⟩
        rw [hpath, hrest, String.append_assoc, String.append_assoc, String.append_assoc]
  · rintro ⟨name, property, rfl⟩
    rw [String.append_assoc, String.append_assoc, stripPrefix_append]
    refine List.contains_iff_mem.mpr ?_
    simp [String.toList_append]

/-- Whether a change is a property change. -/
def Change.isProperty : Change → Bool
  | property _ _ => true
  | _ => false

theorem stripPrefix_schemas_operation (c : Change) (hid : c.operationId?.isSome) :
    stripPrefix "schemas." c.finding.path = none := by
  obtain ⟨s, hs⟩ := path_operation_change c hid
  rw [hs]
  exact Apart.stripPrefix_eq_none (by decide) s

theorem isPropertyFinding_property (name : String) (c : PropertyChange) :
    isPropertyFinding (Change.property name c).finding = true := by
  have hpath : hasPropertyPath (Change.property name c).finding.path = true := by
    refine hasPropertyPath_iff.mpr ⟨name, c.property, ?_⟩
    rw [Change.finding, PropertyChange.path_finding]
  have hremoved : startsWith "schema removed: " (Change.property name c).finding.message
      = false := by
    apply NamedChange.startsWith_eq_false (k := .schemaRemoved)
    rintro n ⟨⟩
  have hadded : startsWith "schema added: " (Change.property name c).finding.message
      = false := by
    apply NamedChange.startsWith_eq_false (k := .schemaAdded)
    rintro n ⟨⟩
  rw [isPropertyFinding, hpath, hremoved, hadded]
  rfl

/-- **Property findings are the findings of property changes.** -/
theorem isPropertyFinding_finding (c : Change) :
    isPropertyFinding c.finding = c.isProperty := by
  have hop : c.operationId?.isSome → isPropertyFinding c.finding = false := by
    intro hid
    rw [isPropertyFinding, hasPropertyPath, stripPrefix_schemas_operation c hid]
    rfl
  cases c with
  | property name c => exact isPropertyFinding_property name c
  | irVersion old new =>
      rw [isPropertyFinding, Change.finding, path_irVersionFinding, hasPropertyPath,
        Apart.stripPrefix_eq_none (by decide)]
      rfl
  | operationRemoved id => exact hop rfl
  | operationAdded id => exact hop rfl
  | operation id c => exact hop rfl
  | schemaRemoved name =>
      have hstarts : startsWith "schema removed: " ("schema removed: " ++ name) = true :=
        startsWith_append _ _
      rw [isPropertyFinding, Change.finding, hstarts]
      simp [Change.isProperty]
  | schemaAdded name =>
      have hstarts : startsWith "schema added: " ("schema added: " ++ name) = true :=
        startsWith_append _ _
      rw [isPropertyFinding, Change.finding, hstarts]
      simp [Change.isProperty]

/-! ## §2  Findings and items correspond -/

theorem propertyItems_eq (h : DiffHashing) (old new : Document) :
    (diffDetailed h old new).propertyItems =
      (sharedSchemas h old.schemas.names new.schemas.names).flatMap fun n =>
        (schemaPropertyChanges old new n).map fun c => (n, c) := by
  unfold DiffResult.propertyItems diffDetailed diffSchemas
  simp only [diffSchemaNamed_detail]
  generalize sharedSchemas h old.schemas.names new.schemas.names = shared
  induction shared with
  | nil => rfl
  | cons n shared ih =>
      rw [List.flatMap_cons, ← ih]
      by_cases hnil : schemaPropertyChanges old new n = []
      · simp [hnil]
      · simp [hnil]

theorem filter_isProperty_changes (h : DiffHashing) (old new : Document) :
    (changes h old new).filter Change.isProperty =
      (diffDetailed h old new).propertyItems.map fun x => .property x.1 x.2 := by
  have hnone : ∀ l : List Change, (∀ c ∈ l, c.isProperty = false) →
      l.filter Change.isProperty = [] :=
    fun l hl => List.filter_eq_nil_iff.mpr fun c hc => by simp [hl c hc]
  have hoperations : ∀ c ∈ operationChanges h old new, c.isProperty = false := by
    intro c hc
    have hid := (mem_operationChanges.mp hc).2
    cases c with
    | property name c => cases hid
    | _ => rfl
  have hversion : ∀ c ∈ (if old.irVersion ≠ new.irVersion then
      [Change.irVersion old.irVersion new.irVersion] else []), c.isProperty = false := by
    intro c hc
    split at hc
    · rw [List.mem_singleton.mp hc]
      rfl
    · exact absurd hc List.not_mem_nil
  have hremoved : ∀ {names : List String}, ∀ c ∈ names.map Change.schemaRemoved,
      c.isProperty = false := by
    intro names c hc
    obtain ⟨n, -, rfl⟩ := List.mem_map.mp hc
    rfl
  have hadded : ∀ {names : List String}, ∀ c ∈ names.map Change.schemaAdded,
      c.isProperty = false := by
    intro names c hc
    obtain ⟨n, -, rfl⟩ := List.mem_map.mp hc
    rfl
  have hshared : ∀ shared : List String,
      (shared.flatMap fun n => (schemaPropertyChanges old new n).map (.property n)).filter
          Change.isProperty =
        (shared.flatMap fun n => (schemaPropertyChanges old new n).map fun c => (n, c)).map
          fun x => Change.property x.1 x.2 := by
    intro shared
    rw [List.map_flatMap, List.filter_eq_self.mpr]
    · simp only [List.map_map, Function.comp_def]
    · intro c hc
      obtain ⟨n, -, hc⟩ := List.mem_flatMap.mp hc
      obtain ⟨pc, -, rfl⟩ := List.mem_map.mp hc
      rfl
  unfold changes schemaChanges
  rw [propertyItems_eq, ← hshared]
  simp only [List.filter_append]
  rw [hnone _ hversion, hnone _ hoperations, hnone (List.map Change.schemaRemoved _) hremoved,
    hnone (List.map Change.schemaAdded _) hadded]
  rfl

/-- The property findings of a run, in order, are the findings of its items. -/
theorem filter_isPropertyFinding (h : DiffHashing) (old new : Document) :
    (diff h old new).filter isPropertyFinding =
      (diffDetailed h old new).propertyItems.map fun x => x.2.finding ("schemas." ++ x.1) := by
  have hcomp : isPropertyFinding ∘ Change.finding = Change.isProperty :=
    funext isPropertyFinding_finding
  rw [diff_eq_changes, List.filter_map, hcomp, filter_isProperty_changes, List.map_map]
  rfl

/-- What a message puts behind the name of the property. -/
def PropertyChangeKind.remark : PropertyChangeKind → String
  | .requiredChanged old new => " (" ++ requiredWord old ++ " → " ++ requiredWord new ++ ")"
  | _ => ""

theorem subject_property (n : String) (c : PropertyChange) :
    (Change.property n c).subject = c.property ++ c.change.remark := by
  obtain ⟨p, change⟩ := c
  cases change with
  | requiredChanged old new =>
      show p ++ " (" ++ requiredWord old ++ " → " ++ requiredWord new ++ ")"
        = p ++ (" (" ++ requiredWord old ++ " → " ++ requiredWord new ++ ")")
      simp only [String.append_assoc]
  | _ => exact String.append_empty.symm

/-- Both words are eight letters long. -/
theorem length_remark_requiredChanged (old new : Bool) :
    (PropertyChangeKind.requiredChanged old new).remark.toList.length = 22 := by
  cases old <;> cases new <;> decide

/-- So a tag fixes the length of the remark. -/
theorem length_remark_of_tag {n m : String} {c c' : PropertyChange}
    (htag : (Change.property n c).tag = (Change.property m c').tag) :
    c.change.remark.toList.length = c'.change.remark.toList.length := by
  obtain ⟨p, change⟩ := c
  obtain ⟨q, change'⟩ := c'
  cases change <;> cases change' <;> simp only [Change.tag] at htag <;>
    first
      | exact absurd htag (by decide)
      | rfl
      | rw [length_remark_requiredChanged, length_remark_requiredChanged]

/-- A property finding tells its schema and its property. -/
theorem finding_property_inj {n m : String} {c c' : PropertyChange}
    (h : (Change.property n c).finding = (Change.property m c').finding) :
    n = m ∧ c.property = c'.property := by
  have hmessage : (Change.property n c).finding.message =
      (Change.property m c').tag ++ (Change.property m c').subject := by
    rw [h, Change.message_finding]
  obtain ⟨htag, hsubject⟩ := Change.of_message (Change.tag_mem _) hmessage
  rw [subject_property, subject_property] at hsubject
  have hproperty : c.property = c'.property :=
    append_inj_of_length hsubject (length_remark_of_tag htag)
  have hpath := congrArg DiffFinding.path h
  rw [path_property, path_property, hproperty] at hpath
  have hname : n ++ "." ++ c'.property = m ++ "." ++ c'.property := append_inj_left hpath
  exact ⟨append_inj_right (append_inj_right hname), hproperty⟩

/-! ## §3  Entries -/

/-- The impact listed for a property change is the severity reported for it. -/
theorem propertyChangeEntry_impact (path : String) (c : PropertyChange) :
    (propertyChangeEntry c).impact = .breaking ↔ (c.finding path).severity = .breaking := by
  rw [PropertyChange.severity_finding]
  obtain ⟨p, change⟩ := c
  cases change with
  | requiredChanged old new =>
      cases new <;> simp [propertyChangeEntry, PropertyChangeKind.breaking]
  | _ => simp [propertyChangeEntry, PropertyChangeKind.breaking]

/-- The listed property changes, each with the schema it is listed under. -/
def propertyEntries (entries : List SchemaChangeEntry) : List (String × PropertyChangeEntry) :=
  entries.flatMap fun e => e.propertyChanges.map fun pc => (e.schemaName, pc)

theorem propertyEntries_build (r : DiffResult) :
    propertyEntries (buildSchemaEntries r.schemaDiffs) =
      r.propertyItems.map fun x => (x.1, propertyChangeEntry x.2) := by
  unfold propertyEntries buildSchemaEntries DiffResult.propertyItems
  rw [List.flatMap_map, List.map_flatMap]
  simp only [schemaChangeEntry, List.map_map, Function.comp_def]

theorem schemaChangeEntry_impact (d : SchemaDiffDetail) :
    (schemaChangeEntry d).impact = .breaking ↔
      ∃ c ∈ d.changes, (propertyChangeEntry c).impact = .breaking := by
  unfold schemaChangeEntry
  by_cases hany : (d.changes.map propertyChangeEntry).any fun pc => pc.impact == .breaking
  · simp only [if_pos hany, true_iff]
    obtain ⟨pc, hpc, hbreaking⟩ := List.any_eq_true.mp hany
    obtain ⟨c, hc, rfl⟩ := List.mem_map.mp hpc
    exact ⟨c, hc, beq_iff_eq.mp hbreaking⟩
  · simp only [if_neg hany, reduceCtorEq, false_iff]
    rintro ⟨c, hc, hbreaking⟩
    exact hany (List.any_eq_true.mpr
      ⟨_, List.mem_map.mpr ⟨c, hc, rfl⟩, beq_iff_eq.mpr hbreaking⟩)

/-- A finding is about a property of the schema. -/
def AboutSchema (name : String) (f : DiffFinding) : Prop :=
  ∃ c : PropertyChange, f = c.finding ("schemas." ++ name)

/-- The items of a schema that is listed are the changes listed for it. -/
theorem mem_changes_of_finding {h : DiffHashing} {old new : Document} {d : SchemaDiffDetail}
    (hd : d ∈ (diffDetailed h old new).schemaDiffs) {c : PropertyChange}
    (hc : c.finding ("schemas." ++ d.name) ∈ diff h old new) :
    ∃ c' ∈ d.changes, c'.finding ("schemas." ++ d.name) = c.finding ("schemas." ++ d.name) := by
  obtain ⟨change, hchange, heq⟩ := mem_diff_iff.mp hc
  have hproperty : change.isProperty = true := by
    rw [← isPropertyFinding_finding, heq]
    exact isPropertyFinding_property d.name c
  cases hchange with
  | @property n o m c' ho hm hc' =>
      obtain ⟨hn, -⟩ := finding_property_inj (n := n) (m := d.name) heq
      refine ⟨c', ?_, ?_⟩
      · rw [(mem_schemaDiffs.mp hd).1, ← hn]
        exact mem_schemaPropertyChanges.mpr ⟨o, m, ho, hm, hc'⟩
      · rw [← heq, hn]
        rfl
  | _ => cases hproperty

/-- **The changelog classifies schemas as the findings do.** The property findings are
the items of the result, one for one and in one order; so are the listed property
changes, with the impact that the finding has as severity; and an entry is breaking
when a finding about its schema is. -/
theorem schema_entries_faithful (h : DiffHashing) (old new : Document) :
    ((diffDetailed h old new).findings.filter isPropertyFinding =
        (diffDetailed h old new).propertyItems.map fun x =>
          x.2.finding ("schemas." ++ x.1)) ∧
      (propertyEntries (buildSchemaEntries (diffDetailed h old new).schemaDiffs) =
        (diffDetailed h old new).propertyItems.map fun x => (x.1, propertyChangeEntry x.2)) ∧
      (∀ x ∈ (diffDetailed h old new).propertyItems,
        (propertyChangeEntry x.2).impact = .breaking ↔
          (x.2.finding ("schemas." ++ x.1)).severity = .breaking) ∧
      ∀ e ∈ buildSchemaEntries (diffDetailed h old new).schemaDiffs,
        e.impact = .breaking ↔
          ∃ f ∈ (diffDetailed h old new).findings,
            AboutSchema e.schemaName f ∧ f.severity = .breaking := by
  refine ⟨filter_isPropertyFinding h old new, propertyEntries_build _,
    fun x _ => propertyChangeEntry_impact _ _, fun e he => ?_⟩
  obtain ⟨d, hd, rfl⟩ := List.mem_map.mp he
  rw [schemaChangeEntry_impact]
  constructor
  · rintro ⟨c, hc, hbreaking⟩
    refine ⟨c.finding ("schemas." ++ d.name), ?_, ⟨c, rfl⟩,
      (propertyChangeEntry_impact _ _).mp hbreaking⟩
    rw [(mem_schemaDiffs.mp hd).1] at hc
    obtain ⟨o, m, ho, hm, hchanged⟩ := mem_schemaPropertyChanges.mp hc
    exact mem_diff_iff.mpr ⟨.property d.name c, .property ho hm hchanged, rfl⟩
  · rintro ⟨f, hf, ⟨c, rfl⟩, hbreaking⟩
    obtain ⟨c', hc', heq⟩ := mem_changes_of_finding hd hf
    refine ⟨c', hc', (propertyChangeEntry_impact ("schemas." ++ d.name) c').mpr ?_⟩
    rw [heq]
    exact hbreaking

/-- An object model with the property `V1`. -/
def versionedPet : ObjectModel where
  name := "Pet"
  description := none
  properties := [⟨"V1", .any, false, none⟩]
  additionalProperties := none
  shapeType := none
  baseType := none

/-- This model as `Pet`, and enums with these names. -/
def petDocumentWith (enums : List String) : Document :=
  Document.minimal ⟨IndexMap.ofList
    (("Pet", .object versionedPet) :: enums.map fun name => (name, .enum ⟨name, none, []⟩))⟩ []

theorem petDocumentWith_uniqueProperties (enums : List String) :
    (petDocumentWith enums).UniqueProperties := by
  intro name o ho
  rcases List.mem_cons.mp (IndexMap.mem_of_get_ofList ho) with heq | hmem
  · cases heq
    exact List.nodup_singleton _
  · obtain ⟨n, -, heq⟩ := List.mem_map.mp hmem
    cases heq

/-- The finding for the removed model `Pet.V1` has the path of the property `V1` of
`Pet`, which did not change. -/
theorem dotted_schema_without_item :
    ¬∀ (h : DiffHashing) (old new : Document), old.UniqueProperties → new.UniqueProperties →
      ∀ f ∈ (diffDetailed h old new).findings, ∀ name o,
        old.schemas.get name = some (.object o) → ∀ p ∈ o.properties,
          f.path = "schemas." ++ name ++ "." ++ p.name →
          ∃ x ∈ (diffDetailed h old new).propertyItems,
            f.path = "schemas." ++ x.1 ++ "." ++ x.2.property := by
  intro hclaim
  obtain ⟨x, hx, -⟩ := hclaim DiffHashing.insertion (petDocumentWith ["Pet.V1"])
    (petDocumentWith []) (petDocumentWith_uniqueProperties _)
    (petDocumentWith_uniqueProperties _)
    ⟨.breaking, "schema removed: Pet.V1", "schemas.Pet.V1"⟩ (by decide) "Pet" _ rfl _
    (List.mem_singleton.mpr rfl) (by decide)
  have hnone : (diffDetailed DiffHashing.insertion (petDocumentWith ["Pet.V1"])
      (petDocumentWith [])).propertyItems = [] := by
    decide
  rw [hnone] at hx
  exact absurd hx List.not_mem_nil

end SpecForge
