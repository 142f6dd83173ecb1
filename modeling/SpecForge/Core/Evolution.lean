import Mathlib.Data.List.Chain
import SpecForge.Core.DiffGate
import SpecForge.Core.TypeChanges

/-!
# Releases one after the other

`track_evolution` counts the breaking changes between each version of a specification and the one
before (§1). What a client was promised at one version is kept by the later ones as long as no
step breaks it (§2), with three exceptions, which no comparison of neighbours shows (§3).
-/

namespace SpecForge

open Lib (IndexMap)

/-! ## §1  The timeline -/

structure VersionSnapshot where
  commit : String
  date : String
  schemaCount : ℕ
  operationCount : ℕ
  breakingChanges : ℕ

def breakingCount (h : DiffHashing) (old new : Document) : ℕ :=
  ((diff h old new).filter fun f => decide (f.severity = .breaking)).length

/-- The commits at which the specification can be read; the others are skipped. -/
def evolutionSnapshots (read : String → Option Document) (commits : List (String × String)) :
    List (String × String × Document) :=
  commits.filterMap fun c => (read c.1).map fun doc => (c.1, c.2, doc)

/-- The loop over the snapshots, with the document of the one before. -/
def versionsFrom (h : ℕ → DiffHashing) : ℕ → Option Document → List (String × String × Document) →
    List VersionSnapshot
  | _, _, [] => []
  | i, before, (commit, date, doc) :: rest =>
      { commit := commit
        date := date
        schemaCount := doc.schemas.models.entries.length
        operationCount := doc.operations.length
        breakingChanges := before.elim 0 fun old => breakingCount (h i) old doc } ::
        versionsFrom h (i + 1) (some doc) rest

/-- `track_evolution`, on the commits that `git log` names, oldest first. -/
def trackEvolution (h : ℕ → DiffHashing) (read : String → Option Document)
    (commits : List (String × String)) : List VersionSnapshot :=
  versionsFrom h 0 none (evolutionSnapshots read commits)

/-- The documents of the timeline. -/
def evolutionDocuments (read : String → Option Document) (commits : List (String × String)) :
    List Document :=
  (evolutionSnapshots read commits).map fun s => s.2.2

def Change.Breaking (c : Change) : Prop := c.finding.severity = .breaking

/-- There is nothing breaking between the two. -/
def Quiet (old new : Document) : Prop := ∀ c, Changed old new c → ¬c.Breaking

theorem breakingCount_eq_zero_iff {h : DiffHashing} {old new : Document} :
    breakingCount h old new = 0 ↔ Quiet old new := by
  simp only [breakingCount, List.length_eq_zero_iff, List.filter_eq_nil_iff, decide_eq_true_eq]
  constructor
  · intro hnone c hc
    exact hnone _ (mem_diff_iff.mpr ⟨c, hc, rfl⟩)
  · intro hquiet f hf
    obtain ⟨c, hc, rfl⟩ := mem_diff_iff.mp hf
    exact hquiet c hc

theorem isChain_of_versionsFrom {h : ℕ → DiffHashing} : ∀ {snapshots : List (String × String × Document)}
    {i : ℕ} {old : Document},
    (∀ v ∈ versionsFrom h i (some old) snapshots, v.breakingChanges = 0) →
      List.IsChain Quiet (old :: snapshots.map fun s => s.2.2)
  | [], _, _, _ => List.IsChain.singleton _
  | (commit, date, doc) :: rest, i, old, hall => by
      obtain ⟨hfirst, hrest⟩ := List.forall_mem_cons.mp hall
      rw [List.map_cons, List.isChain_cons_cons]
      exact ⟨breakingCount_eq_zero_iff.mp hfirst, isChain_of_versionsFrom hrest⟩

/-- Where nothing breaking is counted, neighbours are quiet. -/
theorem isChain_of_trackEvolution {h : ℕ → DiffHashing} {read : String → Option Document}
    {commits : List (String × String)}
    (hall : ∀ v ∈ trackEvolution h read commits, v.breakingChanges = 0) :
    List.IsChain Quiet (evolutionDocuments read commits) := by
  unfold trackEvolution at hall
  unfold evolutionDocuments
  cases hsnapshots : evolutionSnapshots read commits with
  | nil => exact List.IsChain.nil
  | cons s rest =>
      rw [hsnapshots] at hall
      obtain ⟨-, hrest⟩ := List.forall_mem_cons.mp hall
      rw [List.map_cons]
      exact isChain_of_versionsFrom hrest

/-! ## §2  What is kept -/

/-- One of the documents has the parameter, and does not ask for it. -/
def OptionalParameter (ds : List Document) (id name : String) : Prop :=
  ∃ d ∈ ds, ∃ op, (operationsById d).get id = some op ∧
    ∃ q ∈ op.parameters, q.name = name ∧ q.required = false

/-- One of the documents has a body for the operation, and does not ask for it. -/
def OptionalBody (ds : List Document) (id : String) : Prop :=
  ∃ d ∈ ds, ∃ op, (operationsById d).get id = some op ∧
    ∃ b, op.requestBody = some b ∧ b.required = false

/-- The schema is an enum in one of the documents. -/
def EnumBetween (ds : List Document) (name : String) : Prop :=
  ∃ d ∈ ds, ∃ e, d.schemas.get name = some (.enum e)

/-- An operation still takes and answers what it did, and what it asks for besides it once did
not ask for. -/
structure OperationKept (ds : List Document) (id : String) (o n : Operation) : Prop where
  parameter : ∀ p ∈ o.parameters, ∃ q ∈ n.parameters, q.name = p.name
  response : ∀ r ∈ o.responses, ∃ s ∈ n.responses, s.status = r.status
  newParameter : ∀ q ∈ n.parameters, (∀ p ∈ o.parameters, p.name ≠ q.name) →
    OptionalParameter ds id q.name
  newBody : ∀ b, n.requestBody = some b → o.requestBody = none → OptionalBody ds id

/-- The properties have kept their types and are not asked for where they were not. -/
structure PropertiesKept (op np : List Property) : Prop where
  property : ∀ p ∈ op, ∃ q ∈ np, q.name = p.name ∧ p.ty.outline = q.ty.outline ∧
    (q.required = true → p.required = true)
  newProperty : ∀ q ∈ np, (∀ p ∈ op, p.name ≠ q.name) → q.required = false

/-- What the first document promises, the last keeps, by way of those in the list. -/
structure PromisesKept (ds : List Document) (old new : Document) : Prop where
  version : irMajorVersion old.irVersion = irMajorVersion new.irVersion
  operation : ∀ id o, (operationsById old).get id = some o →
    ∃ n, (operationsById new).get id = some n ∧ OperationKept ds id o n
  schema : ∀ name ∈ old.schemas.names, name ∈ new.schemas.names
  object : ∀ name o, old.schemas.get name = some (.object o) → EnumBetween ds name ∨
    ∃ n, new.schemas.get name = some (.object n) ∧ PropertiesKept o.properties n.properties

section Kept

variable {ds : List Document} {old new d : Document}

theorem OptionalParameter.concat {id name : String} (h : OptionalParameter ds id name) :
    OptionalParameter (ds ++ [d]) id name := by
  obtain ⟨e, he, hrest⟩ := h
  exact ⟨e, List.mem_append_left _ he, hrest⟩

theorem OptionalBody.concat {id : String} (h : OptionalBody ds id) :
    OptionalBody (ds ++ [d]) id := by
  obtain ⟨e, he, hrest⟩ := h
  exact ⟨e, List.mem_append_left _ he, hrest⟩

theorem EnumBetween.concat {name : String} (h : EnumBetween ds name) :
    EnumBetween (ds ++ [d]) name := by
  obtain ⟨e, he, hrest⟩ := h
  exact ⟨e, List.mem_append_left _ he, hrest⟩

theorem PromisesKept.refl (old : Document) : PromisesKept [] old old := by
  constructor
  · rfl
  · intro id o ho
    refine ⟨o, ho, fun p hp => ⟨p, hp, rfl⟩, fun r hr => ⟨r, hr, rfl⟩, ?_, ?_⟩
    · exact fun q hq hnew => absurd rfl (hnew q hq)
    · intro b hb hnone
      rw [hb] at hnone
      cases hnone
  · exact fun name hname => hname
  · intro name o ho
    refine Or.inr ⟨o, ho, fun p hp => ⟨p, hp, rfl, rfl, id⟩, ?_⟩
    exact fun q hq hnew => absurd rfl (hnew q hq)

/-- What is in one list of names and missing in another. -/
theorem exists_name_or {α : Type} (f : α → String) (l : List α) (name : String) :
    (∃ x ∈ l, f x = name) ∨ ∀ x ∈ l, f x ≠ name := by
  by_cases h : ∃ x ∈ l, f x = name
  · exact Or.inl h
  · right
    intro x hx heq
    exact h ⟨x, hx, heq⟩

/-- A quiet step keeps an operation. -/
theorem exists_operation_of_quiet (h : Quiet new d) {id : String} {n : Operation}
    (hn : (operationsById new).get id = some n) :
    ∃ m, (operationsById d).get id = some m ∧ ∀ c, OpChanged n m c → False := by
  obtain ⟨hmem, rfl⟩ := mem_operationsById hn
  rcases exists_name_or Operation.operationId d.operations n.operationId with ⟨m, hm, heq⟩ | hgone
  · have hkey : n.operationId ∈ (operationsById d).keys := mem_keys_operationsById.mpr ⟨m, hm, heq⟩
    obtain ⟨m', hm'⟩ := IndexMap.mem_keys_iff.mp hkey
    refine ⟨m', hm', fun c hc => h _ (.operation hn hm' hc) ?_⟩
    cases hc <;> rfl
  · exact absurd rfl (h _ (.operationRemoved hmem hgone))

theorem OperationKept.step {id : String} {o n m : Operation} (h : OperationKept ds id o n)
    (hm : (operationsById d).get id = some m) (hquiet : ∀ c, OpChanged n m c → False) :
    OperationKept (ds ++ [d]) id o m := by
  constructor
  · intro p hp
    obtain ⟨q, hq, hname⟩ := h.parameter p hp
    rcases exists_name_or Parameter.name m.parameters q.name with ⟨r, hr, heq⟩ | hgone
    · exact ⟨r, hr, heq.trans hname⟩
    · exact absurd (.parameterRemoved hq hgone) (hquiet _)
  · intro r hr
    obtain ⟨s, hs, hstatus⟩ := h.response r hr
    rcases exists_name_or Response.status m.responses s.status with ⟨t, ht, heq⟩ | hgone
    · exact ⟨t, ht, heq.trans hstatus⟩
    · exact absurd (.responseRemoved hs hgone) (hquiet _)
  · intro r hr hnew
    rcases exists_name_or Parameter.name n.parameters r.name with ⟨q, hq, heq⟩ | habsent
    · -- the parameter was there before
      have hbefore := h.newParameter q hq fun p hp => heq ▸ hnew p hp
      exact (heq ▸ hbefore).concat
    · have hoptional : r.required = false := by
        by_contra hreq
        exact hquiet _ (.newRequiredParameter hr (Bool.eq_true_of_not_eq_false hreq) habsent)
      exact ⟨d, List.mem_append_right _ (List.mem_singleton_self d), m, hm, r, hr, rfl, hoptional⟩
  · intro b hb hnone
    cases hn : n.requestBody with
    | some b' => exact (h.newBody b' hn hnone).concat
    | none =>
        have hoptional : b.required = false := by
          by_contra hreq
          exact hquiet _ (.newRequiredRequestBody hb (Bool.eq_true_of_not_eq_false hreq) hn)
        exact ⟨d, List.mem_append_right _ (List.mem_singleton_self d), m, hm, b, hb, hoptional⟩

theorem severity_finding (c : PropertyChange) (path path' : String) :
    (c.finding path).severity = (c.finding path').severity := by
  obtain ⟨name, kind⟩ := c
  cases kind <;> rfl

/-- A quiet step between two models of objects. -/
theorem PropertiesKept.step {o n m : List Property} (hnd : (m.map (·.name)).Nodup)
    (h : PropertiesKept o n)
    (hquiet : ∀ c, PropertyChanged n m c → ((c.finding "").severity ≠ .breaking)) :
    PropertiesKept o m := by
  -- what the step does to a property of the model before
  have hstep : ∀ q ∈ n, ∃ r ∈ m, r.name = q.name ∧ q.ty.outline = r.ty.outline ∧
      (r.required = true → q.required = true) := by
    intro q hq
    rcases exists_name_or Property.name m q.name with ⟨r, hr, heq⟩ | hgone
    · have hfind : (m.find? fun x => x.name == q.name) = some r := by
        rw [← heq]
        exact Lib.find?_key hnd hr
      cases hty : typeChanged q.ty r.ty with
      | true => exact absurd rfl (hquiet _ (.typeChanged hq hfind hty))
      | false =>
          refine ⟨r, hr, heq, (typeChanged_eq_false_iff _ _).mp hty, fun hreq => ?_⟩
          by_contra hne
          have hchanged : q.required ≠ r.required := fun heq => hne (heq.trans hreq)
          have hinfo := hquiet _ (.requiredChanged hq hfind hty hchanged)
          rw [hreq] at hinfo
          exact hinfo rfl
    · exact absurd rfl (hquiet _ (.removed hq hgone))
  constructor
  · intro p hp
    obtain ⟨q, hq, hname, houtline, hreq⟩ := h.property p hp
    obtain ⟨r, hr, hname', houtline', hreq'⟩ := hstep q hq
    exact ⟨r, hr, hname'.trans hname, houtline.trans houtline', fun h => hreq (hreq' h)⟩
  · intro r hr hnew
    rcases exists_name_or Property.name n r.name with ⟨q, hq, heq⟩ | habsent
    · have hoptional := h.newProperty q hq fun p hp => heq ▸ hnew p hp
      obtain ⟨r', hr', hname, -, hreq⟩ := hstep q hq
      obtain rfl : r' = r := List.inj_on_of_nodup_map hnd hr' hr (hname.trans heq)
      by_contra hrequired
      rw [hreq (Bool.eq_true_of_not_eq_false hrequired)] at hoptional
      cases hoptional
    · by_contra hrequired
      exact hquiet _ (.addedRequired hr (Bool.eq_true_of_not_eq_false hrequired) habsent) rfl

/-- **A quiet step keeps the promises**, or it is one of the three exceptions. -/
theorem PromisesKept.step (h : PromisesKept ds old new) (hquiet : Quiet new d)
    (hunique : d.UniqueProperties) : PromisesKept (ds ++ [d]) old d := by
  constructor
  · rw [h.version]
    by_contra hmajor
    have hne : new.irVersion ≠ d.irVersion := fun heq => hmajor (congrArg irMajorVersion heq)
    refine hquiet _ (.irVersion hne) ?_
    show (irVersionFinding new.irVersion d.irVersion).severity = .breaking
    rw [irVersionFinding, if_pos hmajor]
  · intro id o ho
    obtain ⟨n, hn, hkept⟩ := h.operation id o ho
    obtain ⟨m, hm, hops⟩ := exists_operation_of_quiet hquiet hn
    exact ⟨m, hm, hkept.step hm hops⟩
  · intro name hname
    by_contra hgone
    exact hquiet _ (.schemaRemoved (h.schema name hname) hgone) rfl
  · intro name o ho
    rcases h.object name o ho with henum | ⟨n, hn, hkept⟩
    · exact Or.inl henum.concat
    · have hname : name ∈ d.schemas.names := by
        by_contra hgone
        exact hquiet _ (.schemaRemoved (IndexMap.mem_keys_of_get hn) hgone) rfl
      obtain ⟨model, hmodel⟩ := IndexMap.mem_keys_iff.mp hname
      cases model with
      | enum e =>
          exact Or.inl ⟨d, List.mem_append_right _ (List.mem_singleton_self d), e, hmodel⟩
      | object m =>
          refine Or.inr ⟨m, hmodel, hkept.step (hunique name m hmodel) fun c hc hbreaking => ?_⟩
          apply hquiet _ (.property hn hmodel hc)
          exact (severity_finding c _ _).trans hbreaking

/-- So does a chain of quiet steps. -/
theorem promisesKept_of_isChain {old : Document} : ∀ {ds : List Document},
    List.IsChain Quiet (old :: ds) → (∀ d ∈ ds, d.UniqueProperties) →
      PromisesKept ds old (ds.getLast?.getD old) := by
  intro ds
  induction ds using List.reverseRecOn with
  | nil => exact fun _ _ => PromisesKept.refl old
  | append_singleton ds d ih =>
      intro hchain hunique
      rw [← List.cons_append, List.isChain_append] at hchain
      obtain ⟨hbefore, -, hlast⟩ := hchain
      have hkept := ih hbefore fun e he => hunique e (List.mem_append_left _ he)
      have hquiet : Quiet (ds.getLast?.getD old) d := by
        apply hlast _ _ d rfl
        rw [List.getLast?_cons]
        exact Option.mem_some_self _
      rw [List.getLast?_concat]
      exact hkept.step hquiet (hunique d (List.mem_append_right _ (List.mem_singleton_self d)))

end Kept

/-! ## §3  What neighbours do not show -/

/-- What breaks a client of an earlier version, though no step does: one of the documents since has
what is asked for now without asking for it, or has the schema as an enum. -/
inductive Gap (ds : List Document) : Change → Prop
  | parameter {id name : String} (h : OptionalParameter ds id name) :
      Gap ds (.operation id (.newRequiredParameter name))
  | body {id : String} (h : OptionalBody ds id) : Gap ds (.operation id .newRequiredRequestBody)
  | property {name : String} {c : PropertyChange} (h : EnumBetween ds name) :
      Gap ds (.property name c)

theorem PromisesKept.gap {ds : List Document} {old new : Document} (h : PromisesKept ds old new)
    (hunique : new.UniqueProperties) {c : Change} (hc : Changed old new c) (hbreaking : c.Breaking) :
    Gap ds c := by
  cases hc with
  | irVersion hne =>
      have hseverity : (irVersionFinding old.irVersion new.irVersion).severity = .breaking := hbreaking
      rw [irVersionFinding, if_neg (not_not.mpr h.version)] at hseverity
      cases hseverity
  | @operationRemoved o ho hgone =>
      obtain ⟨o', ho'⟩ := IndexMap.mem_keys_iff.mp (mem_keys_operationsById.mpr ⟨o, ho, rfl⟩)
      obtain ⟨n, hn, -⟩ := h.operation _ o' ho'
      obtain ⟨hmem, hid⟩ := mem_operationsById hn
      exact absurd hid (hgone n hmem)
  | operationAdded => cases hbreaking
  | @operation id o n c ho hn hc =>
      obtain ⟨n', hn', hkept⟩ := h.operation id o ho
      obtain rfl : n = n' := Option.some.inj (hn.symm.trans hn')
      cases hc with
      | newRequiredParameter hp hreq hnew => exact .parameter (hkept.newParameter _ hp hnew)
      | parameterRemoved hp hgone =>
          obtain ⟨q, hq, hname⟩ := hkept.parameter _ hp
          exact absurd hname (hgone q hq)
      | newRequiredRequestBody hb hreq hnone => exact .body (hkept.newBody _ hb hnone)
      | responseRemoved hr hgone =>
          obtain ⟨s, hs, hstatus⟩ := hkept.response _ hr
          exact absurd hstatus (hgone s hs)
  | schemaRemoved ho hn => exact absurd (h.schema _ ho) hn
  | schemaAdded => cases hbreaking
  | @property name o n c ho hn hc =>
      rcases h.object name o ho with henum | ⟨n', hn', hkept⟩
      · exact .property henum
      · obtain rfl : n = n' := Model.object.inj (Option.some.inj (hn.symm.trans hn'))
        -- a property of the old model is found in the new one, and is no breaking change
        have hfound : ∀ {p q : Property}, p ∈ o.properties →
            (n.properties.find? fun x => x.name == p.name) = some q →
              p.ty.outline = q.ty.outline ∧ (q.required = true → p.required = true) := by
          intro p q hp hq
          obtain ⟨r, hr, hname, houtline, hreq⟩ := hkept.property p hp
          have hqname : q.name = p.name := by simpa using List.find?_some hq
          obtain rfl : r = q := List.inj_on_of_nodup_map (hunique name n hn) hr
            (List.mem_of_find?_eq_some hq) (hname.trans hqname.symm)
          exact ⟨houtline, hreq⟩
        exfalso
        cases hc with
        | addedRequired hp hreq hnew =>
            rw [hkept.newProperty _ hp hnew] at hreq
            cases hreq
        | added => cases hbreaking
        | removed hp hgone =>
            obtain ⟨q, hq, hname, -⟩ := hkept.property _ hp
            exact hgone q hq hname
        | typeChanged hp hq hty =>
            rw [(typeChanged_eq_false_iff _ _).mpr (hfound hp hq).1] at hty
            cases hty
        | @requiredChanged p q hp hq hty hne =>
            cases hrequired : q.required with
            | true => exact hne ((hfound hp hq).2 hrequired ▸ hrequired.symm)
            | false =>
                have hseverity : (if q.required then DiffSeverity.breaking else .info) = .breaking :=
                  hbreaking
                rw [hrequired] at hseverity
                cases hseverity

/-- **A timeline without breaking changes** breaks a client of one of its versions in no more than
three ways, whatever later version the client meets: by a parameter or a body that came in
optional and was made required later, or in the properties of a schema that was an enum in between.
-/
theorem evolution_gap {h : ℕ → DiffHashing} {read : String → Option Document}
    {commits : List (String × String)} {front ds rest : List Document} {old new : Document}
    (hdocuments : evolutionDocuments read commits = front ++ old :: (ds ++ new :: rest))
    (hquiet : ∀ v ∈ trackEvolution h read commits, v.breakingChanges = 0)
    (hunique : ∀ d ∈ evolutionDocuments read commits, d.UniqueProperties) {c : Change}
    (hc : Changed old new c) (hbreaking : c.Breaking) : Gap (ds ++ [new]) c := by
  have hchain := isChain_of_trackEvolution hquiet
  have hsplit : front ++ old :: (ds ++ new :: rest) = front ++ ((old :: (ds ++ [new])) ++ rest) := by
    simp
  rw [hdocuments, hsplit] at hchain hunique
  rw [List.isChain_append, List.isChain_append] at hchain
  have hkept := promisesKept_of_isChain hchain.2.1.1 fun d hd => hunique d
    (List.mem_append_right _ (List.mem_append_left _ (List.mem_cons_of_mem _ hd)))
  rw [List.getLast?_concat] at hkept
  apply hkept.gap _ hc hbreaking
  exact hunique new (by simp)

/-- A search without a parameter. -/
def bareOperation : Operation := { searchOperation false with parameters := [] }

def bareSearch : Document := Document.minimal SchemaRegistry.default [bareOperation]

/-- A search without a parameter, with an optional one and with a required one. -/
def searchVersions (commit : String) : Option Document :=
  [("a", bareSearch), ("b", searchDocument false), ("c", searchDocument true)].lookup commit

theorem evolution_gap_search : Gap [searchDocument false, searchDocument true]
    (.operation "search" (.newRequiredParameter "q")) := by
  have hquiet : ∀ v ∈ trackEvolution (fun _ => DiffHashing.insertion) searchVersions
      [("a", ""), ("b", ""), ("c", "")], v.breakingChanges = 0 := by
    have hcounts : (trackEvolution (fun _ => DiffHashing.insertion) searchVersions
        [("a", ""), ("b", ""), ("c", "")]).map VersionSnapshot.breakingChanges = [0, 0, 0] := rfl
    intro v hv
    have hmem := List.mem_map_of_mem (f := VersionSnapshot.breakingChanges) hv
    rw [hcounts] at hmem
    simpa using hmem
  have hunique : ∀ d ∈ evolutionDocuments searchVersions [("a", ""), ("b", ""), ("c", "")],
      d.UniqueProperties := by
    show ∀ d ∈ [bareSearch, searchDocument false, searchDocument true], d.UniqueProperties
    simp only [List.forall_mem_cons, List.not_mem_nil, false_implies, implies_true, and_true]
    exact ⟨Document.uniqueProperties_default _, Document.uniqueProperties_default _,
      Document.uniqueProperties_default _⟩
  have hop : OpChanged bareOperation (searchOperation true) (.newRequiredParameter "q") := by
    apply OpChanged.newRequiredParameter (p := ⟨"q", .query, .scalar .string, true, none⟩)
    · exact List.mem_singleton.mpr rfl
    · rfl
    · exact List.forall_mem_nil _
  have hchanged : Changed bareSearch (searchDocument true)
      (.operation "search" (.newRequiredParameter "q")) := .operation rfl rfl hop
  have hdocuments : evolutionDocuments searchVersions [("a", ""), ("b", ""), ("c", "")] =
      [] ++ bareSearch :: ([searchDocument false] ++ searchDocument true :: []) := rfl
  exact evolution_gap hdocuments hquiet hunique hchanged rfl

end SpecForge
