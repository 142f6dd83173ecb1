import SpecForge.Core.Changelog

/-!
# Operation entries against findings

The changelog finds the operation of a finding in its text: behind the tag of an
added or removed operation, or else up to the first dot of the path below
`operations.`. `Change.entryId?` is the id it finds, and one turn of the loop files
the change under it (§1). Whatever the documents, an id has at most one entry (§3),
and the entry summarises the changes filed under that id (§2). An operation with a
dot in its id is filed under the part before the dot, so its own id gets no entry
(§4).
-/

namespace SpecForge

open Lib
open Lib.Text

/-! ## §1  One turn of the loop -/

/-- The operation id the changelog reads off a change. -/
def Change.entryId? : Change → Option String
  | operationRemoved id => some id
  | operationAdded id => some id
  | operation id _ => some (beforeChar '.' id)
  | _ => none

/-- The changes that are about an operation as a whole. -/
def Change.isWholeOperation : Change → Bool
  | operationRemoved _ => true
  | operationAdded _ => true
  | _ => false

theorem stripPrefix_message {k : NamedChange} {c : Change} (h : ∀ name, c ≠ k.change name) :
    stripPrefix k.tag c.finding.message = none :=
  stripPrefix_eq_none (NamedChange.startsWith_eq_false h)

theorem pathOperationId_finding (id : String) (c : OpChange) :
    pathOperationId (c.finding ("operations." ++ id)).path = beforeChar '.' id := by
  obtain ⟨rest, hrest⟩ := c.path_finding ("operations." ++ id)
  have hpath : (c.finding ("operations." ++ id)).path = "operations." ++ (id ++ "." ++ rest) := by
    rw [hrest, String.append_assoc, String.append_assoc, String.append_assoc]
  rw [pathOperationId, hpath, stripPrefix_append, Option.getD_some, head?_split,
    Option.getD_some]
  exact beforeChar_append '.' id rest

theorem classifyFinding_breaking_iff {f : DiffFinding} :
    classifyFinding f = .breaking ↔ f.severity = .breaking := by
  unfold classifyFinding
  cases f.severity with
  | breaking => simp
  | info =>
      simp only [reduceCtorEq, iff_false]
      split <;> simp

/-- A change that is not about an operation leaves the entries alone. -/
theorem applyFinding_of_entryId?_none (doc : Document) (entries : List OperationEntry)
    {c : Change} (hid : c.entryId? = none) : applyFinding doc entries c.finding = entries := by
  have hremoved : stripPrefix "operation removed: " c.finding.message = none := by
    apply stripPrefix_message (k := .operationRemoved)
    rintro id rfl
    cases hid
  have hadded : stripPrefix "operation added: " c.finding.message = none := by
    apply stripPrefix_message (k := .operationAdded)
    rintro id rfl
    cases hid
  have hpath : startsWith "operations." c.finding.path = false := by
    cases c with
    | irVersion old new =>
        rw [Change.finding, path_irVersionFinding]
        exact Apart.startsWith_eq_false (by decide) ""
    | schemaRemoved n => exact Apart.startsWith_eq_false (by decide) n
    | schemaAdded n => exact Apart.startsWith_eq_false (by decide) n
    | property n c =>
        rw [path_property]
        exact Apart.startsWith_eq_false (by decide) _
    | operationRemoved id => cases hid
    | operationAdded id => cases hid
    | operation id c => cases hid
  rw [applyFinding, hremoved, hadded, hpath]
  rfl

/-- A whole operation gets an entry of its own. -/
theorem applyFinding_operationRemoved (doc : Document) (entries : List OperationEntry)
    (id : String) : applyFinding doc entries (Change.operationRemoved id).finding =
      entries ++ [operationEntry doc id .removed .breaking
        (Change.operationRemoved id).finding.message] := by
  have hmessage : (Change.operationRemoved id).finding.message = "operation removed: " ++ id :=
    rfl
  rw [applyFinding, hmessage, stripPrefix_append]

theorem applyFinding_operationAdded (doc : Document) (entries : List OperationEntry)
    (id : String) : applyFinding doc entries (Change.operationAdded id).finding =
      entries ++ [operationEntry doc id .added .feature
        (Change.operationAdded id).finding.message] := by
  have hmessage : (Change.operationAdded id).finding.message = "operation added: " ++ id := rfl
  have hremoved : stripPrefix "operation removed: " ("operation added: " ++ id) = none :=
    Apart.stripPrefix_eq_none (by decide) id
  rw [applyFinding, hmessage, hremoved, stripPrefix_append]

/-- The entries once the entry of an id is extended by a finding. -/
def extendEntry (entries : List OperationEntry) (id : String) (f : DiffFinding) :
    List OperationEntry :=
  modifyFirst (fun e => e.operationId == id) (fun e => e.append f) entries

/-- A change of an operation goes to the entry of the id that is read, if there is
one. -/
theorem applyFinding_operation (doc : Document) (entries : List OperationEntry)
    (id : String) (c : OpChange) :
    applyFinding doc entries (Change.operation id c).finding =
      if entries.any fun e => e.operationId == beforeChar '.' id then
        extendEntry entries (beforeChar '.' id) (Change.operation id c).finding
      else
        entries ++ [operationEntry doc (beforeChar '.' id) .modified .breaking
          (Change.operation id c).finding.message] := by
  have hremoved : stripPrefix "operation removed: " (Change.operation id c).finding.message
      = none := by
    apply stripPrefix_message (k := .operationRemoved)
    rintro name ⟨⟩
  have hadded : stripPrefix "operation added: " (Change.operation id c).finding.message
      = none := by
    apply stripPrefix_message (k := .operationAdded)
    rintro name ⟨⟩
  have hpath : startsWith "operations." (Change.operation id c).finding.path = true := by
    obtain ⟨s, hs⟩ := path_operation_change (.operation id c) rfl
    rw [hs]
    exact startsWith_append _ s
  have hread : pathOperationId (Change.operation id c).finding.path = beforeChar '.' id :=
    pathOperationId_finding id c
  have hclass : classifyFinding (Change.operation id c).finding = .breaking :=
    classifyFinding_breaking_iff.mpr (OpChange.severity_finding _ c)
  rw [applyFinding, hremoved, hadded]
  simp only [hpath, hread, hclass, if_true]
  cases entries.any fun e => e.operationId == beforeChar '.' id <;> rfl

/-! ## §2  What an entry says -/

/-- The findings of the changes filed under an id. -/
def filedUnder (cs : List Change) (id : String) : List DiffFinding :=
  (cs.filter fun c => c.entryId? == some id).map Change.finding

/-- The entry is one for the id, with the messages of these findings, their worst
severity and the endpoint that the document has for the id. -/
structure Summarises (doc : Document) (id : String) (fs : List DiffFinding)
    (e : OperationEntry) : Prop where
  operationId : e.operationId = id
  details : e.details = fs.map (·.message)
  breaking : e.impact = .breaking ↔ ∃ f ∈ fs, f.severity = .breaking
  endpoint : ∀ op ∈ doc.operations, op.operationId = id →
    e.method = op.method.upper ∧ e.path = op.path

/-- The entries of an id: none without findings, else one that summarises them. -/
inductive Logged (doc : Document) (id : String) :
    List DiffFinding → List OperationEntry → Prop
  | none : Logged doc id [] []
  | one {fs : List DiffFinding} {e : OperationEntry} (hne : fs ≠ [])
      (he : Summarises doc id fs e) : Logged doc id fs [e]

theorem Logged.eq_nil_iff {doc : Document} {id : String} {fs : List DiffFinding}
    {es : List OperationEntry} (h : Logged doc id fs es) : es = [] ↔ fs = [] := by
  cases h with
  | none => exact iff_of_true rfl rfl
  | one hne _ => exact iff_of_false (List.cons_ne_nil _ _) hne

theorem Logged.exists_one {doc : Document} {id : String} {fs : List DiffFinding}
    {es : List OperationEntry} (h : Logged doc id fs es) (hne : fs ≠ []) :
    ∃ e, es = [e] ∧ Summarises doc id fs e := by
  cases h with
  | none => exact absurd rfl hne
  | one _ he => exact ⟨_, rfl, he⟩

/-- A new entry summarises the finding it was pushed for. -/
theorem summarises_operationEntry {doc : Document} (hdoc : doc.UniqueIds) (id : String)
    (changeType : ChangeType) {impact : ChangeImpact} {f : DiffFinding}
    (himpact : impact = .breaking ↔ f.severity = .breaking) :
    Summarises doc id [f] (operationEntry doc id changeType impact f.message) := by
  have hbreaking : impact = .breaking ↔ ∃ g ∈ [f], g.severity = .breaking := by
    rw [himpact]
    simp
  unfold operationEntry
  cases hfind : doc.operations.find? fun o => o.operationId == id with
  | some op =>
      refine ⟨rfl, rfl, hbreaking, fun op' hop' hid => ?_⟩
      rw [← hid, find?_key hdoc hop'] at hfind
      rw [Option.some.inj hfind]
      exact ⟨rfl, rfl⟩
  | none =>
      refine ⟨rfl, rfl, hbreaking, fun op' hop' hid => ?_⟩
      rw [← hid, find?_key hdoc hop'] at hfind
      cases hfind

/-- One more finding is appended to the summary. -/
theorem Summarises.append {doc : Document} {id : String} {fs : List DiffFinding}
    {e : OperationEntry} (he : Summarises doc id fs e) (f : DiffFinding) :
    Summarises doc id (fs ++ [f]) (e.append f) where
  operationId := he.operationId
  details := by
    show e.details ++ [f.message] = _
    rw [he.details, List.map_append, List.map_singleton]
  breaking := by
    show (if classifyFinding f = .breaking then ChangeImpact.breaking else e.impact)
      = .breaking ↔ _
    by_cases hf : classifyFinding f = .breaking
    · rw [if_pos hf]
      refine ⟨fun _ => ⟨f, by simp, classifyFinding_breaking_iff.mp hf⟩, fun _ => rfl⟩
    · rw [if_neg hf, he.breaking]
      rw [classifyFinding_breaking_iff] at hf
      constructor
      · rintro ⟨g, hg, hsev⟩
        exact ⟨g, List.mem_append_left _ hg, hsev⟩
      · rintro ⟨g, hg, hsev⟩
        rcases List.mem_append.mp hg with hg | hg
        · exact ⟨g, hg, hsev⟩
        · rw [List.mem_singleton.mp hg] at hsev
          exact absurd hsev hf
  endpoint := he.endpoint

/-! ## §3  The loop -/

/-- When an operation is added or removed, nothing was filed under its id before. -/
def FreshWholes (cs : List Change) : Prop :=
  cs.Pairwise fun c c' => c'.isWholeOperation = true → c.entryId? ≠ c'.entryId?

theorem filedUnder_append_self {cs : List Change} {c : Change} {id : String}
    (hid : c.entryId? = some id) :
    filedUnder (cs ++ [c]) id = filedUnder cs id ++ [c.finding] := by
  simp [filedUnder, List.filter_append, hid]

theorem filedUnder_append_ne {cs : List Change} {c : Change} {id : String}
    (hid : c.entryId? ≠ some id) : filedUnder (cs ++ [c]) id = filedUnder cs id := by
  simp [filedUnder, List.filter_append, hid]

theorem filedUnder_eq_nil_of_fresh {cs : List Change} {c : Change} {id : String}
    (hid : c.entryId? = some id) (hfresh : ∀ b ∈ cs, b.entryId? ≠ c.entryId?) :
    filedUnder cs id = [] := by
  unfold filedUnder
  rw [List.map_eq_nil_iff, List.filter_eq_nil_iff]
  intro b hb heq
  exact hfresh b hb ((beq_iff_eq.mp heq).trans hid.symm)

/-- The entries that carry an id. -/
def entriesFor (entries : List OperationEntry) (id : String) : List OperationEntry :=
  entries.filter fun e => e.operationId == id

theorem entriesFor_append_self {entries : List OperationEntry} {e : OperationEntry}
    {id : String} (he : e.operationId = id) :
    entriesFor (entries ++ [e]) id = entriesFor entries id ++ [e] := by
  simp [entriesFor, List.filter_append, he]

theorem entriesFor_append_ne {entries : List OperationEntry} {e : OperationEntry}
    {id : String} (he : e.operationId ≠ id) :
    entriesFor (entries ++ [e]) id = entriesFor entries id := by
  simp [entriesFor, List.filter_append, he]

theorem OperationEntry.append_carries (e : OperationEntry) (f : DiffFinding) (id : String) :
    ((e.append f).operationId == id) = (e.operationId == id) := rfl

theorem entriesFor_extendEntry_self (entries : List OperationEntry) (id : String)
    (f : DiffFinding) : entriesFor (extendEntry entries id f) id =
      (entriesFor entries id).modifyHead fun e => e.append f :=
  filter_modifyFirst (fun e => e.append_carries f id) entries

theorem entriesFor_extendEntry_ne (entries : List OperationEntry) {id id' : String}
    (f : DiffFinding) (hne : id ≠ id') :
    entriesFor (extendEntry entries id f) id' = entriesFor entries id' := by
  refine filter_modifyFirst_of_disjoint (fun e => e.append_carries f id) (fun e he => ?_) entries
  rw [beq_iff_eq.mp he]
  exact beq_false_of_ne hne

theorem Logged.extend {doc : Document} {id : String} {fs : List DiffFinding}
    {es : List OperationEntry} (h : Logged doc id fs es) (hne : es ≠ []) (f : DiffFinding) :
    Logged doc id (fs ++ [f]) (es.modifyHead fun e => e.append f) := by
  cases h with
  | none => exact absurd rfl hne
  | one _ he => exact .one (by simp) (he.append f)

/-- A pushed entry, seen from each id. -/
theorem logged_push {doc : Document} {cs : List Change} {c : Change}
    {entries : List OperationEntry} {e : OperationEntry} {i : String}
    (hrun : ∀ id, Logged doc id (filedUnder cs id) (entriesFor entries id))
    (hi : c.entryId? = some i) (hempty : filedUnder cs i = [])
    (he : Summarises doc i [c.finding] e) (id : String) :
    Logged doc id (filedUnder (cs ++ [c]) id) (entriesFor (entries ++ [e]) id) := by
  by_cases heq : i = id
  · subst heq
    have hnil : entriesFor entries i = [] := (hrun i).eq_nil_iff.mpr hempty
    rw [filedUnder_append_self hi, entriesFor_append_self he.operationId, hempty, hnil]
    exact .one (List.cons_ne_nil _ _) he
  · have hne : c.entryId? ≠ some id := by
      rw [hi]
      exact fun h => heq (Option.some.inj h)
    have hother : e.operationId ≠ id := he.operationId ▸ heq
    rw [filedUnder_append_ne hne, entriesFor_append_ne hother]
    exact hrun id

/-- An extended entry, seen from each id. -/
theorem logged_extend {doc : Document} {cs : List Change} {c : Change}
    {entries : List OperationEntry} {i : String}
    (hrun : ∀ id, Logged doc id (filedUnder cs id) (entriesFor entries id))
    (hi : c.entryId? = some i) (hsome : entriesFor entries i ≠ []) (id : String) :
    Logged doc id (filedUnder (cs ++ [c]) id)
      (entriesFor (extendEntry entries i c.finding) id) := by
  by_cases heq : i = id
  · subst heq
    rw [filedUnder_append_self hi, entriesFor_extendEntry_self]
    exact (hrun i).extend hsome c.finding
  · have hne : c.entryId? ≠ some id := by
      rw [hi]
      exact fun h => heq (Option.some.inj h)
    rw [filedUnder_append_ne hne, entriesFor_extendEntry_ne entries c.finding heq]
    exact hrun id

/-- One turn keeps every id logged. -/
theorem logged_applyFinding {doc : Document} (hdoc : doc.UniqueIds) {cs : List Change}
    {c : Change} {entries : List OperationEntry}
    (hrun : ∀ id, Logged doc id (filedUnder cs id) (entriesFor entries id))
    (hfresh : c.isWholeOperation = true → ∀ b ∈ cs, b.entryId? ≠ c.entryId?) (id : String) :
    Logged doc id (filedUnder (cs ++ [c]) id)
      (entriesFor (applyFinding doc entries c.finding) id) := by
  have hnone : c.entryId? = none → Logged doc id (filedUnder (cs ++ [c]) id)
      (entriesFor (applyFinding doc entries c.finding) id) := by
    intro hc
    have hne : c.entryId? ≠ some id := by
      rw [hc]
      exact fun h => nomatch h
    rw [applyFinding_of_entryId?_none doc entries hc, filedUnder_append_ne hne]
    exact hrun id
  cases c with
  | operationRemoved i =>
      have hempty : filedUnder cs i = [] := filedUnder_eq_nil_of_fresh rfl (hfresh rfl)
      have himpact : ChangeImpact.breaking = .breaking ↔
          (Change.operationRemoved i).finding.severity = .breaking := iff_of_true rfl rfl
      rw [applyFinding_operationRemoved]
      exact logged_push hrun rfl hempty (summarises_operationEntry hdoc i _ himpact) id
  | operationAdded i =>
      have hempty : filedUnder cs i = [] := filedUnder_eq_nil_of_fresh rfl (hfresh rfl)
      have himpact : ChangeImpact.feature = .breaking ↔
          (Change.operationAdded i).finding.severity = .breaking :=
        iff_of_false (fun h => nomatch h) (fun h => nomatch h)
      rw [applyFinding_operationAdded]
      exact logged_push hrun rfl hempty (summarises_operationEntry hdoc i _ himpact) id
  | operation i c =>
      have himpact : ChangeImpact.breaking = .breaking ↔
          (Change.operation i c).finding.severity = .breaking :=
        iff_of_true rfl (OpChange.severity_finding _ c)
      rw [applyFinding_operation]
      -- the entry may be that of another operation whose id starts like `i`
      split
      · next hany =>
          refine logged_extend hrun rfl ?_ id
          obtain ⟨e, he, hid⟩ := List.any_eq_true.mp hany
          exact List.ne_nil_of_mem (List.mem_filter.mpr ⟨he, hid⟩)
      · next hany =>
          have hnil : entriesFor entries (beforeChar '.' i) = [] := by
            rw [entriesFor, List.filter_eq_nil_iff]
            exact fun e he hid => hany (List.any_eq_true.mpr ⟨e, he, hid⟩)
          exact logged_push hrun rfl ((hrun _).eq_nil_iff.mp hnil)
            (summarises_operationEntry hdoc _ _ himpact) id
  | irVersion old new => exact hnone rfl
  | schemaRemoved n => exact hnone rfl
  | schemaAdded n => exact hnone rfl
  | property n c => exact hnone rfl

/-- The whole loop, over any changes of which the whole operations come first. -/
theorem logged_foldl {doc : Document} (hdoc : doc.UniqueIds) (cs : List Change)
    (hfresh : FreshWholes cs) (id : String) :
    Logged doc id (filedUnder cs id)
      (entriesFor (buildOperationEntriesFromFindings (cs.map Change.finding) doc) id) := by
  unfold buildOperationEntriesFromFindings
  induction cs using List.reverseRecOn generalizing id with
  | nil => exact .none
  | append_singleton cs c ih =>
      obtain ⟨hcs, -, hlast⟩ := List.pairwise_append.mp hfresh
      rw [List.map_append, List.foldl_append]
      refine logged_applyFinding hdoc (ih hcs) (fun hwhole b hb => ?_) id
      exact hlast b hb c (List.mem_singleton.mpr rfl) hwhole

theorem freshWholes_append {as bs : List Change} (ha : FreshWholes as)
    (hb : FreshWholes bs)
    (hab : ∀ a ∈ as, ∀ b ∈ bs, b.isWholeOperation = true → a.entryId? ≠ b.entryId?) :
    FreshWholes (as ++ bs) :=
  List.pairwise_append.mpr ⟨ha, hb, hab⟩

theorem freshWholes_append_of_not_whole {as bs : List Change} (ha : FreshWholes as)
    (hbs : ∀ b ∈ bs, b.isWholeOperation = false) : FreshWholes (as ++ bs) := by
  have hnot : ∀ b ∈ bs, ¬b.isWholeOperation = true :=
    fun b hb => Bool.eq_false_iff.mp (hbs b hb)
  apply freshWholes_append ha
  · exact List.pairwise_of_forall_mem_list fun _ _ b hb hwhole => absurd hwhole (hnot b hb)
  · exact fun _ _ b hb hwhole => absurd hwhole (hnot b hb)

theorem freshWholes_map {f : String → Change} (hf : ∀ id, (f id).entryId? = some id)
    {ids : List String} (hids : ids.Nodup) : FreshWholes (ids.map f) := by
  refine List.pairwise_map.mpr (hids.imp fun hne _ heq => hne ?_)
  rw [hf, hf] at heq
  exact Option.some.inj heq

/-- Removed ids, added ids and the ids that both documents have do not mix. -/
theorem freshWholes_operationChanges (h : DiffHashing) (old new : Document) :
    FreshWholes (operationChanges h old new) := by
  have hold := h.oldOps.nodup_visit (operationsById old).nodup_keys
  have hnew := h.newOps.nodup_visit (operationsById new).nodup_keys
  unfold operationChanges
  apply freshWholes_append_of_not_whole
  · apply freshWholes_append
    · exact freshWholes_map (fun _ => rfl) (hold.filter _)
    · exact freshWholes_map (fun _ => rfl) (hnew.filter _)
    · intro a ha b hb _ heq
      obtain ⟨i, hi, rfl⟩ := List.mem_map.mp ha
      obtain ⟨j, hj, rfl⟩ := List.mem_map.mp hb
      have hij : i = j := Option.some.inj heq
      have hmem : i ∈ (operationsById old).keys :=
        (HashOrder.mem_visit _).mp (List.mem_filter.mp hi).1
      have hnot : (!(operationsById old).containsKey j) = true := (List.mem_filter.mp hj).2
      rw [← hij, IndexMap.containsKey_iff.mpr hmem] at hnot
      cases hnot
  · intro c hc
    obtain ⟨id, -, hc⟩ := List.mem_flatMap.mp hc
    split at hc
    · obtain ⟨oc, -, rfl⟩ := List.mem_map.mp hc
      rfl
    · exact absurd hc List.not_mem_nil

theorem freshWholes_changes (h : DiffHashing) (old new : Document) :
    FreshWholes (changes h old new) := by
  unfold changes
  apply freshWholes_append_of_not_whole
  · apply freshWholes_append _ (freshWholes_operationChanges h old new)
    · intro a ha b _ hwhole heq
      split at ha
      · rw [List.mem_singleton.mp ha] at heq
        cases b with
        | operationRemoved id => cases heq
        | operationAdded id => cases heq
        | _ => cases hwhole
      · exact absurd ha List.not_mem_nil
    · split
      · exact List.pairwise_singleton _ _
      · exact List.Pairwise.nil
  · intro c hc
    unfold schemaChanges at hc
    simp only [List.mem_append, List.mem_map, List.mem_flatMap] at hc
    rcases hc with (⟨n, -, rfl⟩ | ⟨n, -, rfl⟩) | ⟨n, -, pc, -, rfl⟩
    · rfl
    · rfl
    · rfl

/-- **What the changelog says about an id** is the findings filed under it, whatever
the documents and the hashers. -/
theorem logged_diff {new : Document} (hnew : new.UniqueIds) (h : DiffHashing)
    (old : Document) (id : String) :
    Logged new id (filedUnder (changes h old new) id)
      (entriesFor (buildOperationEntriesFromFindings (diff h old new) new) id) := by
  rw [diff_eq_changes]
  exact logged_foldl hnew _ (freshWholes_changes h old new) id

/-! ## §4  Faithful entries -/

/-- The findings of the changes of an operation. -/
def operationFindings (h : DiffHashing) (old new : Document) (id : String) :
    List DiffFinding :=
  ((changes h old new).filter fun c => c.operationId? == some id).map Change.finding

/-- Each operation with a finding has one entry, and it summarises the operation's
findings. -/
def FaithfulEntries (h : DiffHashing) (old new : Document) : Prop :=
  ∀ id, operationFindings h old new id ≠ [] →
    ∃ e, entriesFor (buildOperationEntriesFromFindings (diff h old new) new) id = [e] ∧
      Summarises new id (operationFindings h old new id) e

/-- No operation that both documents have, with changes, has a dot in its id. -/
def DotlessChanges (old new : Document) : Prop :=
  ∀ o ∈ old.operations, ∀ n ∈ new.operations, o.operationId = n.operationId →
    (∃ c, OpChanged o n c) → '.' ∉ o.operationId.toList

theorem entryId?_eq_operationId? {h : DiffHashing} {old new : Document}
    (hdotless : DotlessChanges old new) {c : Change} (hc : c ∈ changes h old new) :
    c.entryId? = c.operationId? := by
  cases mem_changes.mp hc with
  | @operation id o n c ho hn hchanged =>
      obtain ⟨hmemo, rfl⟩ := mem_operationsById ho
      obtain ⟨hmemn, hid⟩ := mem_operationsById hn
      have hdot : '.' ∉ o.operationId.toList := hdotless o hmemo n hmemn hid.symm ⟨c, hchanged⟩
      show some (beforeChar '.' o.operationId) = some o.operationId
      rw [beforeChar_eq_self hdot]
  | irVersion _ => rfl
  | operationRemoved _ _ => rfl
  | operationAdded _ _ => rfl
  | schemaRemoved _ _ => rfl
  | schemaAdded _ _ => rfl
  | property _ _ _ => rfl

/-- An operation that both documents have is filed under its id only if that has no
dot. -/
theorem not_mem_dot_of_filed {h : DiffHashing} {old new : Document} {o n : Operation}
    (ho : o ∈ old.operations) (hn : n ∈ new.operations)
    (hid : o.operationId = n.operationId)
    (hfiled : filedUnder (changes h old new) o.operationId ≠ []) :
    '.' ∉ o.operationId.toList := by
  obtain ⟨f, hf⟩ := List.exists_mem_of_ne_nil _ hfiled
  obtain ⟨c, hc, -⟩ := List.mem_map.mp hf
  obtain ⟨hc, hentry⟩ := List.mem_filter.mp hc
  have hentry : c.entryId? = some o.operationId := beq_iff_eq.mp hentry
  cases mem_changes.mp hc with
  | operationRemoved ho' hgone =>
      exact absurd (Option.some.inj hentry).symm (hid ▸ hgone n hn)
  | operationAdded hn' hnew => exact absurd (Option.some.inj hentry).symm (hnew o ho)
  | @operation i o' n' c _ _ _ =>
      rw [← Option.some.inj hentry]
      exact not_mem_beforeChar '.' i
  | irVersion _ => cases hentry
  | schemaRemoved _ _ => cases hentry
  | schemaAdded _ _ => cases hentry
  | property _ _ _ => cases hentry

/-- **When the changelog is faithful**: no operation that is compared and has changed
carries a dot in its id. -/
theorem faithfulEntries_iff {old new : Document} (hold : old.UniqueIds)
    (hnew : new.UniqueIds) (h : DiffHashing) :
    FaithfulEntries h old new ↔ DotlessChanges old new := by
  constructor
  · rintro hfaithful o ho n hn hid ⟨c, hc⟩
    have hchange : Change.operation o.operationId c ∈ changes h old new :=
      mem_changes.mpr (.operation (get_operationsById hold ho)
        (hid ▸ get_operationsById hnew hn) hc)
    have hfinding : (Change.operation o.operationId c).finding ∈
        operationFindings h old new o.operationId :=
      List.mem_map.mpr ⟨_, List.mem_filter.mpr ⟨hchange, beq_self_eq_true _⟩, rfl⟩
    obtain ⟨e, he, -⟩ := hfaithful o.operationId (List.ne_nil_of_mem hfinding)
    apply not_mem_dot_of_filed (h := h) ho hn hid
    intro hnil
    have hnone := (logged_diff hnew h old o.operationId).eq_nil_iff.mpr hnil
    rw [he] at hnone
    cases hnone
  · intro hdotless id hne
    have hfiled : filedUnder (changes h old new) id = operationFindings h old new id := by
      unfold filedUnder operationFindings
      congr 1
      refine List.filter_congr fun c hc => ?_
      rw [entryId?_eq_operationId? hdotless hc]
    have hlogged := logged_diff hnew h old id
    rw [hfiled] at hlogged
    exact hlogged.exists_one hne

/-- One operation with this id and these parameters. -/
def petsDocument (id : String) (parameters : List Parameter) : Document :=
  Document.minimal SchemaRegistry.default
    [{ operationId := id
       method := .get
       path := "/pets"
       tag := none
       summary := none
       description := none
       parameters := parameters
       requestBody := none
       responses := []
       retryPolicy := none }]

theorem petsDocument_uniqueIds (id : String) (parameters : List Parameter) :
    (petsDocument id parameters).UniqueIds :=
  List.nodup_singleton _

theorem faithfulEntries_iff_listPets :
    FaithfulEntries DiffHashing.insertion
      (petsDocument "listPets" [⟨"limit", .query, .scalar .integer, false, none⟩])
      (petsDocument "listPets" []) := by
  refine (faithfulEntries_iff (petsDocument_uniqueIds _ _) (petsDocument_uniqueIds _ _)
    DiffHashing.insertion).mpr fun o ho n _ _ _ => ?_
  rw [List.mem_singleton.mp ho]
  decide

/-- The entry for the parameter removed from `pets.list` carries the id `pets`. -/
theorem dotted_operation_without_entry :
    ¬∀ (h : DiffHashing) (old new : Document), old.UniqueIds → new.UniqueIds →
      FaithfulEntries h old new := by
  intro hclaim
  obtain ⟨e, he, -⟩ := hclaim DiffHashing.insertion
    (petsDocument "pets.list" [⟨"limit", .query, .scalar .integer, false, none⟩])
    (petsDocument "pets.list" []) (petsDocument_uniqueIds _ _) (petsDocument_uniqueIds _ _)
    "pets.list" (by decide)
  have hnone : entriesFor (buildOperationEntriesFromFindings (diff DiffHashing.insertion
      (petsDocument "pets.list" [⟨"limit", .query, .scalar .integer, false, none⟩])
      (petsDocument "pets.list" [])) (petsDocument "pets.list" [])) "pets.list" = [] := by
    decide
  rw [hnone] at he
  cases he

end SpecForge
