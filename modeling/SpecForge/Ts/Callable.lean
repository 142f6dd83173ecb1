import SpecForge.Ts.Generate

/-!
# Operations of the generated client

Which operations can be called on the object that `createClient` returns. The files of the
package are written in an order nobody controls, and of files with one path the last stays
(§1). The API files are made for groups of operations, the barrels for the tags that are
written on some operation (§2), and these agree exactly when no group is the default one
only because it has no tag (§3).
-/

namespace SpecForge.Ts

open Lib

/-! ## §1  The written package -/

/-- What is in a file when all are written. -/
def written (order : List (String × Content)) (path : String) : Option Content :=
  order.reverse.lookup path

/-- The file of a module that a file of the directory names. -/
def moduleFile (dir module : String) : String :=
  dir ++ "/" ++ (Text.stripPrefix "./" module).getD module ++ ".ts"

/-- The class has one method of the operation's name, and it is the operation's. -/
def IsMethodOf (f : TagFile) (op : Operation) : Prop :=
  (f.methods.filter fun m => m.name == camel op.operationId) = [emitMethod op]

/-- A property of the object that `createClient` returns is made of the class in the file. -/
def IsProperty (order : List (String × Content)) (path className : String) : Prop :=
  ∃ index key module, written order "src/index.ts" = some (.index index) ∧
    index.properties.reverse.lookup key = some className ∧
    index.imports.lookup className = some module ∧ moduleFile "src" module = path

def Reexported (order : List (String × Content)) (path : String) : Prop :=
  ∃ modules, written order "src/api/index.ts" = some (.apiIndex modules) ∧
    ∃ module ∈ modules, moduleFile "src/api" module = path

/-- The operation is a method of exactly one class, which the client has a property for and
the barrel exports. -/
def Callable (order : List (String × Content)) (op : Operation) : Prop :=
  ∃ path f, written order path = some (.api f) ∧ IsMethodOf f op ∧
    (∀ path' f', written order path' = some (.api f') →
      (∃ m ∈ f'.methods, m.name = camel op.operationId) → path' = path) ∧
    IsProperty order path f.className ∧ Reexported order path

section Written

variable {doc : Document} {hasI18n : Bool} {order : List (String × Content)}

theorem mem_of_written (horder : order.Perm (generate doc hasI18n)) {path : String} {c : Content}
    (h : written order path = some c) : (path, c) ∈ generate doc hasI18n :=
  horder.mem_iff.mp (List.mem_reverse.mp (mem_of_lookup_eq_some h))

/-- A path that only one content is written to. -/
theorem written_of_unique (horder : order.Perm (generate doc hasI18n)) {path : String}
    {c : Content} (hmem : (path, c) ∈ generate doc hasI18n)
    (hunique : ∀ c', (path, c') ∈ generate doc hasI18n → c' = c) :
    written order path = some c := by
  rcases hlookup : written order path with _ | c'
  · rw [written, lookup_eq_none_iff] at hlookup
    refine absurd (List.mem_map.mpr ⟨(path, c), ?_, rfl⟩) hlookup
    exact List.mem_reverse.mpr (horder.mem_iff.mpr hmem)
  · rw [hunique c' (mem_of_written horder hlookup)]

/-- The paths of the texts that nothing is collected from. -/
def textPaths (hasWebhooks hasI18n : Bool) : List String :=
  (fixedPaths hasWebhooks hasI18n).filter fun p =>
    p != "src/validate.ts" && p != "src/index.ts" && p != "src/api/index.ts"

/-- What each file of the package is. -/
theorem mem_generate {path : String} {c : Content} (h : (path, c) ∈ generate doc hasI18n) :
    (c = .text ∧ path ∈ textPaths true true) ∨
    (c = .validators (validateSource doc) ∧ path = "src/validate.ts") ∨
    (∃ x ∈ doc.schemas.models.entries, path = modelPath x.2 ∧
      c = .model (emitModelFileWithRegistry x.2 (some doc.schemas))) ∨
    (∃ f ∈ collectOperations doc, path = f.1 ∧ c = .api f.2) ∨
    (c = .index (collectIndex doc hasI18n) ∧ path = "src/index.ts") ∨
    (c = .apiIndex (collectApiIndex doc) ∧ path = "src/api/index.ts") := by
  have htexts : ∀ paths : List String, (∀ p ∈ paths, p ∈ textPaths true true) →
      (path, c) ∈ paths.map (fun p => (p, Content.text)) →
      c = .text ∧ path ∈ textPaths true true := by
    intro paths hpaths hmem
    obtain ⟨p, hp, heq⟩ := List.mem_map.mp hmem
    obtain ⟨rfl, rfl⟩ := Prod.mk.inj heq
    exact ⟨rfl, hpaths p hp⟩
  simp only [generate, List.mem_append] at h
  rcases h with (((((h | h) | h) | h) | h) | h) | h
  · exact Or.inl (htexts _ (by decide) h)
  · simp only [collectRuntime, List.mem_append] at h
    rcases h with (h | h) | h
    · exact Or.inl (htexts _ (by decide) h)
    · obtain ⟨rfl, rfl⟩ := Prod.mk.inj (List.mem_singleton.mp h)
      exact Or.inr (Or.inl ⟨rfl, rfl⟩)
    · exact Or.inl (htexts _ (by decide) h)
  · obtain ⟨x, hx, heq⟩ := List.mem_map.mp h
    obtain ⟨rfl, rfl⟩ := Prod.mk.inj heq
    exact Or.inr (Or.inr (Or.inl ⟨x, hx, rfl, rfl⟩))
  · obtain ⟨f, hf, heq⟩ := List.mem_map.mp h
    obtain ⟨rfl, rfl⟩ := Prod.mk.inj heq
    exact Or.inr (Or.inr (Or.inr (Or.inl ⟨f, hf, rfl, rfl⟩)))
  · split at h
    · exact absurd h List.not_mem_nil
    · exact Or.inl (htexts ["src/webhooks.ts"] (by decide) h)
  · split at h
    · exact Or.inl (htexts ["src/i18n.ts"] (by decide) h)
    · exact absurd h List.not_mem_nil
  · rcases List.mem_cons.mp h with heq | h
    · obtain ⟨rfl, rfl⟩ := Prod.mk.inj heq
      exact Or.inr (Or.inr (Or.inr (Or.inr (Or.inl ⟨rfl, rfl⟩))))
    · rcases List.mem_cons.mp h with heq | h
      · obtain ⟨rfl, rfl⟩ := Prod.mk.inj heq
        exact Or.inr (Or.inr (Or.inr (Or.inr (Or.inr ⟨rfl, rfl⟩))))
      · exact Or.inl (htexts ["specforge-version.json"] (by decide) h)

theorem startsWith_apiPath (stem : String) : Text.startsWith "src/api/" (apiPath stem) = true := by
  rw [apiPath, String.append_assoc, Text.startsWith_append]

theorem startsWith_modelPath (m : Model) : Text.startsWith "src/api/" (modelPath m) = false := by
  rw [modelPath, String.append_assoc]
  exact Text.Apart.startsWith_eq_false (by decide) _

theorem textPath_spec {path : String} (h : path ∈ textPaths true true) :
    Text.startsWith "src/api/" path = false ∧ path ≠ "src/index.ts" := by
  have hall : ∀ p ∈ textPaths true true, Text.startsWith "src/api/" p = false ∧
      p ≠ "src/index.ts" := by decide
  exact hall path h

/-- Only API files are written to the paths of API files. -/
theorem api_of_mem_generate {tag : String} {c : Content}
    (h : (apiPath (pascal tag), c) ∈ generate doc hasI18n) :
    ∃ f ∈ collectOperations doc, apiPath (pascal tag) = f.1 ∧ c = .api f.2 := by
  have hstart := startsWith_apiPath (pascal tag)
  rcases mem_generate h with ⟨-, hp⟩ | ⟨-, hp⟩ | ⟨x, -, hp, -⟩ | hf | ⟨-, hp⟩ | ⟨-, hp⟩
  · rw [(textPath_spec hp).1] at hstart
    cases hstart
  · rw [hp] at hstart
    exact absurd hstart (by decide)
  · rw [hp, startsWith_modelPath] at hstart
    cases hstart
  · exact hf
  · rw [hp] at hstart
    exact absurd hstart (by decide)
  · exact absurd (apiPath_eq_iff.mp (hp.trans (show _ = apiPath "index" from rfl)))
      (pascal_ne_index tag)

theorem written_index (horder : order.Perm (generate doc hasI18n)) :
    written order "src/index.ts" = some (.index (collectIndex doc hasI18n)) := by
  refine written_of_unique horder (List.mem_append_right _ List.mem_cons_self) ?_
  intro c hc
  rcases mem_generate hc with ⟨-, hp⟩ | ⟨-, hp⟩ | ⟨x, -, hp, -⟩ | ⟨f, hf, hp, -⟩ | ⟨hc, -⟩ | ⟨-, hp⟩
  · exact absurd rfl (textPath_spec hp).2
  · exact absurd hp (by decide)
  · have hmodel : Text.startsWith "src/models/" (modelPath x.2) = true := by
      rw [modelPath, String.append_assoc, Text.startsWith_append]
    rw [← hp] at hmodel
    exact absurd hmodel (by decide)
  · obtain ⟨tag, -, rfl⟩ := mem_collectOperations.mp hf
    have hstart := startsWith_apiPath (pascal tag)
    rw [← show "src/index.ts" = apiPath (pascal tag) from hp] at hstart
    exact absurd hstart (by decide)
  · exact hc
  · exact absurd hp (by decide)

theorem written_apiIndex (horder : order.Perm (generate doc hasI18n)) :
    written order "src/api/index.ts" = some (.apiIndex (collectApiIndex doc)) := by
  refine written_of_unique horder
    (List.mem_append_right _ (List.mem_cons_of_mem _ List.mem_cons_self)) ?_
  intro c hc
  rcases mem_generate hc with ⟨-, hp⟩ | ⟨-, hp⟩ | ⟨x, -, hp, -⟩ | ⟨f, hf, hp, -⟩ | ⟨-, hp⟩ | ⟨hc, -⟩
  · exact absurd (textPath_spec hp).1 (by decide)
  · exact absurd hp (by decide)
  · have hmodel := startsWith_modelPath x.2
    rw [← hp] at hmodel
    exact absurd hmodel (by decide)
  · obtain ⟨tag, -, rfl⟩ := mem_collectOperations.mp hf
    have hpath : apiPath "index" = apiPath (pascal tag) := hp
    exact absurd (apiPath_eq_iff.mp hpath).symm (pascal_ne_index tag)
  · exact absurd hp (by decide)
  · exact hc

end Written

/-! ## §2  Groups and tags -/

section Groups

variable {doc : Document} {hasI18n : Bool} {order : List (String × Content)}

/-- The operations of a group. -/
def groupOf (doc : Document) (tag : String) : List Operation :=
  doc.operations.filter fun op => groupTag op = tag

theorem mem_presentTags {tag : String} :
    tag ∈ presentTags doc ↔ ∃ op ∈ doc.operations, ∃ t, op.tag = some t ∧ pascal t = tag := by
  rw [presentTags, BTreeMap.mem_sortedSet, List.mem_map]
  constructor
  · rintro ⟨t, ht, rfl⟩
    obtain ⟨op, hop, hopt⟩ := List.mem_filterMap.mp ht
    exact ⟨op, hop, t, hopt, rfl⟩
  · rintro ⟨op, hop, t, hopt, rfl⟩
    exact ⟨t, List.mem_filterMap.mpr ⟨op, hop, hopt⟩, rfl⟩

/-- An API file that stays is that of a group. -/
theorem group_of_written (horder : order.Perm (generate doc hasI18n)) {path : String} {f : TagFile}
    (h : written order path = some (.api f)) :
    ∃ tag, (∃ op ∈ doc.operations, groupTag op = tag) ∧ path = apiPath (pascal tag) ∧
      f = emitTagFile tag (groupOf doc tag) := by
  rcases mem_generate (mem_of_written horder h) with
    ⟨hc, -⟩ | ⟨hc, -⟩ | ⟨x, -, -, hc⟩ | ⟨g, hg, hp, hc⟩ | ⟨hc, -⟩ | ⟨hc, -⟩
  · cases hc
  · cases hc
  · cases hc
  · obtain ⟨tag, hop, rfl⟩ := mem_collectOperations.mp hg
    obtain rfl := Content.api.inj hc
    exact ⟨tag, hop, hp, rfl⟩
  · cases hc
  · cases hc

/-- The file of a group stays if no other group has its path. -/
theorem written_group (horder : order.Perm (generate doc hasI18n)) {op : Operation}
    (hop : op ∈ doc.operations)
    (hunique : ∀ op' ∈ doc.operations, pascal (groupTag op') = pascal (groupTag op) →
      groupTag op' = groupTag op) :
    written order (apiPath (pascal (groupTag op))) =
      some (.api (emitTagFile (groupTag op) (groupOf doc (groupTag op)))) := by
  have hfile := mem_collectOperations.mpr ⟨groupTag op, ⟨op, hop, rfl⟩, rfl⟩
  refine written_of_unique horder ?_ ?_
  · simp only [generate, List.mem_append]
    exact Or.inl (Or.inl (Or.inl (Or.inr (List.mem_map.mpr ⟨_, hfile, rfl⟩))))
  · intro c hc
    obtain ⟨g, hg, hp, rfl⟩ := api_of_mem_generate hc
    obtain ⟨tag, ⟨op', hop', rfl⟩, rfl⟩ := mem_collectOperations.mp hg
    rw [hunique op' hop' (apiPath_eq_iff.mp hp).symm]
    rfl

/-- A method by the name of an operation is the operation's. -/
theorem eq_of_method (hids : (doc.operations.map fun op => camel op.operationId).Nodup)
    {op op' : Operation} (hop : op ∈ doc.operations) (hop' : op' ∈ doc.operations)
    (h : (emitMethod op').name = camel op.operationId) : op' = op :=
  List.inj_on_of_nodup_map hids hop' hop h

theorem isMethodOf_group (hids : (doc.operations.map fun op => camel op.operationId).Nodup)
    {op : Operation} (hop : op ∈ doc.operations) :
    IsMethodOf (emitTagFile (groupTag op) (groupOf doc (groupTag op))) op := by
  have hmem : op ∈ groupOf doc (groupTag op) := List.mem_filter.mpr ⟨hop, decide_eq_true rfl⟩
  have hnodup : (groupOf doc (groupTag op)).Nodup := (hids.of_map _).filter _
  have hfilter : (groupOf doc (groupTag op)).filter
      (fun x => (emitMethod x).name == camel op.operationId) = [op] := by
    refine filter_eq_singleton hnodup hmem fun x hx => ?_
    rw [beq_iff_eq]
    exact ⟨eq_of_method hids hop (List.mem_filter.mp hx).1, fun heq => by rw [heq]; rfl⟩
  rw [IsMethodOf, emitTagFile]
  dsimp only
  rw [List.filter_map]
  exact congrArg (List.map emitMethod) hfilter

theorem nodup_presentTags : (presentTags doc).Nodup := BTreeMap.nodup_sortedSet _

theorem pascal_of_mem_presentTags {tag : String} (h : tag ∈ presentTags doc) : pascal tag = tag := by
  obtain ⟨op, -, t, -, rfl⟩ := mem_presentTags.mp h
  exact pascal_pascal t

theorem moduleFile_src (tag : String) : moduleFile "src" ("./api/" ++ tag) = apiPath tag := by
  have hmodule : "./api/" ++ tag = "./" ++ ("api/" ++ tag) := by
    rw [← String.append_assoc]
    rfl
  rw [moduleFile, hmodule, Text.stripPrefix_append, Option.getD_some, apiPath,
    ← String.append_assoc]
  rfl

theorem moduleFile_api (tag : String) : moduleFile "src/api" ("./" ++ tag) = apiPath tag := by
  rw [moduleFile, Text.stripPrefix_append]
  rfl

/-- The client has properties for the classes of the written tags. -/
theorem isProperty_iff (horder : order.Perm (generate doc hasI18n)) {path className : String} :
    IsProperty order path className ↔
      ∃ tag ∈ presentTags doc, className = tag ++ "Api" ∧ path = apiPath tag := by
  unfold IsProperty
  rw [written_index horder]
  constructor
  · rintro ⟨index, key, module, hindex, hproperty, himport, rfl⟩
    obtain rfl := Content.index.inj (Option.some.inj hindex)
    obtain ⟨tag, htag, heq⟩ := List.mem_map.mp
      (List.mem_reverse.mp (mem_of_lookup_eq_some hproperty))
    obtain ⟨-, rfl⟩ := Prod.mk.inj heq
    obtain ⟨tag', -, heq⟩ := List.mem_map.mp (mem_of_lookup_eq_some himport)
    obtain ⟨hclass, rfl⟩ := Prod.mk.inj heq
    obtain rfl := Text.append_inj_right hclass
    exact ⟨tag', htag, rfl, moduleFile_src tag'⟩
  · rintro ⟨tag, htag, rfl, rfl⟩
    refine ⟨_, camel tag, "./api/" ++ tag, rfl, ?_, ?_, moduleFile_src tag⟩
    · refine lookup_eq_some_of_mem ?_ (List.mem_reverse.mpr (List.mem_map.mpr ⟨tag, htag, rfl⟩))
      rw [List.map_reverse, List.nodup_reverse]
      have hkeys : ((collectIndex doc hasI18n).properties.map Prod.fst) =
          (presentTags doc).map camel := by
        rw [collectIndex, List.map_map]
        rfl
      rw [hkeys, List.nodup_map_iff_inj_on nodup_presentTags]
      intro t ht t' ht' heq
      rw [← pascal_of_mem_presentTags ht, ← pascal_of_mem_presentTags ht', camel_eq_iff.mp heq]
    · refine lookup_eq_some_of_mem ?_ (List.mem_map.mpr ⟨tag, htag, rfl⟩)
      have hkeys : ((collectIndex doc hasI18n).imports.map Prod.fst) =
          (presentTags doc).map fun t => t ++ "Api" := by
        rw [collectIndex, List.map_map]
        rfl
      rw [hkeys, List.nodup_map_iff_inj_on nodup_presentTags]
      exact fun t _ t' _ heq => Text.append_inj_right heq

theorem reexported_iff (horder : order.Perm (generate doc hasI18n)) {path : String} :
    Reexported order path ↔ ∃ tag ∈ presentTags doc, path = apiPath tag := by
  unfold Reexported
  rw [written_apiIndex horder]
  constructor
  · rintro ⟨modules, hmodules, module, hmodule, rfl⟩
    obtain rfl := Content.apiIndex.inj (Option.some.inj hmodules)
    obtain ⟨tag, htag, rfl⟩ := List.mem_map.mp hmodule
    exact ⟨tag, htag, moduleFile_api tag⟩
  · rintro ⟨tag, htag, rfl⟩
    exact ⟨_, rfl, "./" ++ tag, List.mem_map.mpr ⟨tag, htag, rfl⟩, moduleFile_api tag⟩

/-- What is callable: the file of the group stays, and a tag of its name is written. -/
theorem callable_of_present (horder : order.Perm (generate doc hasI18n))
    (hids : (doc.operations.map fun op => camel op.operationId).Nodup) {op : Operation}
    (hop : op ∈ doc.operations)
    (hunique : ∀ op' ∈ doc.operations, pascal (groupTag op') = pascal (groupTag op) →
      groupTag op' = groupTag op)
    (hpresent : pascal (groupTag op) ∈ presentTags doc) : Callable order op := by
  refine ⟨_, _, written_group horder hop hunique, isMethodOf_group hids hop, ?_,
    (isProperty_iff horder).mpr ⟨_, hpresent, rfl, rfl⟩,
    (reexported_iff horder).mpr ⟨_, hpresent, rfl⟩⟩
  rintro path f hwritten ⟨m, hm, hname⟩
  obtain ⟨tag, -, rfl, rfl⟩ := group_of_written horder hwritten
  obtain ⟨op', hop', rfl⟩ := List.mem_map.mp hm
  obtain ⟨hmem, htag⟩ := List.mem_filter.mp hop'
  rw [← eq_of_method hids hop hmem hname, of_decide_eq_true htag]

/-- A callable operation is in the file of its own group, under a written tag. -/
theorem present_of_callable (horder : order.Perm (generate doc hasI18n))
    (hids : (doc.operations.map fun op => camel op.operationId).Nodup) {op : Operation}
    (hop : op ∈ doc.operations) (h : Callable order op) :
    pascal (groupTag op) ∈ presentTags doc ∧
      written order (apiPath (pascal (groupTag op))) =
        some (.api (emitTagFile (groupTag op) (groupOf doc (groupTag op)))) := by
  obtain ⟨path, f, hwritten, hmethod, -, hproperty, -⟩ := h
  obtain ⟨tag, -, rfl, rfl⟩ := group_of_written horder hwritten
  have hmem : emitMethod op ∈ (emitTagFile tag (groupOf doc tag)).methods := by
    have hsingle : emitMethod op ∈ [emitMethod op] := List.mem_cons_self
    rw [← hmethod] at hsingle
    exact (List.mem_filter.mp hsingle).1
  obtain ⟨op', hop', heq⟩ := List.mem_map.mp hmem
  obtain ⟨hmem', htag⟩ := List.mem_filter.mp hop'
  have hsame : op' = op := eq_of_method hids hop hmem' (congrArg EmittedMethod.name heq)
  rw [hsame] at htag
  have htag' : groupTag op = tag := of_decide_eq_true htag
  rw [htag']
  obtain ⟨t, ht, hclass, -⟩ := (isProperty_iff horder).mp hproperty
  have hpascal : pascal tag = t := Text.append_inj_right hclass
  rw [hpascal]
  rw [hpascal] at hwritten
  exact ⟨ht, hwritten⟩

end Groups

/-! ## §3  The condition -/

/-- **When every operation can be called.** With distinct tags and operation ids, exactly when
all operations are tagged or one has the tag `Default` itself. -/
theorem allCallable_iff (doc : Document) (hasI18n : Bool)
    (htags : ∀ op ∈ doc.operations, ∀ op' ∈ doc.operations, ∀ t t', op.tag = some t →
      op'.tag = some t' → pascal t = pascal t' → t = t')
    (hids : (doc.operations.map fun op => camel op.operationId).Nodup)
    {order : List (String × Content)} (horder : order.Perm (generate doc hasI18n)) :
    (∀ op ∈ doc.operations, Callable order op) ↔
      (∀ op ∈ doc.operations, op.tag ≠ none) ∨ ∃ op ∈ doc.operations, op.tag = some "Default" := by
  have hdefault : pascal "Default" = "Default" := by decide
  constructor
  · intro h
    by_contra hcond
    rw [not_or, not_exists] at hcond
    obtain ⟨huntagged, hnone⟩ := hcond
    push Not at huntagged
    obtain ⟨op, hop, htag⟩ := huntagged
    have hgroup : groupTag op = "Default" := by
      rw [groupTag, htag]
      rfl
    obtain ⟨hpresent, hwritten⟩ := present_of_callable horder hids hop (h op hop)
    rw [hgroup, hdefault] at hpresent hwritten
    obtain ⟨op', hop', t, ht, hpascal⟩ := mem_presentTags.mp hpresent
    have hgroup' : groupTag op' = t := by
      rw [groupTag, ht]
      rfl
    obtain ⟨-, hwritten'⟩ := present_of_callable horder hids hop' (h op' hop')
    rw [hgroup', hpascal, hwritten] at hwritten'
    -- one file for both groups, so `op` is a method of the other group too
    have hmethods := congrArg TagFile.methods (Content.api.inj (Option.some.inj hwritten'))
    have hmem : emitMethod op ∈ (emitTagFile "Default" (groupOf doc "Default")).methods :=
      List.mem_map_of_mem (List.mem_filter.mpr ⟨hop, decide_eq_true hgroup⟩)
    rw [hmethods] at hmem
    obtain ⟨op'', hop'', heq⟩ := List.mem_map.mp hmem
    obtain ⟨hmem'', htag''⟩ := List.mem_filter.mp hop''
    rw [eq_of_method hids hop hmem'' (congrArg EmittedMethod.name heq)] at htag''
    have ht' : t = "Default" := by
      rw [← of_decide_eq_true htag'', hgroup]
    exact hnone op' ⟨hop', by rw [ht, ht']⟩
  · intro hcond op hop
    -- the tags of the groups are tags that are written
    have hwrittenTag : ∀ x ∈ doc.operations, ∃ y ∈ doc.operations, y.tag = some (groupTag x) := by
      intro x hx
      rcases htag : x.tag with _ | t
      · have hgroup : groupTag x = "Default" := by
          rw [groupTag, htag]
          rfl
        rcases hcond with hall | hdef
        · exact absurd htag (hall x hx)
        · rw [hgroup]
          exact hdef
      · have hgroup : groupTag x = t := by
          rw [groupTag, htag]
          rfl
        rw [hgroup]
        exact ⟨x, hx, htag⟩
    obtain ⟨y, hy, hytag⟩ := hwrittenTag op hop
    refine callable_of_present horder hids hop ?_ (mem_presentTags.mpr ⟨y, hy, _, hytag, rfl⟩)
    intro op' hop' heq
    obtain ⟨y', hy', hytag'⟩ := hwrittenTag op' hop'
    exact htags y' hy' y hy _ _ hytag' hytag heq

def storeOperation (operationId path : String) (tag : Option String) : Operation :=
  ⟨operationId, .get, path, tag, none, none, [], none, [], none⟩

/-- Operations under two tags, and one without a tag beside one under `Default`. -/
def taggedStore : Document :=
  Document.minimal SchemaRegistry.default [storeOperation "listPets" "/pets" (some "pets"),
    storeOperation "list_orders" "/orders" (some "orders"), storeOperation "health" "/health" none,
    storeOperation "version" "/version" (some "Default")]

theorem allCallable_iff_taggedStore :
    (∃ op ∈ taggedStore.operations, op.tag = none) ∧
      ∀ op ∈ taggedStore.operations, Callable (generate taggedStore false) op := by
  have htags : ∀ op ∈ taggedStore.operations, ∀ op' ∈ taggedStore.operations, ∀ t t',
      op.tag = some t → op'.tag = some t' → pascal t = pascal t' → t = t' := by
    have hall : ∀ op ∈ taggedStore.operations, ∀ op' ∈ taggedStore.operations,
        ∀ t ∈ op.tag, ∀ t' ∈ op'.tag, pascal t = pascal t' → t = t' := by decide
    exact fun op hop op' hop' t t' ht ht' => hall op hop op' hop' t ht t' ht'
  have hids : (taggedStore.operations.map fun op => camel op.operationId).Nodup := by decide
  have hdefault : ∃ op ∈ taggedStore.operations, op.tag = some "Default" :=
    ⟨storeOperation "version" "/version" (some "Default"),
      by simp [taggedStore, Document.minimal], rfl⟩
  exact ⟨⟨storeOperation "health" "/health" none, by simp [taggedStore, Document.minimal], rfl⟩,
    (allCallable_iff taggedStore false htags hids (List.Perm.refl _)).mpr (Or.inr hdefault)⟩

/-- One operation without a tag. -/
def untaggedStore : Document :=
  Document.minimal SchemaRegistry.default [storeOperation "listPets" "/pets" none]

/-- Its class `DefaultApi` is in no barrel. -/
theorem untaggedStore_not_callable :
    ¬ ∀ (doc : Document) (hasI18n : Bool),
      (∀ op ∈ doc.operations, ∀ op' ∈ doc.operations, ∀ t t', op.tag = some t →
        op'.tag = some t' → pascal t = pascal t' → t = t') →
      (doc.operations.map fun op => camel op.operationId).Nodup →
      ∀ order, order.Perm (generate doc hasI18n) → ∀ op ∈ doc.operations, Callable order op := by
  intro h
  have htags : ∀ op ∈ untaggedStore.operations, op.tag = none := List.forall_mem_singleton.mpr rfl
  have hids : (untaggedStore.operations.map fun op => camel op.operationId).Nodup :=
    List.nodup_singleton _
  have hcall := h untaggedStore false
    (fun op hop _ _ t _ ht => by rw [htags op hop] at ht; cases ht)
    hids _ (List.Perm.refl _) _ List.mem_cons_self
  obtain ⟨hpresent, -⟩ := present_of_callable (List.Perm.refl _) hids List.mem_cons_self hcall
  obtain ⟨op, hop, t, ht, -⟩ := mem_presentTags.mp hpresent
  rw [htags op hop] at ht
  cases ht

end SpecForge.Ts
