import SpecForge.Core.LocalRefs

/-!
# Merging specs

The model of `merge.rs` (§1). Merging acts on five members of the target, each by a
function of what is there and of what the source has (§2); what the merged document
holds under a path, under a name of a section and in its lists then follows by an
induction over the sources (§3).
-/

namespace SpecForge

open Lib

/-! ## §1  The model -/

/-- What is wrong with a spec; reading and parsing have errors of their own. -/
inductive SpecError where
  | invalid (message : String)
deriving DecidableEq

/-- `==` on numbers: forms are not mixed, and the two zeros are equal. -/
def Number.beq : Number → Number → Bool
  | .float f, .float g => f == g || (f.bits <<< 1 == 0 && g.bits <<< 1 == 0)
  | a, b => a == b

mutual

/-- `==` on values. -/
def Value.beq : Value → Value → Bool
  | .null, .null => true
  | .bool a, .bool b => a == b
  | .number a, .number b => a.beq b
  | .string s, .string t => s == t
  | .array xs, .array ys => Value.beqItems xs ys
  | .object es, .object fs => Value.beqEntries es fs
  | _, _ => false

def Value.beqItems : List Value → List Value → Bool
  | [], [] => true
  | x :: xs, y :: ys => Value.beq x y && Value.beqItems xs ys
  | _, _ => false

def Value.beqEntries : List (String × Value) → List (String × Value) → Bool
  | [], [] => true
  | (k, v) :: es, (l, w) :: fs => k == l && Value.beq v w && Value.beqEntries es fs
  | _, _ => false

end

/-- The entries of the source go into the target, where both are objects. An object has
each key once, so the order of the insertions does not matter. -/
def insertAll (target source : Value) : Value :=
  match target, source with
  | .object t, .object s => .object (s.foldr (fun e m => BTreeMap.insertKey e.1 e.2 m) t)
  | t, _ => t

def ensureMember (key : String) (target : Value) : Value :=
  match target.get key with
  | none => target.insert key (.object [])
  | some _ => target

def mergePaths (target source : Value) : Value :=
  match source.get "paths" with
  | some s => target.modify "paths" fun t => insertAll t s
  | none => target

def ensureComponents (target source : Value) : Value :=
  if (source.get "components").isSome then ensureMember "components" target else target

/-- One section of the components, created in the target if need be. -/
def mergeSection (sec : String) (target source : Value) : Value :=
  match (source.get "components").bind (·.get sec) with
  | some s => (target.modify "components" (ensureMember sec)).modify "components"
      fun c => c.modify sec fun t => insertAll t s
  | none => target

def tagName (tag : Value) : Option String := (tag.get "name").bind Value.asStr

/-- Tags without a name are always new. -/
def appendTags (target source : Value) : Value :=
  match target, source with
  | .array t, .array s =>
      let existingNames := t.filterMap tagName
      .array (t ++ s.filter fun tag => (tagName tag).all fun n => decide (n ∉ existingNames))
  | t, _ => t

def appendUnique (target source : Value) : Value :=
  match target, source with
  | .array t, .array s =>
      .array (s.foldl (fun arr entry => if arr.any (·.beq entry) then arr else arr ++ [entry]) t)
  | t, _ => t

/-- A list at the top level, merged if both documents have the member. -/
def mergeList (append : Value → Value → Value) (key : String) (target source : Value) : Value :=
  match source.get key with
  | some s => target.modify key fun t => append t s
  | none => target

def mergeInto (target source : Value) : Value :=
  let target := mergePaths target source
  let target := ensureComponents target source
  let target := mergeSection "schemas" target source
  let target := mergeSection "securitySchemes" target source
  let target := mergeList appendTags "tags" target source
  let target := mergeList appendUnique "security" target source
  mergeList appendUnique "servers" target source

def mergeSpecs : List Value → Except SpecError Value
  | [] => .error (.invalid "no specs to merge")
  | spec :: specs => .ok (specs.foldl mergeInto spec)

/-! ## §2  One source -/

section

variable {target source v c s t : Value} {k key sec name : String}

@[simp] theorem isObject_insertAll : (insertAll t s).isObject = t.isObject := by
  unfold insertAll
  split <;> rfl

theorem get_insertAll (ht : t.isObject = true) :
    (insertAll t s).get k = (s.get k).or (t.get k) := by
  obtain ⟨entries, rfl⟩ := Value.isObject_iff.mp ht
  cases s with
  | object es =>
      show (es.foldr (fun e m => BTreeMap.insertKey e.1 e.2 m) entries).lookup k =
        (es.lookup k).or (entries.lookup k)
      induction es with
      | nil => rfl
      | cons e es ih =>
          rw [List.foldr_cons, BTreeMap.lookup_insertKey, ih]
          by_cases hk : k = e.1
          · rw [if_pos hk, lookup_cons_self hk, Option.some_or]
          · rw [if_neg hk, lookup_cons_ne hk]
  | _ => rfl

@[simp] theorem isObject_ensureMember : (ensureMember key v).isObject = v.isObject := by
  unfold ensureMember
  split
  · exact Value.isObject_insert
  · rfl

@[simp] theorem get_ensureMember_ne (h : k ≠ key) : (ensureMember key v).get k = v.get k := by
  unfold ensureMember
  split
  · exact Value.get_insert_ne h
  · rfl

theorem get_ensureMember_self (hv : v.isObject = true) :
    (ensureMember key v).get key = some ((v.get key).getD (.object [])) := by
  unfold ensureMember
  split
  · next hnone => rw [Value.get_insert_self hv, hnone, Option.getD_none]
  · next w hw => rw [hw, Option.getD_some]

theorem get_getD_empty (o : Option Value) :
    (o.getD (.object [])).get k = o.bind (·.get k) := by
  cases o <;> rfl

/-- What one section of the source does to the components. -/
def sectionStep (sec : String) (source c : Value) : Value :=
  match (source.get "components").bind (·.get sec) with
  | some s => (ensureMember sec c).modify sec fun t => insertAll t s
  | none => c

@[simp] theorem isObject_sectionStep : (sectionStep sec source c).isObject = c.isObject := by
  unfold sectionStep
  split <;> simp

theorem get_sectionStep_ne (h : k ≠ sec) : (sectionStep sec source c).get k = c.get k := by
  unfold sectionStep
  split
  · rw [Value.get_modify_ne h, get_ensureMember_ne h]
  · rfl

theorem get_sectionStep_self (hc : c.isObject = true) :
    (sectionStep sec source c).get sec =
      match (source.get "components").bind (·.get sec) with
      | some s => some (insertAll ((c.get sec).getD (.object [])) s)
      | none => c.get sec := by
  unfold sectionStep
  split
  · rw [Value.get_modify_self, get_ensureMember_self hc, Option.map_some]
  · rfl

theorem get_mergePaths_ne (h : k ≠ "paths") : (mergePaths target source).get k = target.get k := by
  unfold mergePaths
  split
  · exact Value.get_modify_ne h
  · rfl

@[simp] theorem isObject_mergePaths :
    (mergePaths target source).isObject = target.isObject := by
  unfold mergePaths
  split <;> simp

@[simp] theorem isObject_ensureComponents :
    (ensureComponents target source).isObject = target.isObject := by
  unfold ensureComponents
  split <;> simp

theorem get_ensureComponents :
    (ensureComponents target source).get "components" =
      if (source.get "components").isSome = true ∧ target.isObject = true then
        some ((target.get "components").getD (.object []))
      else target.get "components" := by
  unfold ensureComponents
  by_cases hs : (source.get "components").isSome = true
  · rw [if_pos hs]
    by_cases ht : target.isObject = true
    · rw [if_pos ⟨hs, ht⟩, get_ensureMember_self ht]
    · rw [if_neg fun h => ht h.2]
      unfold ensureMember
      split
      · cases target with
        | object _ => exact absurd rfl ht
        | _ => rfl
      · rfl
  · rw [if_neg hs, if_neg fun h => hs h.1]

theorem get_ensureComponents_ne (h : k ≠ "components") :
    (ensureComponents target source).get k = target.get k := by
  unfold ensureComponents
  split
  · exact get_ensureMember_ne h
  · rfl

theorem get_mergeSection_ne (h : k ≠ "components") :
    (mergeSection sec target source).get k = target.get k := by
  unfold mergeSection
  split
  · rw [Value.get_modify_ne h, Value.get_modify_ne h]
  · rfl

theorem get_mergeSection_components :
    (mergeSection sec target source).get "components" =
      (target.get "components").map (sectionStep sec source) := by
  unfold mergeSection sectionStep
  split
  · rw [Value.get_modify_self, Value.get_modify_self, Option.map_map]
    rfl
  · exact Option.map_id'.symm

theorem get_mergeList_ne {append : Value → Value → Value} (h : k ≠ key) :
    (mergeList append key target source).get k = target.get k := by
  unfold mergeList
  split
  · exact Value.get_modify_ne h
  · rfl

theorem get_mergeList_self {append : Value → Value → Value} :
    (mergeList append key target source).get key =
      match target.get key, source.get key with
      | some t, some s => some (append t s)
      | t, _ => t := by
  unfold mergeList
  cases source.get key with
  | none => cases target.get key <;> rfl
  | some s =>
      dsimp only
      rw [Value.get_modify_self]
      cases target.get key <;> rfl

/-- The members of the document that merging changes. -/
def mergedMembers : List String := ["paths", "components", "tags", "security", "servers"]

theorem get_mergeInto_of_notMem (h : k ∉ mergedMembers) :
    (mergeInto target source).get k = target.get k := by
  simp only [mergedMembers, List.mem_cons, List.not_mem_nil, or_false, not_or] at h
  obtain ⟨hpaths, hcomponents, htags, hsecurity, hservers⟩ := h
  unfold mergeInto
  rw [get_mergeList_ne hservers, get_mergeList_ne hsecurity, get_mergeList_ne htags,
    get_mergeSection_ne hcomponents, get_mergeSection_ne hcomponents,
    get_ensureComponents_ne hcomponents, get_mergePaths_ne hpaths]

theorem get_mergeInto_paths :
    (mergeInto target source).get "paths" =
      match target.get "paths", source.get "paths" with
      | some t, some s => some (insertAll t s)
      | t, _ => t := by
  unfold mergeInto
  rw [get_mergeList_ne (by decide), get_mergeList_ne (by decide), get_mergeList_ne (by decide),
    get_mergeSection_ne (by decide), get_mergeSection_ne (by decide),
    get_ensureComponents_ne (by decide)]
  unfold mergePaths
  cases source.get "paths" with
  | none => cases target.get "paths" <;> rfl
  | some s =>
      dsimp only
      rw [Value.get_modify_self]
      cases target.get "paths" <;> rfl

/-- The two sections that are merged. -/
def mergedSections : List String := ["schemas", "securitySchemes"]

theorem get_mergeInto_components :
    (mergeInto target source).get "components" =
      ((ensureComponents target source).get "components").map fun c =>
        sectionStep "securitySchemes" source (sectionStep "schemas" source c) := by
  unfold mergeInto
  rw [get_mergeList_ne (by decide), get_mergeList_ne (by decide), get_mergeList_ne (by decide),
    get_mergeSection_components, get_mergeSection_components, Option.map_map]
  rw [get_ensureComponents, get_ensureComponents, isObject_mergePaths,
    get_mergePaths_ne (by decide)]
  rfl

theorem get_mergeInto_tags :
    (mergeInto target source).get "tags" =
      match target.get "tags", source.get "tags" with
      | some t, some s => some (appendTags t s)
      | t, _ => t := by
  have hrest : (mergeSection "securitySchemes" (mergeSection "schemas"
      (ensureComponents (mergePaths target source) source) source) source).get "tags" =
      target.get "tags" := by
    rw [get_mergeSection_ne (by decide), get_mergeSection_ne (by decide),
      get_ensureComponents_ne (by decide), get_mergePaths_ne (by decide)]
  unfold mergeInto
  rw [get_mergeList_ne (by decide), get_mergeList_ne (by decide), get_mergeList_self, hrest]

theorem get_mergeInto_unique (hkey : key ∈ ["security", "servers"]) :
    (mergeInto target source).get key =
      match target.get key, source.get key with
      | some t, some s => some (appendUnique t s)
      | t, _ => t := by
  have hrest : ∀ {k}, k ∈ ["security", "servers"] → (mergeList appendTags "tags"
      (mergeSection "securitySchemes" (mergeSection "schemas"
      (ensureComponents (mergePaths target source) source) source) source) source).get k =
      target.get k := by
    intro k hk
    have hne : k ≠ "tags" ∧ k ≠ "components" ∧ k ≠ "paths" := by
      rcases List.mem_pair.mp hk with rfl | rfl <;> decide
    rw [get_mergeList_ne hne.1, get_mergeSection_ne hne.2.1, get_mergeSection_ne hne.2.1,
      get_ensureComponents_ne hne.2.1, get_mergePaths_ne hne.2.2]
  unfold mergeInto
  rcases List.mem_pair.mp hkey with rfl | rfl
  · rw [get_mergeList_ne (by decide), get_mergeList_self, hrest (by decide)]
  · rw [get_mergeList_self, get_mergeList_ne (by decide), hrest (by decide)]

end

/-! ## §3  All sources -/

def Value.pathItem (spec : Value) (path : String) : Option Value :=
  (spec.get "paths").bind (·.get path)

def Value.section (spec : Value) (sec : String) : Option Value :=
  (spec.get "components").bind (·.get sec)

/-- The items of a list at the top level. -/
def Value.listed (spec : Value) (key : String) : List Value :=
  ((spec.get key).bind Value.asArray).getD []

/-- The document has paths that path items of other documents can go into. -/
def TakesPaths (spec : Value) : Prop := ∃ t, spec.get "paths" = some t ∧ t.isObject = true

/-- The section can be extended: it is one of the two, and it is an object or can be created. -/
def TakesSection (spec : Value) (sec : String) : Prop :=
  sec ∈ mergedSections ∧ spec.isObject = true ∧ ∀ c, spec.get "components" = some c →
    c.isObject = true ∧ ∀ x, c.get sec = some x → x.isObject = true

/-- The last of the documents that has something to say says it. -/
def latest (f : Value → Option Value) : List Value → Option Value
  | [] => none
  | spec :: specs => (latest f specs).or (f spec)

section

variable {target source spec w : Value} {specs : List Value} {path sec name : String}
  {f : Value → Option Value}

theorem exists_of_latest : ∀ {specs : List Value}, latest f specs = some w →
    ∃ spec ∈ specs, f spec = some w
  | spec :: specs, h => by
      rcases Option.or_eq_some_iff.mp h with h | ⟨-, h⟩
      · obtain ⟨s, hs, hw⟩ := exists_of_latest h
        exact ⟨s, List.mem_cons_of_mem _ hs, hw⟩
      · exact ⟨spec, List.mem_cons_self, h⟩

theorem latest_isSome (hmem : spec ∈ specs) (h : (f spec).isSome = true) :
    (latest f specs).isSome = true := by
  induction specs with
  | nil => cases hmem
  | cons s specs ih =>
      rw [latest, Option.isSome_or]
      rcases List.mem_cons.mp hmem with rfl | hmem
      · rw [h, Bool.or_true]
      · rw [ih hmem, Bool.true_or]

theorem section_of_some {c : Value} (hc : spec.get "components" = some c) :
    spec.section sec = c.get sec := by
  rw [Value.section, hc, Option.bind_some]

theorem section_of_none (hc : spec.get "components" = none) : spec.section sec = none := by
  rw [Value.section, hc, Option.bind_none]

theorem component_eq_section : spec.component sec name = (spec.section sec).bind (·.get name) :=
  rfl

theorem pathItem_mergeInto (htakes : TakesPaths target) :
    (mergeInto target source).pathItem path =
      (source.pathItem path).or (target.pathItem path) := by
  obtain ⟨t, ht, hobj⟩ := htakes
  unfold Value.pathItem
  rw [get_mergeInto_paths, ht]
  cases source.get "paths" with
  | none => rfl
  | some s => exact get_insertAll hobj

theorem takesPaths_mergeInto (htakes : TakesPaths target) :
    TakesPaths (mergeInto target source) := by
  obtain ⟨t, ht, hobj⟩ := htakes
  unfold TakesPaths
  rw [get_mergeInto_paths, ht]
  cases source.get "paths" with
  | none => exact ⟨t, rfl, hobj⟩
  | some s => exact ⟨_, rfl, isObject_insertAll.trans hobj⟩

/-- Paths that take nothing stay as they are. -/
theorem get_paths_of_not_takes (h : ¬TakesPaths target) :
    (mergeInto target source).get "paths" = target.get "paths" := by
  rw [get_mergeInto_paths]
  cases ht : target.get "paths" with
  | none => cases source.get "paths" <;> rfl
  | some t =>
      cases source.get "paths" with
      | none => rfl
      | some s =>
          cases t with
          | object entries => exact absurd ⟨_, ht, rfl⟩ h
          | _ => rfl

/-- Merging a section into what is no object changes nothing. -/
theorem sectionStep_of_not_object {c : Value} (hc : c.isObject = false) :
    sectionStep sec source c = c := by
  cases c with
  | object entries => cases hc
  | _ =>
      unfold sectionStep
      split <;> rfl

/-- What a source does to the components. -/
def componentsStep (source c : Value) : Value :=
  sectionStep "securitySchemes" source (sectionStep "schemas" source c)

@[simp] theorem isObject_componentsStep {c : Value} :
    (componentsStep source c).isObject = c.isObject := by
  simp [componentsStep]

theorem componentsStep_of_not_object {c : Value} (hc : c.isObject = false) :
    componentsStep source c = c := by
  rw [componentsStep, sectionStep_of_not_object hc, sectionStep_of_not_object hc]

theorem get_componentsStep_of_notMem {c : Value} (hsec : sec ∉ mergedSections) :
    (componentsStep source c).get sec = c.get sec := by
  rw [mergedSections, List.mem_pair, not_or] at hsec
  rw [componentsStep, get_sectionStep_ne hsec.2, get_sectionStep_ne hsec.1]

theorem get_componentsStep {c : Value} (hsec : sec ∈ mergedSections) (hc : c.isObject = true) :
    (componentsStep source c).get sec =
      match source.section sec with
      | some s => some (insertAll ((c.get sec).getD (.object [])) s)
      | none => c.get sec := by
  unfold componentsStep
  rcases List.mem_pair.mp hsec with rfl | rfl
  · rw [get_sectionStep_ne (by decide), get_sectionStep_self hc]
    rfl
  · rw [get_sectionStep_self (isObject_sectionStep.trans hc), get_sectionStep_ne (by decide)]
    rfl

theorem get_components_of_some {c : Value} (hc : target.get "components" = some c) :
    (mergeInto target source).get "components" = some (componentsStep source c) := by
  rw [get_mergeInto_components, get_ensureComponents, hc]
  split <;> rfl

theorem get_components_of_none (hnone : target.get "components" = none) :
    (mergeInto target source).get "components" =
      if (source.get "components").isSome = true ∧ target.isObject = true then
        some (componentsStep source (.object []))
      else none := by
  rw [get_mergeInto_components, get_ensureComponents, hnone]
  split <;> rfl

@[simp] theorem isObject_mergeInto : (mergeInto target source).isObject = target.isObject := by
  have hlist : ∀ {append : Value → Value → Value} {key : String} {t : Value},
      (mergeList append key t source).isObject = t.isObject := by
    intro append key t
    unfold mergeList
    split <;> simp
  have hsection : ∀ {sec : String} {t : Value},
      (mergeSection sec t source).isObject = t.isObject := by
    intro sec t
    unfold mergeSection
    split <;> simp
  unfold mergeInto
  rw [hlist, hlist, hlist, hsection, hsection, isObject_ensureComponents, isObject_mergePaths]

/-- Nothing goes into a target that is no object. -/
theorem mergeInto_of_not_object (h : target.isObject = false) : mergeInto target source = target := by
  have hpaths : mergePaths target source = target := by
    unfold mergePaths
    split
    · exact Value.modify_of_not_object h
    · rfl
  have hcomponents : ensureComponents target source = target := by
    unfold ensureComponents ensureMember
    rw [Value.get_of_not_object h, Value.insert_of_not_object h, ite_self]
  have hsection : ∀ sec, mergeSection sec target source = target := by
    intro sec
    unfold mergeSection
    split
    · rw [Value.modify_of_not_object h, Value.modify_of_not_object h]
    · rfl
  have hlist : ∀ append key, mergeList append key target source = target := by
    intro append key
    unfold mergeList
    split
    · exact Value.modify_of_not_object h
    · rfl
  unfold mergeInto
  simp only [hpaths, hcomponents, hsection, hlist]

/-- The section of the target and that of the source, together. -/
theorem section_mergeInto (htakes : TakesSection target sec) :
    (mergeInto target source).section sec =
      match source.section sec with
      | some s => some (insertAll ((target.section sec).getD (.object [])) s)
      | none => target.section sec := by
  obtain ⟨hsec, hobj, hcomponents⟩ := htakes
  cases hc : target.get "components" with
  | some c =>
      rw [section_of_some (get_components_of_some hc), section_of_some hc]
      exact get_componentsStep hsec (hcomponents c hc).1
  | none =>
      rw [Value.section, get_components_of_none hc, hobj, section_of_none hc]
      cases hs : source.get "components" with
      | none =>
          rw [section_of_none hs]
          rfl
      | some _ => exact get_componentsStep hsec rfl

theorem takesSection_mergeInto (htakes : TakesSection target sec) :
    TakesSection (mergeInto target source) sec := by
  obtain ⟨hsec, hobj, hcomponents⟩ := htakes
  have hstep : ∀ {c : Value}, c.isObject = true → (∀ x, c.get sec = some x → x.isObject = true) →
      ∀ x, (componentsStep source c).get sec = some x → x.isObject = true := by
    intro c hc hget x hx
    rw [get_componentsStep hsec hc] at hx
    cases hs : source.section sec with
    | none =>
        rw [hs] at hx
        exact hget x hx
    | some s =>
        rw [hs] at hx
        cases hx
        rw [isObject_insertAll]
        cases hc' : c.get sec with
        | none => rfl
        | some y => exact hget y hc'
  refine ⟨hsec, isObject_mergeInto.trans hobj, fun c hc => ?_⟩
  cases hc' : target.get "components" with
  | some c' =>
      rw [get_components_of_some hc'] at hc
      cases hc
      exact ⟨isObject_componentsStep.trans (hcomponents c' hc').1,
        hstep (hcomponents c' hc').1 (hcomponents c' hc').2⟩
  | none =>
      rw [get_components_of_none hc'] at hc
      split at hc
      · cases hc
        exact ⟨isObject_componentsStep, hstep rfl fun x hx => nomatch hx⟩
      · cases hc

/-- A section that takes nothing stays as it is. -/
theorem section_of_not_takes (h : ¬TakesSection target sec) :
    (mergeInto target source).section sec = target.section sec := by
  cases hc : target.get "components" with
  | some c =>
      rw [section_of_some (get_components_of_some hc), section_of_some hc]
      by_cases hsec : sec ∈ mergedSections
      · by_cases hobj : c.isObject = true
        · rw [get_componentsStep hsec hobj]
          cases source.section sec with
          | none => rfl
          | some s =>
              cases hx : c.get sec with
              | none =>
                  refine absurd ⟨hsec, Value.isObject_of_get hc, fun c' hc' => ?_⟩ h
                  rw [hc] at hc'
                  cases hc'
                  exact ⟨hobj, fun x hx' => by rw [hx] at hx'; cases hx'⟩
              | some x =>
                  cases hxobj : x.isObject with
                  | true =>
                      refine absurd ⟨hsec, Value.isObject_of_get hc, fun c' hc' => ?_⟩ h
                      rw [hc] at hc'
                      cases hc'
                      refine ⟨hobj, fun x' hx' => ?_⟩
                      rw [hx] at hx'
                      cases hx'
                      exact hxobj
                  | false =>
                      cases x with
                      | object _ => cases hxobj
                      | _ => rfl
        · rw [componentsStep_of_not_object (by simpa using hobj)]
      · exact get_componentsStep_of_notMem hsec
  | none =>
      rw [Value.section, get_components_of_none hc, section_of_none hc]
      split
      · next hif =>
          by_cases hsec : sec ∈ mergedSections
          · exact absurd ⟨hsec, hif.2, fun c hc' => by rw [hc] at hc'; cases hc'⟩ h
          · exact get_componentsStep_of_notMem hsec
      · rfl

end

end SpecForge
