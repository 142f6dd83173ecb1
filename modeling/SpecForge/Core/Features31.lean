import SpecForge.Core.Spec

/-!
# What the downgrade leaves of 3.1

`detect_31_features` walks a raw document and sets a flag for each kind of 3.1 construct
it meets (§1). A flag is set exactly if some object at some depth sets it
(`detect31FeaturesWalk_iff`), so the absence of a construct is a property of every object
of a value (`EveryObject`, §2). The first pass of the downgrade leaves every reference
alone in its object (§3), and the second pass keeps that and removes the other constructs
(§4), in subtrees that it has moved as well.
-/

namespace SpecForge

open Lib

/-! ## §1  The detector -/

structure Spec31Features where
  usesTypeArray : Bool
  usesRefSiblings : Bool
  usesConst : Bool
  usesPrefixItems : Bool
  usesDependentRequired : Bool
  usesNumericExclusiveBounds : Bool
deriving DecidableEq

def Spec31Features.default : Spec31Features := ⟨false, false, false, false, false, false⟩

/-! The test for each flag, on the members of one object. -/

def hasTypeArray (obj : List (String × Value)) : Bool :=
  ((obj.lookup "type").bind Value.asArray).isSome

def hasRefSiblings (obj : List (String × Value)) : Bool :=
  (obj.lookup "$ref").isSome && decide (1 < obj.length)

def hasKeyword (k : String) (obj : List (String × Value)) : Bool := (obj.lookup k).isSome

def hasNumber (field : String) (obj : List (String × Value)) : Bool :=
  ((obj.lookup field).map Value.isNumber).getD false

def hasNumericExclusiveBounds (obj : List (String × Value)) : Bool :=
  hasNumber "exclusiveMinimum" obj || hasNumber "exclusiveMaximum" obj

/-- What one object sets. -/
def markFeatures (obj : List (String × Value)) (features : Spec31Features) : Spec31Features where
  usesTypeArray := features.usesTypeArray || hasTypeArray obj
  usesRefSiblings := features.usesRefSiblings || hasRefSiblings obj
  usesConst := features.usesConst || hasKeyword "const" obj
  usesPrefixItems := features.usesPrefixItems || hasKeyword "prefixItems" obj
  usesDependentRequired := features.usesDependentRequired || hasKeyword "dependentRequired" obj
  usesNumericExclusiveBounds :=
    features.usesNumericExclusiveBounds || hasNumericExclusiveBounds obj

mutual

def detect31FeaturesWalk : Value → Spec31Features → Spec31Features
  | .object obj, features => detectEntries obj (markFeatures obj features)
  | .array arr, features => detectItems arr features
  | _, features => features

def detectEntries : List (String × Value) → Spec31Features → Spec31Features
  | [], features => features
  | (_, v) :: es, features => detectEntries es (detect31FeaturesWalk v features)

def detectItems : List Value → Spec31Features → Spec31Features
  | [], features => features
  | v :: vs, features => detectItems vs (detect31FeaturesWalk v features)

end

def detect31Features (json : Value) : Spec31Features :=
  detect31FeaturesWalk json Spec31Features.default

/-! ## §2  Every object of a value -/

/-- `P` holds of the members of each object in a value, at any depth. -/
inductive EveryObject (P : List (String × Value) → Prop) : Value → Prop
  | mk {v : Value} (hself : ∀ obj, v = .object obj → P obj)
      (hparts : ∀ w, Value.Part v w → EveryObject P w) : EveryObject P v

section

variable {P Q : List (String × Value) → Prop} {v : Value} {obj : List (String × Value)}

theorem everyObject_object :
    EveryObject P (.object obj) ↔ P obj ∧ ∀ e ∈ obj, EveryObject P e.2 := by
  constructor
  · rintro ⟨hself, hparts⟩
    exact ⟨hself obj rfl, fun e he => hparts e.2 (.member he)⟩
  · rintro ⟨hself, hparts⟩
    apply EveryObject.mk
    · rintro _ ⟨⟩
      exact hself
    · rintro _ ⟨⟩
      next e he => exact hparts e he

theorem everyObject_array {arr : List Value} :
    EveryObject P (.array arr) ↔ ∀ w ∈ arr, EveryObject P w := by
  constructor
  · rintro ⟨-, hparts⟩ w hw
    exact hparts w (.item hw)
  · intro hparts
    apply EveryObject.mk
    · rintro _ ⟨⟩
    · rintro _ ⟨⟩
      next hw => exact hparts _ hw

/-- A value without parts has no objects in it. -/
theorem everyObject_leaf (harray : v.asArray = none) (hobject : v.asObject = none) :
    EveryObject P v := by
  apply EveryObject.mk
  · rintro obj rfl
    cases hobject
  · intro w hw
    cases hw with
    | item _ => cases harray
    | member _ => cases hobject

theorem EveryObject.mono (h : EveryObject P v) (hPQ : ∀ obj, P obj → Q obj) :
    EveryObject Q v := by
  induction h with
  | mk hself _ ih => exact .mk (fun obj hobj => hPQ obj (hself obj hobj)) ih

theorem EveryObject.and (hP : EveryObject P v) (hQ : EveryObject Q v) :
    EveryObject (fun obj => P obj ∧ Q obj) v := by
  induction hP with
  | mk hself _ ih =>
      obtain ⟨hself', hparts⟩ := hQ
      exact .mk (fun obj hobj => ⟨hself obj hobj, hself' obj hobj⟩)
        fun w hw => ih w hw (hparts w hw)

theorem everyObject_sorted (hordered : v.isOrdered = true) : EveryObject BTreeMap.Sorted v := by
  induction v using Value.induction with
  | object obj ih =>
      obtain ⟨hsorted, hparts⟩ := Value.isOrdered_object.mp hordered
      exact everyObject_object.mpr ⟨hsorted, fun e he => ih e he (hparts e he)⟩
  | array arr ih =>
      exact everyObject_array.mpr fun w hw => ih w hw (Value.isOrdered_array.mp hordered w hw)
  | _ => exact everyObject_leaf rfl rfl

/-- A flag of the detector and the test that sets it. -/
structure IsFlag (flag : Spec31Features → Bool) (test : List (String × Value) → Bool) : Prop where
  mark : ∀ obj features, flag (markFeatures obj features) = (flag features || test obj)

/-- **A flag is set exactly if it was set before or some object sets it.** -/
theorem detect31FeaturesWalk_iff {flag : Spec31Features → Bool}
    {test : List (String × Value) → Bool} (hflag : IsFlag flag test) (v : Value) :
    ∀ features, flag (detect31FeaturesWalk v features) = false ↔
      flag features = false ∧ EveryObject (fun obj => test obj = false) v := by
  induction v using Value.induction with
  | object obj ih =>
      intro features
      have hentries : ∀ es : List (String × Value), es ⊆ obj → ∀ features,
          flag (detectEntries es features) = false ↔ flag features = false ∧
            ∀ e ∈ es, EveryObject (fun obj => test obj = false) e.2 := by
        intro es hes
        induction es with
        | nil => simp [detectEntries]
        | cons e es ihes =>
            intro features
            rw [List.cons_subset] at hes
            rw [detectEntries, ihes hes.2, ih e hes.1, List.forall_mem_cons, and_assoc]
      rw [detect31FeaturesWalk, hentries obj (List.Subset.refl obj), hflag.mark,
        Bool.or_eq_false_iff, everyObject_object, and_assoc]
  | array arr ih =>
      intro features
      have hitems : ∀ vs : List Value, vs ⊆ arr → ∀ features,
          flag (detectItems vs features) = false ↔ flag features = false ∧
            ∀ w ∈ vs, EveryObject (fun obj => test obj = false) w := by
        intro vs hvs
        induction vs with
        | nil => simp [detectItems]
        | cons w vs ihvs =>
            intro features
            rw [List.cons_subset] at hvs
            rw [detectItems, ihvs hvs.2, ih w hvs.1, List.forall_mem_cons, and_assoc]
      rw [detect31FeaturesWalk, hitems arr (List.Subset.refl arr), everyObject_array]
  | _ => exact fun features => (and_iff_left (everyObject_leaf rfl rfl)).symm

theorem detect31Features_of_everyObject {flag : Spec31Features → Bool}
    (test : List (String × Value) → Bool) (hflag : IsFlag flag test)
    (hdefault : flag Spec31Features.default = false)
    (h : EveryObject (fun obj => test obj = false) v) : flag (detect31Features v) = false :=
  (detect31FeaturesWalk_iff hflag v _).mpr ⟨hdefault, h⟩

/-! ## §3  The first pass -/

/-- A `$ref` member is a non-empty string. -/
def RefNamed (obj : List (String × Value)) : Prop :=
  ∀ w, obj.lookup "$ref" = some w → ∃ r, r ≠ "" ∧ w = .string r

/-- A reference has no siblings. -/
def RefAlone (obj : List (String × Value)) : Prop :=
  ∀ w, obj.lookup "$ref" = some w → ∃ r, obj = [("$ref", .string r)]

theorem refAlone_of_lookup (h : obj.lookup "$ref" = none) : RefAlone obj := by
  intro w hw
  rw [h] at hw
  cases hw

/-- What holds of an empty object, and of a document that `paths` is put into. -/
theorem everyObject_ensurePaths (hempty : P [])
    (hinsert : ∀ obj w, P obj → P (BTreeMap.insertKey "paths" w obj)) (h : EveryObject P v) :
    EveryObject P (ensurePaths v) := by
  unfold ensurePaths
  split
  · cases v with
    | object obj =>
        obtain ⟨hself, hparts⟩ := everyObject_object.mp h
        apply everyObject_object.mpr
        refine ⟨hinsert obj _ hself, fun e he => ?_⟩
        rcases BTreeMap.mem_insertKey he with rfl | he
        · exact everyObject_object.mpr ⟨hempty, List.forall_mem_nil _⟩
        · exact hparts e he
    | _ => exact h
  · exact h

theorem refNamed_ensurePaths (h : EveryObject RefNamed v) :
    EveryObject RefNamed (ensurePaths v) := by
  apply everyObject_ensurePaths _ _ h
  · intro w hw
    cases hw
  · intro obj w hobj w' hw'
    rw [BTreeMap.lookup_insertKey_ne (by decide)] at hw'
    exact hobj w' hw'

theorem isOrdered_ensurePaths (h : v.isOrdered = true) : (ensurePaths v).isOrdered = true := by
  unfold ensurePaths
  split
  · cases v with
    | object obj =>
        obtain ⟨hsorted, hparts⟩ := Value.isOrdered_object.mp h
        apply Value.isOrdered_object.mpr
        refine ⟨BTreeMap.sorted_insertKey hsorted, fun e he => ?_⟩
        rcases BTreeMap.mem_insertKey he with rfl | he
        · rfl
        · exact hparts e he
    | _ => exact h
  · exact h

/-- A named reference that is not moved has nothing next to it. -/
theorem eq_singleton_of_siblingRef (hsorted : BTreeMap.Sorted obj) (hnamed : RefNamed obj)
    (hsibling : siblingRef obj = none) {w : Value} (hw : obj.lookup "$ref" = some w) :
    ∃ r, obj = [("$ref", .string r)] := by
  obtain ⟨r, hr, rfl⟩ := hnamed w hw
  have halone : BTreeMap.removeKey "$ref" obj = [] := by
    by_contra hne
    simp [siblingRef, hw, Value.asStr, hr, hne] at hsibling
  have hkeys : ∀ e ∈ obj, e.1 = "$ref" := by
    intro e he
    by_contra hne
    have hmem : e ∈ BTreeMap.removeKey "$ref" obj := List.mem_filter.mpr ⟨he, by simpa using hne⟩
    rw [halone] at hmem
    exact absurd hmem List.not_mem_nil
  refine ⟨r, List.perm_singleton.mp ?_⟩
  rw [List.perm_ext_iff_of_nodup hsorted.nodup.of_map (List.nodup_singleton _)]
  intro e
  rw [List.mem_singleton]
  constructor
  · intro he
    have hlookup := lookup_eq_some_of_mem hsorted.nodup (show (e.1, e.2) ∈ obj from he)
    rw [hkeys e he, hw, Option.some.injEq] at hlookup
    exact Prod.ext (hkeys e he) hlookup.symm
  · rintro rfl
    exact mem_of_lookup_eq_some hw

/-- What the first pass makes of every object: a wrapper with the reference alone and its siblings
without it, or the object as it was. -/
theorem everyObject_extract (hwrapper : ∀ w, Q [("allOf", w)])
    (hreference : ∀ ref, Q [("$ref", .string ref)])
    (hsiblings : ∀ obj, P obj → Q (BTreeMap.removeKey "$ref" (extractEntries obj)))
    (hwhole : ∀ obj, P obj → siblingRef obj = none → Q (extractEntries obj))
    (h : EveryObject P v) : EveryObject Q (extractRefSiblings v) := by
  induction v using Value.induction with
  | object obj ih =>
      obtain ⟨hself, hparts⟩ := everyObject_object.mp h
      have hentries : ∀ e ∈ extractEntries obj, EveryObject Q e.2 := by
        intro e he
        rw [extractEntries_eq] at he
        obtain ⟨e', he', rfl⟩ := List.mem_map.mp he
        exact ih e' he' (hparts e' he')
      rw [extractRefSiblings]
      cases hsibling : siblingRef obj with
      | some ref =>
          have hsplit : EveryObject Q
              (.object (BTreeMap.removeKey "$ref" (extractEntries obj))) := by
            apply everyObject_object.mpr
            refine ⟨hsiblings obj hself, fun e he => ?_⟩
            exact hentries e (List.mem_of_mem_filter he)
          have hlone : EveryObject Q (.object [("$ref", .string ref)]) := by
            apply everyObject_object.mpr
            refine ⟨hreference ref, fun e he => ?_⟩
            rw [List.mem_singleton.mp he]
            exact everyObject_leaf rfl rfl
          apply everyObject_object.mpr
          refine ⟨hwrapper _, fun e he => ?_⟩
          rw [List.mem_singleton.mp he]
          apply everyObject_array.mpr
          intro w hw
          rcases List.mem_pair.mp hw with rfl | rfl
          · exact hlone
          · exact hsplit
      | none => exact everyObject_object.mpr ⟨hwhole obj hself hsibling, hentries⟩
  | array arr ih =>
      rw [extractRefSiblings, extractItems_eq]
      apply everyObject_array.mpr
      intro w hw
      obtain ⟨w', hw', rfl⟩ := List.mem_map.mp hw
      exact ih w' hw' (everyObject_array.mp h w' hw')
  | _ => exact everyObject_leaf rfl rfl

theorem everyObject_extractRefSiblings (hordered : v.isOrdered = true)
    (h : EveryObject RefNamed v) : EveryObject RefAlone (extractRefSiblings v) := by
  apply everyObject_extract _ _ _ _ ((everyObject_sorted hordered).and h)
  · exact fun w => refAlone_of_lookup rfl
  · exact fun ref w hw => ⟨ref, rfl⟩
  · exact fun obj hobj => refAlone_of_lookup (BTreeMap.lookup_removeKey_self _ _)
  · intro obj ⟨hsorted, hself⟩ hsibling w hw
    rw [extractEntries_eq, BTreeMap.lookup_mapEntries] at hw
    obtain ⟨w', hw', -⟩ := Option.map_eq_some_iff.mp hw
    obtain ⟨r, rfl⟩ := eq_singleton_of_siblingRef hsorted hself hsibling hw'
    exact ⟨r, rfl⟩

/-! ## §4  The second pass -/

/-- None of the constructs that the downgrade converts. -/
structure Converted (obj : List (String × Value)) : Prop where
  refAlone : RefAlone obj
  removed : ∀ k ∈ removedKeywords, obj.lookup k = none
  exclusive : ∀ field ∈ ["exclusiveMinimum", "exclusiveMaximum"], ∀ n,
    obj.lookup field ≠ some (.number n)

/-- The members, those apart whose values are read and not moved. -/
def Movable (P : Value → Prop) (obj : List (String × Value)) : Prop :=
  ∀ e ∈ obj, e.1 ≠ "dependentRequired" → P e.2

theorem Movable.insertKey {P : Value → Prop} {k : String} {w : Value} (h : Movable P obj)
    (hw : P w) : Movable P (BTreeMap.insertKey k w obj) := by
  intro e he hne
  rcases BTreeMap.mem_insertKey he with rfl | he
  · exact hw
  · exact h e he hne

theorem Movable.removeKey {P : Value → Prop} (k : String) (h : Movable P obj) :
    Movable P (BTreeMap.removeKey k obj) :=
  fun e he hne => h e (List.mem_of_mem_filter he) hne

theorem Movable.lookup {P : Value → Prop} {k : String} {w : Value} (h : Movable P obj)
    (hk : k ≠ "dependentRequired") (hw : obj.lookup k = some w) : P w :=
  h (k, w) (mem_of_lookup_eq_some hw) hk

theorem Movable.downgradeType (h : Movable (EveryObject P) obj) :
    Movable (EveryObject P) (downgradeType obj) := by
  unfold SpecForge.downgradeType
  cases htype : obj.lookup "type" with
  | none => exact h
  | some t =>
      cases t with
      | array arr =>
          dsimp only
          split
          · have harr := everyObject_array.mp (h.lookup (by decide) htype)
            cases hrest : arr.filter fun v => !isNullName v with
            | nil => exact (h.removeKey "type").insertKey (everyObject_leaf rfl rfl)
            | cons t ts =>
                cases ts with
                | nil =>
                    have ht : t ∈ arr := List.mem_of_mem_filter (hrest ▸ List.mem_cons_self)
                    exact (h.insertKey (harr t ht)).insertKey (everyObject_leaf rfl rfl)
                | cons _ _ => exact h
          · exact h
      | _ => exact h

theorem Movable.downgradeExclusive (field : String) (h : Movable (EveryObject P) obj) :
    Movable (EveryObject P) (downgradeExclusive field obj) := by
  unfold SpecForge.downgradeExclusive
  split
  · exact h.insertKey (everyObject_leaf rfl rfl)
  · exact h

theorem Movable.downgradeConst (h : Movable (EveryObject P) obj) :
    Movable (EveryObject P) (downgradeConst obj) := by
  unfold SpecForge.downgradeConst
  split
  · next c hc =>
      apply (h.removeKey "const").insertKey
      apply everyObject_array.mpr
      intro w hw
      rw [List.mem_singleton.mp hw]
      exact h.lookup (by decide) hc
  · exact h

theorem everyObject_pushRequired {required : List Value} {extra : List String}
    (h : EveryObject P (.array required)) :
    EveryObject P (.array (pushRequired required extra)) := by
  unfold pushRequired
  induction extra generalizing required with
  | nil => exact h
  | cons dep extra ih =>
      rw [List.foldl_cons]
      apply ih
      split
      · exact h
      · apply everyObject_array.mpr
        intro w hw
        rcases List.mem_append.mp hw with hw | hw
        · exact everyObject_array.mp h w hw
        · rw [List.mem_singleton.mp hw]
          exact everyObject_leaf rfl rfl

theorem Movable.downgradeDependentRequired (h : Movable (EveryObject P) obj) :
    Movable (EveryObject P) (downgradeDependentRequired obj) := by
  have hrest := h.removeKey "dependentRequired"
  unfold SpecForge.downgradeDependentRequired
  cases obj.lookup "dependentRequired" with
  | none => exact h
  | some depReq =>
      dsimp only
      split
      · exact hrest
      · cases hlookup : (BTreeMap.removeKey "dependentRequired" obj).lookup "required" with
        | none =>
            apply hrest.insertKey
            exact everyObject_pushRequired (everyObject_array.mpr (List.forall_mem_nil _))
        | some w =>
            cases w with
            | array required =>
                apply hrest.insertKey
                exact everyObject_pushRequired (hrest.lookup (by decide) hlookup)
            | _ => exact hrest

theorem Movable.downgradePrefixItems (h : Movable (EveryObject P) obj) :
    Movable (EveryObject P) (downgradePrefixItems obj) := by
  have hrest := h.removeKey "prefixItems"
  unfold SpecForge.downgradePrefixItems
  cases hlookup : obj.lookup "prefixItems" with
  | none => exact h
  | some w =>
      cases w with
      | array arr =>
          cases arr with
          | nil => exact hrest
          | cons item items =>
              apply hrest.insertKey
              exact everyObject_array.mp (h.lookup (by decide) hlookup) item List.mem_cons_self
      | _ => exact hrest

/-- The rewriting of keywords only moves values. -/
theorem Movable.downgradeKeywords (h : Movable (EveryObject P) obj) :
    ∀ e ∈ downgradeKeywords obj, EveryObject P e.2 := by
  have hall : Movable (EveryObject P) (SpecForge.downgradeKeywords obj) :=
    ((((h.downgradeType.downgradeExclusive _).downgradeExclusive
      _).downgradeConst).downgradeDependentRequired).downgradePrefixItems
  intro e he
  apply hall e he
  intro hkey
  have hnone : (SpecForge.downgradeKeywords obj).lookup "dependentRequired" = none :=
    lookup_downgradeKeywords_removed (by decide)
  exact lookup_eq_none_iff.mp hnone (hkey ▸ List.mem_map_of_mem he)

/-- What the second pass makes of every object, whose values are all done before its keywords. -/
theorem everyObject_downgrade
    (hobject : ∀ obj, P obj → Q (downgradeKeywords (downgradeEntries obj)))
    (h : EveryObject P v) : EveryObject Q (downgradeValue v) := by
  induction v using Value.induction with
  | object obj ih =>
      obtain ⟨hself, hparts⟩ := everyObject_object.mp h
      have hentries : Movable (EveryObject Q) (downgradeEntries obj) := by
        intro e he hne
        rw [downgradeEntries_eq] at he
        obtain ⟨e', he', rfl⟩ := List.mem_map.mp he
        show EveryObject Q (downgradeEntry e'.1 e'.2)
        rw [downgradeEntry_of_ne hne]
        exact ih e' he' (hparts e' he')
      rw [downgradeValue]
      exact everyObject_object.mpr ⟨hobject obj hself, hentries.downgradeKeywords⟩
  | array arr ih =>
      rw [downgradeValue_array]
      apply everyObject_array.mpr
      intro w hw
      obtain ⟨w', hw', rfl⟩ := List.mem_map.mp hw
      exact ih w' hw' (everyObject_array.mp h w' hw')
  | _ => exact everyObject_leaf rfl rfl

theorem lookup_downgradeKeywords_ref :
    (downgradeKeywords obj).lookup "$ref" = obj.lookup "$ref" :=
  lookup_downgradeKeywords_of_notMem (by decide)

theorem lookup_downgradeExclusive_self {field : String} (n : Number) :
    (downgradeExclusive field obj).lookup field ≠ some (.number n) := by
  unfold downgradeExclusive
  split
  · rw [BTreeMap.lookup_insertKey_self]
    simp
  · next hother => exact hother n

/-- No bound is a number any more. -/
theorem lookup_downgradeKeywords_ne_number {field : String}
    (hfield : field ∈ ["exclusiveMinimum", "exclusiveMaximum"]) (n : Number) :
    (downgradeKeywords obj).lookup field ≠ some (.number n) := by
  unfold downgradeKeywords
  rcases List.mem_pair.mp hfield with rfl | rfl
  · rw [lookup_downgradePrefixItems_ne (by decide) (by decide),
      lookup_downgradeDependentRequired_ne (by decide) (by decide),
      lookup_downgradeConst_ne (by decide) (by decide), lookup_downgradeExclusive_ne (by decide)]
    exact lookup_downgradeExclusive_self n
  · rw [lookup_downgradePrefixItems_ne (by decide) (by decide),
      lookup_downgradeDependentRequired_ne (by decide) (by decide),
      lookup_downgradeConst_ne (by decide) (by decide)]
    exact lookup_downgradeExclusive_self n

theorem converted_downgradeKeywords (h : RefAlone obj) : Converted (downgradeKeywords obj) where
  refAlone := by
    intro w hw
    rw [lookup_downgradeKeywords_ref] at hw
    obtain ⟨r, rfl⟩ := h w hw
    exact ⟨r, rfl⟩
  removed := fun k hk => lookup_downgradeKeywords_removed hk
  exclusive := fun _ hfield n => lookup_downgradeKeywords_ne_number hfield n

theorem everyObject_downgradeValue (h : EveryObject RefAlone v) :
    EveryObject Converted (downgradeValue v) := by
  apply everyObject_downgrade _ h
  intro obj hself
  apply converted_downgradeKeywords
  intro w hw
  rw [downgradeEntries_eq, BTreeMap.lookup_mapEntries] at hw
  obtain ⟨w', hw', -⟩ := Option.map_eq_some_iff.mp hw
  obtain ⟨r, rfl⟩ := hself w' hw'
  exact ⟨r, rfl⟩

/-! ## §5  Both passes -/

theorem everyObject_downgrade31To30 (hordered : v.isOrdered = true)
    (h : EveryObject RefNamed v) : EveryObject Converted (downgrade31To30 v) :=
  everyObject_downgradeValue
    (everyObject_extractRefSiblings (isOrdered_ensurePaths hordered) (refNamed_ensurePaths h))

theorem Converted.hasRefSiblings_eq (h : Converted obj) : hasRefSiblings obj = false := by
  unfold hasRefSiblings
  cases hw : obj.lookup "$ref" with
  | none => rfl
  | some w =>
      obtain ⟨r, rfl⟩ := h.refAlone w hw
      rfl

theorem Converted.hasKeyword_eq (h : Converted obj) {k : String} (hk : k ∈ removedKeywords) :
    hasKeyword k obj = false := by
  rw [hasKeyword, h.removed k hk]
  rfl

theorem Converted.hasNumericExclusiveBounds_eq (h : Converted obj) :
    hasNumericExclusiveBounds obj = false := by
  have hno : ∀ field ∈ ["exclusiveMinimum", "exclusiveMaximum"], hasNumber field obj = false := by
    intro field hfield
    have hnot := h.exclusive field hfield
    unfold hasNumber
    cases hw : obj.lookup field with
    | none => rfl
    | some w =>
        cases w with
        | number n => exact absurd hw (hnot n)
        | _ => rfl
  rw [hasNumericExclusiveBounds, hno _ (by simp), hno _ (by simp), Bool.or_false]

/-- **Of a downgraded document the detector reports no converted construct, at any depth.** -/
theorem detect31Features_downgrade31To30 (j : Value) (hordered : j.isOrdered = true)
    (hrefs : EveryObject RefNamed j) :
    (detect31Features (downgrade31To30 j)).usesRefSiblings = false ∧
      (detect31Features (downgrade31To30 j)).usesConst = false ∧
      (detect31Features (downgrade31To30 j)).usesPrefixItems = false ∧
      (detect31Features (downgrade31To30 j)).usesDependentRequired = false ∧
      (detect31Features (downgrade31To30 j)).usesNumericExclusiveBounds = false := by
  have hconverted := everyObject_downgrade31To30 hordered hrefs
  refine ⟨?_, ?_, ?_, ?_, ?_⟩
  · apply detect31Features_of_everyObject hasRefSiblings ⟨fun _ _ => rfl⟩ rfl
    exact hconverted.mono fun obj hobj => hobj.hasRefSiblings_eq
  · apply detect31Features_of_everyObject (hasKeyword "const") ⟨fun _ _ => rfl⟩ rfl
    exact hconverted.mono fun obj hobj => hobj.hasKeyword_eq (by decide)
  · apply detect31Features_of_everyObject (hasKeyword "prefixItems") ⟨fun _ _ => rfl⟩ rfl
    exact hconverted.mono fun obj hobj => hobj.hasKeyword_eq (by decide)
  · apply detect31Features_of_everyObject (hasKeyword "dependentRequired")
      ⟨fun _ _ => rfl⟩ rfl
    exact hconverted.mono fun obj hobj => hobj.hasKeyword_eq (by decide)
  · apply detect31Features_of_everyObject hasNumericExclusiveBounds ⟨fun _ _ => rfl⟩ rfl
    exact hconverted.mono fun obj hobj => hobj.hasNumericExclusiveBounds_eq

end

/-- A tuple whose first item is a reference with a sibling, which is a constant. -/
def tupleSchema : Value :=
  .object [("prefixItems", .array [.object [("$ref", .string "#/components/schemas/Pet"),
    ("description", .object [("const", .null)])]])]

theorem detect31Features_tupleSchema :
    (detect31Features (downgrade31To30 tupleSchema)).usesRefSiblings = false ∧
      (detect31Features (downgrade31To30 tupleSchema)).usesConst = false ∧
      (detect31Features (downgrade31To30 tupleSchema)).usesPrefixItems = false ∧
      (detect31Features (downgrade31To30 tupleSchema)).usesDependentRequired = false ∧
      (detect31Features (downgrade31To30 tupleSchema)).usesNumericExclusiveBounds = false := by
  apply detect31Features_downgrade31To30
  · decide
  · have hnull : EveryObject RefNamed .null := everyObject_leaf rfl rfl
    have hstring : ∀ s, EveryObject RefNamed (.string s) := fun s => everyObject_leaf rfl rfl
    simp [tupleSchema, everyObject_object, everyObject_array, hnull, hstring, RefNamed,
      List.lookup_cons]

end SpecForge
