import SpecForge.Core.Downgraded
import SpecForge.Core.Features31

/-!
# Downgrading twice

The result of the downgrade is in a normal form: no object of it has anything left to convert.
A second downgrade would leave it alone, were it not for `paths`, which is put into the document
before its reference, if it has one, moves everything into an `allOf`.

- §1 the normal form; §2 the first pass; §3 the second; §4 the whole document.
-/

namespace SpecForge

open Lib

section

variable {obj : List (String × Value)} {v : Value}

/-! ## §1  The normal form -/

/-- A `type` that is an array has only names in it. -/
def TypesNamed (obj : List (String × Value)) : Prop :=
  ∀ arr, obj.lookup "type" = some (.array arr) → ∀ t ∈ arr, ∃ name, t = .string name

/-- What the first pass leaves for the second. -/
structure Split (obj : List (String × Value)) : Prop where
  bare : siblingRef obj = none
  types : TypesNamed obj

theorem inert_of_everyObject (h : EveryObject (fun obj => Untouched (.object obj)) v) :
    Inert v := by
  induction h with
  | @mk v hself _ ih =>
      refine inert_of_parts ?_ ih
      cases v with
      | object obj => exact hself obj rfl
      | _ => exact untouched_of_not_object rfl

/-! ## §2  The first pass -/

theorem TypesNamed.extract (h : TypesNamed obj) :
    TypesNamed (BTreeMap.mapEntries (fun _ => extractRefSiblings) obj) := by
  intro arr harr t ht
  rw [BTreeMap.lookup_mapEntries] at harr
  obtain ⟨w, hw, hextract⟩ := Option.map_eq_some_iff.mp harr
  obtain ⟨ts, rfl, rfl⟩ := extractRefSiblings_array hextract
  obtain ⟨t', ht', rfl⟩ := List.mem_map.mp ht
  obtain ⟨name, rfl⟩ := h ts hw t' ht'
  exact ⟨name, rfl⟩

theorem TypesNamed.removeKey {k : String} (hk : k ≠ "type") (h : TypesNamed obj) :
    TypesNamed (BTreeMap.removeKey k obj) := by
  intro arr harr
  rw [BTreeMap.lookup_removeKey_ne hk.symm] at harr
  exact h arr harr

theorem everyObject_split (h : EveryObject TypesNamed v) :
    EveryObject Split (extractRefSiblings v) := by
  apply everyObject_extract _ _ _ _ h
  · exact fun w => ⟨rfl, fun arr harr => by cases harr⟩
  · intro ref
    refine ⟨?_, fun arr harr => by cases harr⟩
    simp [siblingRef, BTreeMap.removeKey, Value.asStr]
  · intro obj hself
    refine ⟨siblingRef_removeKey _, ?_⟩
    rw [extractEntries_eq]
    exact hself.extract.removeKey (by decide)
  · intro obj hself hsibling
    rw [extractEntries_eq]
    refine ⟨?_, hself.extract⟩
    rw [siblingRef_extract]
    exact hsibling

/-! ## §3  The second pass -/

theorem downgradeValue_eq_array {arr : List Value} (h : downgradeValue v = .array arr) :
    ∃ ts, v = .array ts ∧ arr = ts.map downgradeValue := by
  cases v with
  | array ts =>
      rw [downgradeValue_array] at h
      exact ⟨ts, rfl, (Value.array.inj h).symm⟩
  | object obj => cases h
  | _ => cases h

/-- Going into the values changes nothing that the first pass has done. -/
theorem Split.downgradeEntries (h : Split obj) : Split (downgradeEntries obj) := by
  rw [downgradeEntries_eq]
  constructor
  · rw [siblingRef_mapEntries]
    · exact h.bare
    · exact fun w => asStr_downgradeValue
  · intro arr harr t ht
    rw [BTreeMap.lookup_mapEntries] at harr
    obtain ⟨w, hw, hentry⟩ := Option.map_eq_some_iff.mp harr
    obtain ⟨ts, rfl, rfl⟩ := downgradeValue_eq_array hentry
    obtain ⟨t', ht', rfl⟩ := List.mem_map.mp ht
    obtain ⟨name, rfl⟩ := h.types ts hw t' ht'
    exact ⟨name, rfl⟩

/-- A reference that is alone stays alone: there is no keyword next to it. -/
theorem siblingRef_downgradeKeywords (h : siblingRef obj = none) :
    siblingRef (downgradeKeywords obj) = none := by
  by_cases halone : BTreeMap.removeKey "$ref" obj = []
  · have hnone : ∀ k, k ≠ "$ref" → obj.lookup k = none := by
      intro k hk
      rw [← BTreeMap.lookup_removeKey_ne hk, halone]
      rfl
    have huntouched : Untouched (.object obj) := by
      refine ⟨congrArg Option.isSome h, fun k hk => hnone k ?_, fun field hfield n hn => ?_,
        fun arr harr => ?_⟩
      · rintro rfl
        exact absurd hk (by decide)
      · have hfield' : field ≠ "$ref" := by
          rintro rfl
          exact absurd hfield (by decide)
        rw [Value.get_object, hnone field hfield'] at hn
        cases hn
      · rw [Value.get_object, hnone "type" (by decide)] at harr
        cases harr
    rw [downgradeKeywords_of_untouched huntouched]
    exact h
  · unfold siblingRef at h ⊢
    rw [lookup_downgradeKeywords_ref]
    split
    · next ref href =>
        have hempty : ref = "" := by
          by_contra hne
          rw [href] at h
          simp [hne, halone] at h
        exact if_neg fun hand => hand.1 hempty
    · rfl

theorem untouched_downgradeKeywords (h : Split obj) :
    Untouched (.object (downgradeKeywords obj)) where
  bare := congrArg Option.isSome (siblingRef_downgradeKeywords h.bare)
  present := fun _ hk => lookup_downgradeKeywords_removed hk
  exclusive := fun _ hfield n => lookup_downgradeKeywords_ne_number hfield n
  nullable := by
    intro arr harr hany
    rw [Value.get_object, lookup_downgradeKeywords_type] at harr
    unfold downgradeType at harr
    split at harr
    · next ts hts =>
        split at harr
        · split at harr
          · next t hone =>
              -- one type is left, and it is a name
              rw [BTreeMap.lookup_insertKey_ne (by decide), BTreeMap.lookup_insertKey_self] at harr
              have ht : t ∈ ts := List.mem_of_mem_filter (hone ▸ List.mem_cons_self)
              obtain ⟨name, rfl⟩ := h.types ts hts t ht
              cases harr
          · rw [BTreeMap.lookup_insertKey_ne (by decide), BTreeMap.lookup_removeKey_self] at harr
            cases harr
          · next hnone hmany =>
              rw [hts] at harr
              obtain rfl := Value.array.inj (Option.some.inj harr)
              rcases hrest : ts.filter fun t => !isNullName t with _ | ⟨t, _ | ⟨t', rest⟩⟩
              · exact absurd hrest hmany
              · exact absurd hrest (hnone t)
              · simp
        · next hnone =>
            rw [hts] at harr
            obtain rfl := Value.array.inj (Option.some.inj harr)
            exact absurd hany hnone
    · next hother => exact absurd harr (hother arr)

theorem everyObject_untouched (h : EveryObject Split v) :
    EveryObject (fun obj => Untouched (.object obj)) (downgradeValue v) :=
  everyObject_downgrade (fun _ hself => untouched_downgradeKeywords hself.downgradeEntries) h

/-- **Both passes together do nothing the second time.** -/
theorem downgraded_downgraded (h : EveryObject TypesNamed v) :
    downgraded (downgraded v) = downgraded v :=
  downgraded_eq_self_iff.mpr (inert_of_everyObject (everyObject_untouched (everyObject_split h)))

/-! ## §4  The whole document -/

theorem typesNamed_ensurePaths (h : EveryObject TypesNamed v) :
    EveryObject TypesNamed (ensurePaths v) := by
  apply everyObject_ensurePaths _ _ h
  · intro arr harr
    cases harr
  · intro obj w hobj arr harr
    rw [BTreeMap.lookup_insertKey_ne (by decide)] at harr
    exact hobj arr harr

theorem ensurePaths_of_get {w : Value} (h : v.get "paths" = some w) : ensurePaths v = v := by
  unfold ensurePaths
  rw [h]

theorem ensurePaths_not_object (h : v.isObject = false) : ensurePaths v = v := by
  unfold ensurePaths
  split
  · exact Value.insert_of_not_object h
  · rfl

theorem downgraded_not_object (h : v.isObject = false) : (downgraded v).isObject = false := by
  cases v with
  | array arr =>
      rw [downgraded_array]
      rfl
  | object obj => cases h
  | _ => exact h

/-- A document with `paths` in it has siblings of its reference. -/
theorem siblingRef_paths {w : Value} (hpaths : obj.lookup "paths" = some w) {ref : String} :
    siblingRef obj = some ref ↔ (Value.object obj).reference = some ref ∧ ref ≠ "" := by
  have hsiblings : BTreeMap.removeKey "$ref" obj ≠ [] := by
    intro hnil
    have hlookup := BTreeMap.lookup_removeKey_ne (show "paths" ≠ "$ref" by decide) obj
    rw [hnil, hpaths] at hlookup
    cases hlookup
  rw [siblingRef, Value.reference, Value.get_object]
  cases (obj.lookup "$ref").bind Value.asStr with
  | none => simp
  | some r =>
      dsimp only
      by_cases hr : r = ""
      · rw [if_neg fun h => h.1 hr]
        refine iff_of_false (by simp) ?_
        rintro ⟨heq, hne⟩
        exact hne (Option.some.inj heq ▸ hr)
      · rw [if_pos ⟨hr, hsiblings⟩, Option.some.injEq]
        refine ⟨?_, And.left⟩
        rintro rfl
        exact ⟨rfl, hr⟩

theorem exists_ensurePaths (obj : List (String × Value)) :
    ∃ obj' w, ensurePaths (.object obj) = .object obj' ∧ obj'.lookup "paths" = some w ∧
      (Value.object obj').reference = (Value.object obj).reference := by
  unfold ensurePaths
  split
  · refine ⟨_, _, rfl, BTreeMap.lookup_insertKey_self _ _ _, ?_⟩
    rw [Value.reference, Value.get_object, BTreeMap.lookup_insertKey_ne (by decide)]
    rfl
  · next w hw => exact ⟨obj, w, rfl, hw, rfl⟩

/-- **The downgrade of a document is the same the second time exactly if the document as a
whole has no reference in it.** -/
theorem downgrade31To30_twice_iff (j : Value) (htypes : EveryObject TypesNamed j) :
    downgrade31To30 (downgrade31To30 j) = downgrade31To30 j ↔
      ∀ ref, j.reference = some ref → ref = "" := by
  have htwice := downgraded_downgraded (typesNamed_ensurePaths htypes)
  have hdowngrade : ∀ v, downgrade31To30 v = downgraded (ensurePaths v) := fun _ => rfl
  cases hobject : j.isObject with
  | false =>
      refine iff_of_true ?_ fun ref href => ?_
      · rw [hdowngrade j, hdowngrade, ensurePaths_not_object hobject,
          ensurePaths_not_object (downgraded_not_object hobject)]
        rwa [ensurePaths_not_object hobject] at htwice
      · rw [Value.reference, Value.get_of_not_object hobject] at href
        cases href
  | true =>
      obtain ⟨obj, rfl⟩ := Value.isObject_iff.mp hobject
      obtain ⟨obj', w, hensured, hpaths, href⟩ := exists_ensurePaths obj
      rw [hensured] at htwice
      rw [hdowngrade (.object obj), hensured, hdowngrade, ← href]
      cases hsibling : siblingRef obj' with
      | none =>
          refine iff_of_true ?_ fun ref hnamed => ?_
          · have hget : (downgraded (.object obj')).get "paths" =
                some (downgradeValue (extractRefSiblings w)) := by
              rw [get_downgraded hsibling, lookup_downgradeKeywords_of_notMem (by decide),
                BTreeMap.lookup_mapEntries, hpaths]
              rfl
            rw [ensurePaths_of_get hget]
            exact htwice
          · by_contra hne
            rw [(siblingRef_paths hpaths).mpr ⟨hnamed, hne⟩] at hsibling
            cases hsibling
      | some ref =>
          -- the second time there is no `paths` any more
          obtain ⟨hnamed, hne⟩ := (siblingRef_paths hpaths).mp hsibling
          refine iff_of_false (fun hsame => ?_) fun h => hne (h ref hnamed)
          have hget := congrArg (Value.get · "paths") hsame
          rw [downgraded_wrapper hsibling] at hget
          generalize downgraded (.object (BTreeMap.removeKey "$ref" obj')) = rest at hget
          obtain ⟨wrapped, w', hwrapped, hpaths', href'⟩ := exists_ensurePaths
            [("allOf", .array [.object [("$ref", .string ref)], rest])]
          have hnone : siblingRef wrapped = none := by
            apply Option.eq_none_iff_forall_ne_some.mpr
            intro ref' hsibling'
            have hnamed' := ((siblingRef_paths hpaths').mp hsibling').1
            rw [href'] at hnamed'
            cases hnamed'
          rw [hwrapped] at hget
          rw [get_downgraded hnone, lookup_downgradeKeywords_of_notMem (by decide),
            BTreeMap.lookup_mapEntries, hpaths'] at hget
          cases hget

end

/-- A type that is nullable and a constant, in a schema with a sibling of its reference. -/
def nullableSchema : Value :=
  .object [("$ref", .string ""), ("const", .object [("const", .null)]),
    ("type", .array [.string "string", .string "null"])]

theorem downgrade31To30_twice_nullableSchema :
    downgrade31To30 (downgrade31To30 nullableSchema) = downgrade31To30 nullableSchema := by
  have hnull : EveryObject TypesNamed .null := everyObject_leaf rfl rfl
  have hstring : ∀ s, EveryObject TypesNamed (.string s) := fun s => everyObject_leaf rfl rfl
  have htypes : EveryObject TypesNamed nullableSchema := by
    simp [nullableSchema, everyObject_object, everyObject_array, hnull, hstring, TypesNamed,
      List.lookup_cons]
  apply (downgrade31To30_twice_iff nullableSchema htypes).mpr
  intro ref href
  exact (Option.some.inj href).symm

/-- A document that is a reference to another one has no `paths` after the downgrade. -/
theorem referring_document_changes : ¬∀ j, EveryObject TypesNamed j →
    downgrade31To30 (downgrade31To30 j) = downgrade31To30 j := by
  intro h
  have hstring : ∀ s, EveryObject TypesNamed (.string s) := fun s => everyObject_leaf rfl rfl
  have htypes : EveryObject TypesNamed
      (.object [("$ref", .string "api.json"), ("openapi", .string "3.1.0")]) := by
    simp [everyObject_object, hstring, TypesNamed, List.lookup_cons]
  have hget := congrArg (Value.get · "paths") (h _ htypes)
  have hfirst : (downgrade31To30 (.object [("$ref", .string "api.json"),
      ("openapi", .string "3.1.0")])).get "paths" = none := by decide +kernel
  have hsecond : ((downgrade31To30 (downgrade31To30 (.object [("$ref", .string "api.json"),
      ("openapi", .string "3.1.0")]))).get "paths").isSome = true := by decide +kernel
  rw [hget, hfirst] at hsecond
  cases hsecond

end SpecForge
