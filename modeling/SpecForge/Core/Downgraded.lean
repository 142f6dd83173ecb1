import SpecForge.Core.Positions

/-!
# Downgraded values

What both passes together do to a value: to the members of an object and to the entries of
a map of names (§1), which values they leave alone (§2), which keywords stay (§3), and what
the rewriting reads (§4).
-/

namespace SpecForge

open Lib

/-! ## §1  Members and entries -/

section

variable {obj : List (String × Value)} {k : String} {v w : Value}

theorem asStr_extractRefSiblings (v : Value) : (extractRefSiblings v).asStr = v.asStr := by
  cases v with
  | object obj =>
      rw [extractRefSiblings]
      split <;> rfl
  | _ => rfl

theorem isNullName_extractRefSiblings (v : Value) :
    isNullName (extractRefSiblings v) = isNullName v := by
  rw [isNullName, asStr_extractRefSiblings, isNullName]

theorem firstPrefixItem_extract :
    firstPrefixItem (BTreeMap.mapEntries (fun _ => extractRefSiblings) obj) =
      (firstPrefixItem obj).map extractRefSiblings := by
  unfold firstPrefixItem
  rw [BTreeMap.lookup_mapEntries]
  cases obj.lookup "prefixItems" with
  | none => rfl
  | some p =>
      cases p with
      | array items =>
          cases items <;> rfl
      | object o =>
          rw [Option.map_some, Option.bind_some, extractRefSiblings]
          cases siblingRef o <;> rfl
      | _ => rfl

/-- Most keywords are rewritten in the same way before and after the first pass. -/
theorem lookup_downgradeKeywords_extract
    (hk : k ∉ ["exclusiveMinimum", "exclusiveMaximum", "required"]) :
    (downgradeKeywords (BTreeMap.mapEntries (fun _ => extractRefSiblings) obj)).lookup k =
      ((downgradeKeywords obj).lookup k).map extractRefSiblings := by
  by_cases hmem : k ∈ keywordKeys
  · have htype : downgradeType (BTreeMap.mapEntries (fun _ => extractRefSiblings) obj) =
        BTreeMap.mapEntries (fun _ => extractRefSiblings) (downgradeType obj) := by
      refine downgradeType_mapEntries_of (f := extractRefSiblings) (fun _ => rfl) rfl
        (fun t => ?_) (funext isNullName_extractRefSiblings) obj
      cases t with
      | array ts =>
          rw [extractRefSiblings, extractItems_eq]
          rfl
      | object o =>
          rw [extractRefSiblings]
          split <;> rfl
      | _ => rfl
    have henum : ∀ c, extractRefSiblings (.array [c]) = .array [extractRefSiblings c] := by
      intro c
      rw [extractRefSiblings, extractItems_eq, List.map_singleton]
    have hremoved : ∀ k ∈ removedKeywords,
        (downgradeKeywords (BTreeMap.mapEntries (fun _ => extractRefSiblings) obj)).lookup k =
          ((downgradeKeywords obj).lookup k).map extractRefSiblings := by
      intro k hk
      rw [lookup_downgradeKeywords_removed hk, lookup_downgradeKeywords_removed hk,
        Option.map_none]
    simp only [keywordKeys, List.mem_cons, List.not_mem_nil, or_false, not_or] at hmem hk
    rcases hmem with rfl | rfl | rfl | rfl | rfl | rfl | rfl | rfl | rfl | rfl
    · rw [lookup_downgradeKeywords_type, lookup_downgradeKeywords_type, htype,
        BTreeMap.lookup_mapEntries]
    · rw [lookup_downgradeKeywords_nullable, lookup_downgradeKeywords_nullable, htype,
        BTreeMap.lookup_mapEntries]
    · exact absurd rfl hk.1
    · exact absurd rfl hk.2.1
    · exact hremoved _ (by decide)
    · rw [lookup_downgradeKeywords_enum, lookup_downgradeKeywords_enum,
        BTreeMap.lookup_mapEntries, BTreeMap.lookup_mapEntries]
      cases obj.lookup "const" with
      | none => rfl
      | some c =>
          show some (Value.array [extractRefSiblings c]) = some (extractRefSiblings (.array [c]))
          rw [henum]
    · exact hremoved _ (by decide)
    · exact absurd rfl hk.2.2
    · exact hremoved _ (by decide)
    · rw [lookup_downgradeKeywords_items, lookup_downgradeKeywords_items,
        firstPrefixItem_extract, BTreeMap.lookup_mapEntries, Option.map_or]
  · rw [lookup_downgradeKeywords_of_notMem hmem, lookup_downgradeKeywords_of_notMem hmem,
      BTreeMap.lookup_mapEntries]

/-- A keyword of a downgraded object: its own are rewritten, what is inside it is downgraded. -/
theorem get_downgraded_keyword (h : siblingRef obj = none)
    (hk : k ∉ ["exclusiveMinimum", "exclusiveMaximum", "required"]) :
    (downgraded (.object obj)).get k = ((downgradeKeywords obj).lookup k).map downgraded := by
  rw [get_downgraded h, lookup_downgradeKeywords_extract hk, Option.map_map]
  rfl

/-- A member that the rewriting of keywords leaves alone. -/
theorem get_downgraded_plain (h : siblingRef obj = none)
    (hk : k ∈ keywordKeys → k = "items" ∧ firstPrefixItem obj = none ∨
      k = "enum" ∧ obj.lookup "const" = none) :
    (downgraded (.object obj)).get k = (obj.lookup k).map downgraded := by
  by_cases hmem : k ∈ keywordKeys
  · rcases hk hmem with ⟨rfl, htuple⟩ | ⟨rfl, hconst⟩
    · rw [get_downgraded_keyword h (by decide), lookup_downgradeKeywords_items, htuple,
        Option.none_or]
    · rw [get_downgraded_keyword h (by decide), lookup_downgradeKeywords_enum, hconst,
        Option.map_none, Option.none_or]
  · have hsub : ["exclusiveMinimum", "exclusiveMaximum", "required"] ⊆ keywordKeys := by decide
    rw [get_downgraded_keyword h fun hk => hmem (hsub hk), lookup_downgradeKeywords_of_notMem hmem]

theorem get_downgraded_items (h : siblingRef obj = none) (hfirst : firstPrefixItem obj = some w) :
    (downgraded (.object obj)).get "items" = some (downgraded w) := by
  rw [get_downgraded_keyword h (by decide), lookup_downgradeKeywords_items, hfirst]
  rfl

/-- The entries under keywords are objects or booleans: the object is a map of names. -/
def NoKeywords (obj : List (String × Value)) : Prop :=
  ∀ k ∈ keywordKeys, ∀ w, obj.lookup k = some w → w.isObject = true ∨ w.isBoolean = true

theorem NoKeywords.extract (h : NoKeywords obj) :
    NoKeywords (BTreeMap.mapEntries (fun _ => extractRefSiblings) obj) := by
  intro k hk w hw
  rw [BTreeMap.lookup_mapEntries] at hw
  obtain ⟨x, hx, rfl⟩ := Option.map_eq_some_iff.mp hw
  have hx' := h k hk x hx
  cases x with
  | object o =>
      rw [extractRefSiblings]
      exact Or.inl (by split <;> rfl)
  | bool b => exact Or.inr rfl
  | _ => simp [Value.isObject, Value.isBoolean] at hx'

/-- In a map of names, the first three rewritings find nothing to do. -/
theorem downgradeKeywords_of_noKeywords (h : NoKeywords obj) : downgradeKeywords obj =
    downgradePrefixItems (downgradeDependentRequired (downgradeConst obj)) := by
  have htype : downgradeType obj = obj := by
    refine downgradeType_of_not_array fun arr harr => ?_
    have hentry := h "type" (by decide) _ harr
    simp [Value.isObject, Value.isBoolean] at hentry
  have hnumber : ∀ field ∈ keywordKeys, downgradeExclusive field obj = obj := by
    intro field hfield
    refine downgradeExclusive_of_not_number fun n hn => ?_
    have hentry := h field hfield _ hn
    simp [Value.isObject, Value.isBoolean] at hentry
  rw [downgradeKeywords, htype, hnumber _ (by decide), hnumber _ (by decide)]

theorem asArray_of_entry (h : w.isObject = true ∨ w.isBoolean = true) : w.asArray = none := by
  cases w with
  | array xs => simp [Value.isObject, Value.isBoolean] at h
  | _ => rfl

/-- An entry of a map stays if its name is none of the keywords that are removed. -/
theorem lookup_downgradeKeywords_entry (h : NoKeywords obj) (hw : obj.lookup k = some w)
    (hk : (Value.object obj).displaces k = false) : (downgradeKeywords obj).lookup k = some w := by
  simp only [Value.displaces, Value.get_object, Bool.or_eq_false_iff, decide_eq_false_iff_not,
    Bool.and_eq_false_iff, removedKeywords, List.mem_cons, List.not_mem_nil, or_false,
    not_or] at hk
  obtain ⟨⟨hconst, hdep, htuple⟩, henum⟩ := hk
  have hitems : k = "items" → firstPrefixItem (downgradeDependentRequired (downgradeConst obj)) =
      none := by
    intro _
    have hlookup : (downgradeDependentRequired (downgradeConst obj)).lookup "prefixItems" =
        obj.lookup "prefixItems" := by
      rw [lookup_downgradeDependentRequired_ne (by decide) (by decide),
        lookup_downgradeConst_ne (by decide) (by decide)]
    unfold firstPrefixItem
    rw [hlookup]
    cases hp : obj.lookup "prefixItems" with
    | none => rfl
    | some p => rw [Option.bind_some, asArray_of_entry (h _ (by decide) p hp), Option.bind_none]
  have hfirst : (downgradeConst obj).lookup k = some w := by
    by_cases hkenum : k = "enum"
    · subst hkenum
      have hnone : obj.lookup "const" = none := by simpa using henum
      rw [lookup_downgradeConst_enum, hnone, Option.map_none, Option.none_or, hw]
    · rw [lookup_downgradeConst_ne hconst hkenum, hw]
  have hsecond : (downgradeDependentRequired (downgradeConst obj)).lookup k = some w := by
    by_cases hrequired : k = "required"
    · subst hrequired
      exact lookup_downgradeDependentRequired_required hfirst
        (asArray_of_entry (h _ (by decide) w hw))
    · rw [lookup_downgradeDependentRequired_ne hdep hrequired, hfirst]
  rw [downgradeKeywords_of_noKeywords h]
  by_cases hkitems : k = "items"
  · subst hkitems
    rw [lookup_downgradePrefixItems_items, hitems rfl, Option.none_or, hsecond]
  · rw [lookup_downgradePrefixItems_ne htuple hkitems, hsecond]

/-- A map without the removed keywords among its names is not rewritten. -/
theorem downgradeKeywords_eq_self (h : NoKeywords obj)
    (hremoved : ∀ k ∈ removedKeywords, obj.lookup k = none) : downgradeKeywords obj = obj := by
  rw [downgradeKeywords_of_noKeywords h, downgradeConst, hremoved _ (by decide)]
  dsimp only
  rw [downgradeDependentRequired, hremoved _ (by decide)]
  dsimp only
  rw [downgradePrefixItems, hremoved _ (by decide)]

/-- An entry of a map keeps its place, or its name is taken for a keyword. -/
theorem get_downgraded_entry (hsiblings : siblingRef obj = none) (h : NoKeywords obj)
    (hw : obj.lookup k = some w) :
    ((Value.object obj).displaces k = false →
      (downgraded (.object obj)).get k = some (downgraded w)) ∧
    ((Value.object obj).displaces k = true → (downgraded (.object obj)).get k = none ∨
      ∃ xs, (downgraded (.object obj)).get k = some (.array xs)) := by
  have hlookup : ∀ k, (BTreeMap.mapEntries (fun _ => extractRefSiblings) obj).lookup k =
      (obj.lookup k).map extractRefSiblings := fun k => BTreeMap.lookup_mapEntries k obj
  rw [get_downgraded hsiblings]
  constructor
  · intro hplaced
    have hplaced' : (Value.object (BTreeMap.mapEntries (fun _ => extractRefSiblings) obj)).displaces
        k = false := by
      rw [Value.displaces, Value.get_object, hlookup, Option.isSome_map]
      exact hplaced
    rw [lookup_downgradeKeywords_entry h.extract (by rw [hlookup, hw]; rfl) hplaced']
    rfl
  · intro hdisplaced
    rw [Value.displaces, Bool.or_eq_true, decide_eq_true_iff, Bool.and_eq_true,
      beq_iff_eq] at hdisplaced
    rcases hdisplaced with hremoved | ⟨rfl, hconst⟩
    · rw [lookup_downgradeKeywords_removed hremoved]
      exact Or.inl rfl
    · obtain ⟨c, hc⟩ := Option.isSome_iff_exists.mp hconst
      rw [Value.get_object] at hc
      rw [lookup_downgradeKeywords_enum, hlookup, hc]
      exact Or.inr ⟨_, rfl⟩

/-- A map keeps its names exactly if none of the removed keywords is among them. -/
theorem keys_downgraded_iff (hsiblings : siblingRef obj = none) (h : NoKeywords obj) :
    (∀ k, ((downgraded (.object obj)).get k).isSome = (obj.lookup k).isSome) ↔
      ∀ k ∈ removedKeywords, obj.lookup k = none := by
  constructor
  · intro hkeys k hk
    have hnone := hkeys k
    rw [get_downgraded hsiblings, lookup_downgradeKeywords_removed hk] at hnone
    rw [← Option.isNone_iff_eq_none, ← Option.not_isSome, ← hnone]
    rfl
  · intro hremoved k
    rw [get_downgraded hsiblings, downgradeKeywords_eq_self h.extract, BTreeMap.lookup_mapEntries,
      Option.isSome_map, Option.isSome_map]
    intro k hk
    rw [BTreeMap.lookup_mapEntries, hremoved k hk, Option.map_none]

end

/-! ## §2  Values that are left alone -/

/-- Nothing in the object looks like something to downgrade. -/
structure Untouched (v : Value) : Prop where
  bare : v.hasRefSiblings = false
  present : ∀ k ∈ removedKeywords, v.get k = none
  exclusive : ∀ field ∈ ["exclusiveMinimum", "exclusiveMaximum"], ∀ n,
    v.get field ≠ some (.number n)
  nullable : ∀ arr, v.get "type" = some (.array arr) → arr.any isNullName = true →
    2 ≤ (arr.filter fun t => !isNullName t).length

/-- Neither the value nor anything inside it is touched. -/
def Inert (v : Value) : Prop := ∀ w, Relation.ReflTransGen Value.Part v w → Untouched w

section

variable {obj : List (String × Value)} {v w : Value}

theorem Inert.part (h : Inert v) (hw : Value.Part v w) : Inert w :=
  fun x hx => h x (.head hw hx)

theorem inert_of_parts (hv : Untouched v) (h : ∀ w, Value.Part v w → Inert w) : Inert v := by
  intro x hx
  rcases Relation.ReflTransGen.cases_head hx with rfl | ⟨w, hw, hx⟩
  · exact hv
  · exact h w hw x hx

theorem untouched_of_not_object (h : v.isObject = false) : Untouched v where
  bare := by
    cases v with
    | object _ => cases h
    | _ => rfl
  present := fun _ _ => Value.get_of_not_object h
  exclusive := fun field _ n hn => by
    rw [Value.get_of_not_object h] at hn
    cases hn
  nullable := fun arr harr => by
    rw [Value.get_of_not_object h] at harr
    cases harr

/-- In an untouched object no keyword is rewritten. -/
theorem downgradeKeywords_of_untouched (h : Untouched (.object obj)) :
    downgradeKeywords obj = obj := by
  have htype : downgradeType obj = obj := by
    unfold downgradeType
    split
    · next arr harr =>
        split
        · next hany =>
            have hlen := h.nullable arr harr hany
            split
            · next hone =>
                rw [hone] at hlen
                simp at hlen
            · next hnone =>
                rw [hnone] at hlen
                simp at hlen
            · rfl
        · rfl
    · rfl
  have hexclusive : ∀ field ∈ ["exclusiveMinimum", "exclusiveMaximum"],
      downgradeExclusive field obj = obj := fun field hfield =>
    downgradeExclusive_of_not_number fun n hn => h.exclusive field hfield n hn
  have hpresent : ∀ k ∈ removedKeywords, obj.lookup k = none := h.present
  rw [downgradeKeywords, htype, hexclusive _ (by decide), hexclusive _ (by decide),
    downgradeConst, hpresent _ (by decide)]
  dsimp only
  rw [downgradeDependentRequired, hpresent _ (by decide)]
  dsimp only
  rw [downgradePrefixItems, hpresent _ (by decide)]

/-- No array contains what the downgrade makes it of. -/
theorem downgraded_ne_array : ∀ {t : Value} {arr : List Value}, t ∈ arr →
    downgraded t ≠ .array arr := by
  intro t
  induction t using Value.induction with
  | array ts ih =>
      intro arr ht heq
      rw [downgraded_array] at heq
      obtain rfl : ts.map downgraded = arr := Value.array.inj heq
      obtain ⟨t', ht', hdown⟩ := List.mem_map.mp ht
      exact ih t' ht' ht' hdown
  | object obj ih =>
      intro arr ht heq
      cases hsiblings : siblingRef obj with
      | none =>
          rw [downgraded_object hsiblings] at heq
          cases heq
      | some ref =>
          rw [downgraded_wrapper hsiblings] at heq
          cases heq
  | _ =>
      intro arr ht heq
      cases heq

theorem extractRefSiblings_array {arr : List Value} (h : extractRefSiblings v = .array arr) :
    ∃ xs, v = .array xs ∧ arr = xs.map extractRefSiblings := by
  cases v with
  | array xs =>
      rw [extractRefSiblings, extractItems_eq] at h
      exact ⟨xs, rfl, (Value.array.inj h).symm⟩
  | object obj =>
      rw [extractRefSiblings] at h
      split at h <;> cases h
  | _ => cases h

/-- What keeps the text of a reference keeps whether it has siblings. -/
theorem siblingRef_mapEntries {g : String → Value → Value}
    (hg : ∀ w, (g "$ref" w).asStr = w.asStr) (obj : List (String × Value)) :
    siblingRef (BTreeMap.mapEntries g obj) = siblingRef obj := by
  have href : ((obj.lookup "$ref").map (g "$ref")).bind Value.asStr =
      (obj.lookup "$ref").bind Value.asStr := by
    cases obj.lookup "$ref" with
    | none => rfl
    | some w => exact hg w
  have hrest : BTreeMap.removeKey "$ref" (BTreeMap.mapEntries g obj) ≠ [] ↔
      BTreeMap.removeKey "$ref" obj ≠ [] := by
    rw [← BTreeMap.mapEntries_removeKey, BTreeMap.mapEntries, ne_eq, List.map_eq_nil_iff]
  rw [siblingRef, siblingRef, BTreeMap.lookup_mapEntries, href]
  simp only [hrest]

theorem siblingRef_extract (obj : List (String × Value)) :
    siblingRef (BTreeMap.mapEntries (fun _ => extractRefSiblings) obj) = siblingRef obj :=
  siblingRef_mapEntries asStr_extractRefSiblings obj

theorem Untouched.extract (h : Untouched (.object obj)) :
    Untouched (.object (BTreeMap.mapEntries (fun _ => extractRefSiblings) obj)) where
  bare := by
    have hbare : (siblingRef obj).isSome = false := h.bare
    show (siblingRef _).isSome = false
    rw [siblingRef_extract, hbare]
  present := fun k hk => by
    rw [Value.get_object, BTreeMap.lookup_mapEntries, show obj.lookup k = none from h.present k hk,
      Option.map_none]
  exclusive := fun field hfield n hn => by
    rw [Value.get_object, BTreeMap.lookup_mapEntries] at hn
    obtain ⟨w, hw, hnum⟩ := Option.map_eq_some_iff.mp hn
    cases w with
    | number m => exact h.exclusive field hfield m hw
    | object o =>
        rw [extractRefSiblings] at hnum
        split at hnum <;> cases hnum
    | _ => cases hnum
  nullable := fun arr harr hany => by
    rw [Value.get_object, BTreeMap.lookup_mapEntries] at harr
    obtain ⟨w, hw, hwarr⟩ := Option.map_eq_some_iff.mp harr
    obtain ⟨xs, rfl, rfl⟩ := extractRefSiblings_array hwarr
    have hnull : isNullName ∘ extractRefSiblings = isNullName :=
      funext isNullName_extractRefSiblings
    have hnot : (fun t => !isNullName t) ∘ extractRefSiblings = fun t => !isNullName t :=
      funext fun t => congrArg not (isNullName_extractRefSiblings t)
    rw [List.any_map, hnull] at hany
    rw [List.filter_map, hnot, List.length_map]
    exact h.nullable xs hw hany

theorem siblingRef_of_bare (h : (Value.object obj).hasRefSiblings = false) :
    siblingRef obj = none := Option.isSome_eq_false_iff.mp h |> Option.isNone_iff_eq_none.mp

/-- Neither pass changes an inert value. -/
theorem passes_of_inert : Inert v → extractRefSiblings v = v ∧ downgradeValue v = v := by
  induction v using Value.induction with
  | array xs ih =>
      intro h
      have hparts := fun x hx => ih x hx (h.part (.item hx))
      rw [extractRefSiblings, extractItems_eq, downgradeValue_array]
      have hmap : ∀ {f : Value → Value}, (∀ x ∈ xs, f x = x) → xs.map f = xs := by
        intro f hf
        rw [List.map_congr_left hf, List.map_id']
      rw [hmap fun x hx => (hparts x hx).1, hmap fun x hx => (hparts x hx).2]
      exact ⟨rfl, rfl⟩
  | object obj ih =>
      intro h
      have hself : Untouched (.object obj) := h _ .refl
      have hparts := fun e he => ih e he (h.part (.member he))
      rw [extractRefSiblings, siblingRef_of_bare hself.bare, extractEntries_eq,
        downgradeValue_object, downgradeKeywords_of_untouched hself,
        BTreeMap.mapEntries_eq_self_iff.mpr fun e he => (hparts e he).1,
        BTreeMap.mapEntries_eq_self_iff.mpr fun e he => (hparts e he).2]
      exact ⟨rfl, rfl⟩
  | _ => exact fun _ => ⟨rfl, rfl⟩

/-- An object that the downgrade gives back is untouched. -/
theorem untouched_of_downgraded (h : downgraded (.object obj) = .object obj) :
    Untouched (.object obj) := by
  have hbare : siblingRef obj = none := by
    cases hsiblings : siblingRef obj with
    | none => rfl
    | some ref =>
        rw [downgraded_wrapper hsiblings] at h
        have hnone : obj.lookup "$ref" = none := by
          rw [← Value.object.inj h]
          rfl
        rw [siblingRef, hnone] at hsiblings
        cases hsiblings
  have hget : ∀ k, obj.lookup k = ((downgradeKeywords
      (BTreeMap.mapEntries (fun _ => extractRefSiblings) obj)).lookup k).map downgradeValue := by
    intro k
    rw [← get_downgraded hbare, h]
    rfl
  refine ⟨by rw [Value.hasRefSiblings]; exact congrArg Option.isSome hbare, ?_, ?_, ?_⟩
  · intro k hk
    rw [Value.get_object, hget, lookup_downgradeKeywords_removed hk, Option.map_none]
  · intro field hfield n hn
    have hnumber : (BTreeMap.mapEntries (fun _ => extractRefSiblings) obj).lookup field =
        some (.number n) := by
      rw [BTreeMap.lookup_mapEntries, show obj.lookup field = _ from hn]
      rfl
    rw [Value.get_object, hget, lookup_downgradeKeywords_exclusive hfield hnumber] at hn
    cases hn
  · intro arr harr hany
    by_contra hlen
    have htype : obj.lookup "type" = some (.array arr) := harr
    rw [← h, get_downgraded_keyword hbare (by decide), lookup_downgradeKeywords_type,
      downgradeType, htype] at harr
    dsimp only at harr
    rw [if_pos hany] at harr
    rcases hfilter : arr.filter fun t => !isNullName t with _ | ⟨t, _ | ⟨t', ts⟩⟩
    · rw [hfilter] at harr
      dsimp only at harr
      rw [BTreeMap.lookup_insertKey_ne (by decide), BTreeMap.lookup_removeKey_self] at harr
      cases harr
    · have ht : t ∈ arr := List.mem_of_mem_filter (hfilter ▸ List.mem_cons_self)
      rw [hfilter] at harr
      dsimp only at harr
      rw [BTreeMap.lookup_insertKey_ne (by decide), BTreeMap.lookup_insertKey_self,
        Option.map_some] at harr
      exact downgraded_ne_array ht (Option.some.inj harr)
    · rw [hfilter] at hlen
      simp at hlen

/-- **The downgrade leaves a value alone exactly if nothing in it looks like a keyword or
like a reference with siblings.** -/
theorem downgraded_eq_self_iff : downgraded v = v ↔ Inert v := by
  constructor
  · intro h
    induction v using Value.induction with
    | array xs ih =>
        refine inert_of_parts (untouched_of_not_object rfl) fun w hw => ?_
        cases hw with
        | item hx =>
            rw [downgraded_array] at h
            have hmap := List.map_inj_left.mp ((Value.array.inj h).trans (List.map_id xs).symm)
            exact ih w hx (hmap w hx)
    | object obj ih =>
        have hself := untouched_of_downgraded h
        refine inert_of_parts hself fun w hw => ?_
        cases hw with
        | @member _ e he =>
            rw [downgraded_object (siblingRef_of_bare hself.bare),
              downgradeKeywords_of_untouched hself.extract] at h
            have hmap : BTreeMap.mapEntries (fun _ => downgraded) obj = obj := by
              have hobj := Value.object.inj h
              rw [BTreeMap.mapEntries, BTreeMap.mapEntries, List.map_map] at hobj
              exact hobj
            exact ih e he (BTreeMap.mapEntries_eq_self_iff.mp hmap e he)
    | _ =>
        refine inert_of_parts (untouched_of_not_object rfl) fun w hw => ?_
        cases hw
  · intro h
    obtain ⟨hextract, hdowngrade⟩ := passes_of_inert h
    rw [downgraded, hextract, hdowngrade]

end

/-! ## §3  Keywords that stay, and sorted entries -/

section

variable {obj : List (String × Value)} {field : String}

/-- A bound that is no number stays. -/
theorem lookup_downgradeKeywords_of_not_number
    (hfield : field ∈ ["exclusiveMinimum", "exclusiveMaximum"])
    (h : ∀ n, obj.lookup field ≠ some (.number n)) :
    (downgradeKeywords obj).lookup field = obj.lookup field := by
  have htype : (downgradeType obj).lookup field = obj.lookup field := by
    rcases List.mem_pair.mp hfield with rfl | rfl
    · exact lookup_downgradeType_ne (by decide) (by decide)
    · exact lookup_downgradeType_ne (by decide) (by decide)
  have hexclusive : ∀ field' obj', obj'.lookup field = obj.lookup field →
      (downgradeExclusive field' obj').lookup field = obj.lookup field := by
    intro field' obj' hobj
    by_cases heq : field = field'
    · subst heq
      rw [downgradeExclusive_of_not_number fun n hn => h n (hobj ▸ hn), hobj]
    · rw [lookup_downgradeExclusive_ne heq, hobj]
  have hrest : ∀ obj', (downgradePrefixItems (downgradeDependentRequired
      (downgradeConst obj'))).lookup field = obj'.lookup field := by
    intro obj'
    rcases List.mem_pair.mp hfield with rfl | rfl
    · rw [lookup_downgradePrefixItems_ne (by decide) (by decide),
        lookup_downgradeDependentRequired_ne (by decide) (by decide),
        lookup_downgradeConst_ne (by decide) (by decide)]
    · rw [lookup_downgradePrefixItems_ne (by decide) (by decide),
        lookup_downgradeDependentRequired_ne (by decide) (by decide),
        lookup_downgradeConst_ne (by decide) (by decide)]
  unfold downgradeKeywords
  rw [hrest]
  exact hexclusive _ _ (hexclusive _ _ htype)

/-- The first pass comes before the rewriting of a bound or after it. -/
theorem lookup_downgradeKeywords_extract_exclusive
    (hfield : field ∈ ["exclusiveMinimum", "exclusiveMaximum"]) :
    (downgradeKeywords (BTreeMap.mapEntries (fun _ => extractRefSiblings) obj)).lookup field =
      ((downgradeKeywords obj).lookup field).map extractRefSiblings := by
  have hnumber : ∀ v n, extractRefSiblings v = .number n ↔ v = .number n := by
    intro v n
    rcases v with _ | _ | _ | _ | _ | obj
    · exact Iff.rfl
    · exact Iff.rfl
    · exact Iff.rfl
    · exact Iff.rfl
    · exact iff_of_false (by rintro ⟨⟩) (by rintro ⟨⟩)
    · refine iff_of_false ?_ (by rintro ⟨⟩)
      rw [extractRefSiblings]
      split <;> rintro ⟨⟩
  by_cases hnum : ∃ n, obj.lookup field = some (.number n)
  · obtain ⟨n, hn⟩ := hnum
    have hn' : (BTreeMap.mapEntries (fun _ => extractRefSiblings) obj).lookup field =
        some (.number n) := by
      rw [BTreeMap.lookup_mapEntries, hn]
      rfl
    rw [lookup_downgradeKeywords_exclusive hfield hn,
      lookup_downgradeKeywords_exclusive hfield hn']
    rfl
  · have hother : ∀ n, (BTreeMap.mapEntries (fun _ => extractRefSiblings) obj).lookup field ≠
        some (.number n) := by
      intro n hn
      rw [BTreeMap.lookup_mapEntries, Option.map_eq_some_iff] at hn
      obtain ⟨v, hv, heq⟩ := hn
      exact hnum ⟨n, ((hnumber v n).mp heq) ▸ hv⟩
    rw [lookup_downgradeKeywords_of_not_number hfield hother,
      lookup_downgradeKeywords_of_not_number hfield fun n hn => hnum ⟨n, hn⟩,
      BTreeMap.lookup_mapEntries]

/-- A member called `required` that is no list of names stays. -/
theorem lookup_downgradeKeywords_required_of_not_array {w : Value}
    (h : obj.lookup "required" = some w) (hw : w.asArray = none) :
    (downgradeKeywords obj).lookup "required" = some w := by
  unfold downgradeKeywords
  rw [lookup_downgradePrefixItems_ne (by decide) (by decide)]
  refine lookup_downgradeDependentRequired_required ?_ hw
  rw [lookup_downgradeConst_ne (by decide) (by decide), lookup_downgradeExclusive_ne (by decide),
    lookup_downgradeExclusive_ne (by decide), lookup_downgradeType_ne (by decide) (by decide), h]

theorem lookup_downgradeKeywords_required_of_none
    (h : obj.lookup "dependentRequired" = none) :
    (downgradeKeywords obj).lookup "required" = obj.lookup "required" := by
  unfold downgradeKeywords
  rw [lookup_downgradePrefixItems_ne (by decide) (by decide), downgradeDependentRequired,
    lookup_downgradeConst_ne (by decide) (by decide), lookup_downgradeExclusive_ne (by decide),
    lookup_downgradeExclusive_ne (by decide), lookup_downgradeType_ne (by decide) (by decide), h]
  dsimp only
  rw [lookup_downgradeConst_ne (by decide) (by decide), lookup_downgradeExclusive_ne (by decide),
    lookup_downgradeExclusive_ne (by decide), lookup_downgradeType_ne (by decide) (by decide)]

theorem sorted_downgradeType (h : BTreeMap.Sorted obj) : BTreeMap.Sorted (downgradeType obj) := by
  unfold downgradeType
  split
  · split
    · split
      · exact BTreeMap.sorted_insertKey (BTreeMap.sorted_insertKey h)
      · exact BTreeMap.sorted_insertKey (BTreeMap.sorted_removeKey _ h)
      · exact h
    · exact h
  · exact h

theorem sorted_downgradeExclusive (field : String) (h : BTreeMap.Sorted obj) :
    BTreeMap.Sorted (downgradeExclusive field obj) := by
  unfold downgradeExclusive
  split
  · exact BTreeMap.sorted_insertKey h
  · exact h

theorem sorted_downgradeConst (h : BTreeMap.Sorted obj) :
    BTreeMap.Sorted (downgradeConst obj) := by
  unfold downgradeConst
  split
  · exact BTreeMap.sorted_insertKey (BTreeMap.sorted_removeKey _ h)
  · exact h

theorem sorted_downgradeDependentRequired (h : BTreeMap.Sorted obj) :
    BTreeMap.Sorted (downgradeDependentRequired obj) := by
  have hrest := BTreeMap.sorted_removeKey "dependentRequired" h
  unfold downgradeDependentRequired
  split
  · exact h
  · dsimp only
    split
    · exact hrest
    · split
      · exact BTreeMap.sorted_insertKey hrest
      · exact hrest

theorem sorted_downgradePrefixItems (h : BTreeMap.Sorted obj) :
    BTreeMap.Sorted (downgradePrefixItems obj) := by
  have hrest := BTreeMap.sorted_removeKey "prefixItems" h
  unfold downgradePrefixItems
  split
  · exact h
  · dsimp only
    split
    · exact BTreeMap.sorted_insertKey hrest
    · exact hrest

theorem sorted_downgradeKeywords (h : BTreeMap.Sorted obj) :
    BTreeMap.Sorted (downgradeKeywords obj) := by
  apply sorted_downgradePrefixItems
  apply sorted_downgradeDependentRequired
  apply sorted_downgradeConst
  apply sorted_downgradeExclusive
  apply sorted_downgradeExclusive
  exact sorted_downgradeType h

end

/-! ## §4  What the rewriting reads -/

/-- Two objects have the same under the keywords. -/
def SameKeywords (o obj : List (String × Value)) : Prop :=
  ∀ k ∈ keywordKeys, o.lookup k = obj.lookup k

section

variable {o obj : List (String × Value)}

theorem sameKeywords_insertKey (h : SameKeywords o obj) (key : String) (v : Value) :
    SameKeywords (BTreeMap.insertKey key v o) (BTreeMap.insertKey key v obj) := by
  intro k hk
  by_cases hkey : k = key
  · subst hkey
    rw [BTreeMap.lookup_insertKey_self, BTreeMap.lookup_insertKey_self]
  · rw [BTreeMap.lookup_insertKey_ne hkey, BTreeMap.lookup_insertKey_ne hkey, h k hk]

theorem sameKeywords_removeKey (h : SameKeywords o obj) (key : String) :
    SameKeywords (BTreeMap.removeKey key o) (BTreeMap.removeKey key obj) := by
  intro k hk
  by_cases hkey : k = key
  · subst hkey
    rw [BTreeMap.lookup_removeKey_self, BTreeMap.lookup_removeKey_self]
  · rw [BTreeMap.lookup_removeKey_ne hkey, BTreeMap.lookup_removeKey_ne hkey, h k hk]

theorem sameKeywords_type (h : SameKeywords o obj) :
    SameKeywords (downgradeType o) (downgradeType obj) := by
  unfold downgradeType
  rw [h "type" (by decide)]
  split
  · split
    · split
      · exact sameKeywords_insertKey (sameKeywords_insertKey h _ _) _ _
      · exact sameKeywords_insertKey (sameKeywords_removeKey h _) _ _
      · exact h
    · exact h
  · exact h

theorem sameKeywords_exclusive (h : SameKeywords o obj) {field : String}
    (hfield : field ∈ keywordKeys) :
    SameKeywords (downgradeExclusive field o) (downgradeExclusive field obj) := by
  unfold downgradeExclusive
  rw [h field hfield]
  split
  · exact sameKeywords_insertKey h _ _
  · exact h

theorem sameKeywords_const (h : SameKeywords o obj) :
    SameKeywords (downgradeConst o) (downgradeConst obj) := by
  unfold downgradeConst
  rw [h "const" (by decide)]
  split
  · exact sameKeywords_insertKey (sameKeywords_removeKey h _) _ _
  · exact h

theorem sameKeywords_dependentRequired (h : SameKeywords o obj) :
    SameKeywords (downgradeDependentRequired o) (downgradeDependentRequired obj) := by
  unfold downgradeDependentRequired
  rw [h "dependentRequired" (by decide)]
  split
  · exact h
  · have hremoved := sameKeywords_removeKey h "dependentRequired"
    dsimp only
    rw [hremoved "required" (by decide)]
    split
    · exact hremoved
    · split
      · exact sameKeywords_insertKey hremoved _ _
      · exact hremoved

theorem sameKeywords_prefixItems (h : SameKeywords o obj) :
    SameKeywords (downgradePrefixItems o) (downgradePrefixItems obj) := by
  unfold downgradePrefixItems
  rw [h "prefixItems" (by decide)]
  split
  · exact h
  · dsimp only
    split
    · exact sameKeywords_insertKey (sameKeywords_removeKey h _) _ _
    · exact sameKeywords_removeKey h _

/-- The rewriting of keywords reads nothing else. -/
theorem sameKeywords_downgradeKeywords (h : SameKeywords o obj) :
    SameKeywords (downgradeKeywords o) (downgradeKeywords obj) :=
  sameKeywords_prefixItems (sameKeywords_dependentRequired (sameKeywords_const
    (sameKeywords_exclusive (sameKeywords_exclusive (sameKeywords_type h) (by decide))
      (by decide))))

end

end SpecForge
