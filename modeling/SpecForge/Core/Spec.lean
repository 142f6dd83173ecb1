import SpecForge.Core.Json
import SpecForge.Lib.Text

/-!
# Downgrading raw documents

The model of `spec.rs`, from the raw JSON to what is handed to the parser: the webhooks
are taken out, and a 3.1 document is rewritten in two passes, each over the whole value
(§1). The second pass rewrites the keywords of an object before it goes into the values;
§2 shows that the model, which recurses first, does the same, and §3 and §4 what an object of the
result has under a key.
-/

namespace SpecForge

open Lib

/-! ## §1  The model -/

/-- The `webhooks` member, which is taken out of the document, if it is an object. -/
def extractWebhooks (json : Value) : Option Value × Value :=
  match json with
  | .object obj =>
      ((obj.lookup "webhooks").filter Value.isObject, .object (BTreeMap.removeKey "webhooks" obj))
  | v => (none, v)

def is31 (json : Value) : Bool :=
  (((json.get "openapi").bind Value.asStr).map (Text.startsWith "3.1")).getD false

/-- The reference of an object that has other members next to it. -/
def siblingRef (obj : List (String × Value)) : Option String :=
  match (obj.lookup "$ref").bind Value.asStr with
  | some ref => if ref ≠ "" ∧ BTreeMap.removeKey "$ref" obj ≠ [] then some ref else none
  | none => none

/-- A reference and its siblings, as the members of an `allOf`. -/
def refWrapper (ref : String) (siblings : List (String × Value)) : List (String × Value) :=
  [("allOf", .array [.object [("$ref", .string ref)], .object siblings])]

mutual

/-- The first pass. The source builds the wrapper first and then goes into it; its two
members have no siblings to move, so the siblings' values come out the same. -/
def extractRefSiblings : Value → Value
  | .object obj =>
      match siblingRef obj with
      | some ref => .object (refWrapper ref (BTreeMap.removeKey "$ref" (extractEntries obj)))
      | none => .object (extractEntries obj)
  | .array arr => .array (extractItems arr)
  | v => v

def extractEntries : List (String × Value) → List (String × Value)
  | [] => []
  | (k, v) :: es => (k, extractRefSiblings v) :: extractEntries es

def extractItems : List Value → List Value
  | [] => []
  | v :: vs => extractRefSiblings v :: extractItems vs

end

def isNullName (v : Value) : Bool := v.asStr == some "null"

/-- A type array of one type and `null`, or of `null` alone. -/
def downgradeType (obj : List (String × Value)) : List (String × Value) :=
  match obj.lookup "type" with
  | some (.array arr) =>
      if arr.any isNullName then
        match arr.filter fun v => !isNullName v with
        | [t] => BTreeMap.insertKey "nullable" (.bool true) (BTreeMap.insertKey "type" t obj)
        | [] => BTreeMap.insertKey "nullable" (.bool true) (BTreeMap.removeKey "type" obj)
        | _ => obj
      else obj
  | _ => obj

def downgradeExclusive (field : String) (obj : List (String × Value)) : List (String × Value) :=
  match obj.lookup field with
  | some (.number _) => BTreeMap.insertKey field (.bool true) obj
  | _ => obj

def downgradeConst (obj : List (String × Value)) : List (String × Value) :=
  match obj.lookup "const" with
  | some c => BTreeMap.insertKey "enum" (.array [c]) (BTreeMap.removeKey "const" obj)
  | none => obj

/-- The names that a `dependentRequired` asks for. -/
def extraRequired : Value → List String
  | .object deps => deps.flatMap fun e => (e.2.asArray.getD []).filterMap Value.asStr
  | _ => []

def pushRequired (required : List Value) (extra : List String) : List Value :=
  extra.foldl (fun arr dep =>
    if arr.any fun v => v.asStr == some dep then arr else arr ++ [.string dep]) required

def downgradeDependentRequired (obj : List (String × Value)) : List (String × Value) :=
  match obj.lookup "dependentRequired" with
  | none => obj
  | some depReq =>
      let obj := BTreeMap.removeKey "dependentRequired" obj
      let extra := extraRequired depReq
      if extra.isEmpty then obj
      else
        match (obj.lookup "required").getD (.array []) with
        | .array required =>
            BTreeMap.insertKey "required" (.array (pushRequired required extra)) obj
        | _ => obj

def downgradePrefixItems (obj : List (String × Value)) : List (String × Value) :=
  match obj.lookup "prefixItems" with
  | none => obj
  | some prefixItems =>
      let obj := BTreeMap.removeKey "prefixItems" obj
      match prefixItems with
      | .array (item :: _) => BTreeMap.insertKey "items" item obj
      | _ => obj

/-- The keywords of one object. -/
def downgradeKeywords (obj : List (String × Value)) : List (String × Value) :=
  let obj := downgradeType obj
  let obj := downgradeExclusive "exclusiveMinimum" obj
  let obj := downgradeExclusive "exclusiveMaximum" obj
  let obj := downgradeConst obj
  let obj := downgradeDependentRequired obj
  downgradePrefixItems obj

mutual

/-- The second pass. The keywords are rewritten last: they only move values around, but
for `dependentRequired`, whose names are read from the raw value. -/
def downgradeValue : Value → Value
  | .object obj => .object (downgradeKeywords (downgradeEntries obj))
  | .array arr => .array (downgradeItems arr)
  | v => v

def downgradeEntries : List (String × Value) → List (String × Value)
  | [] => []
  | (k, v) :: es =>
      (k, if k = "dependentRequired" then v else downgradeValue v) :: downgradeEntries es

def downgradeItems : List Value → List Value
  | [] => []
  | v :: vs => downgradeValue v :: downgradeItems vs

end

/-- `paths` may be absent in 3.1 and may not in 3.0. -/
def ensurePaths (json : Value) : Value :=
  match json.get "paths" with
  | none => json.insert "paths" (.object [])
  | some _ => json

def downgrade31To30 (json : Value) : Value :=
  downgradeValue (extractRefSiblings (ensurePaths json))

/-! ## §2  The order of the rewriting -/

section

variable {obj : List (String × Value)} {k : String} {v : Value}

theorem extractEntries_eq : ∀ obj : List (String × Value),
    extractEntries obj = BTreeMap.mapEntries (fun _ => extractRefSiblings) obj
  | [] => rfl
  | (_, _) :: obj => congrArg _ (extractEntries_eq obj)

theorem extractItems_eq : ∀ arr : List Value, extractItems arr = arr.map extractRefSiblings
  | [] => rfl
  | _ :: arr => congrArg _ (extractItems_eq arr)

theorem downgradeEntries_eq : ∀ obj : List (String × Value),
    downgradeEntries obj = BTreeMap.mapEntries
      (fun k v => if k = "dependentRequired" then v else downgradeValue v) obj
  | [] => rfl
  | (_, _) :: obj => congrArg _ (downgradeEntries_eq obj)

theorem downgradeItems_eq : ∀ arr : List Value, downgradeItems arr = arr.map downgradeValue
  | [] => rfl
  | _ :: arr => congrArg _ (downgradeItems_eq arr)

theorem downgradeValue_array (arr : List Value) :
    downgradeValue (.array arr) = .array (arr.map downgradeValue) :=
  congrArg Value.array (downgradeItems_eq arr)

@[simp] theorem asStr_downgradeValue : (downgradeValue v).asStr = v.asStr := by
  cases v <;> rfl

@[simp] theorem isNullName_downgradeValue : isNullName (downgradeValue v) = isNullName v := by
  rw [isNullName, asStr_downgradeValue, isNullName]

/-- What the second pass does to an entry of an object. -/
def downgradeEntry (k : String) (v : Value) : Value :=
  if k = "dependentRequired" then v else downgradeValue v

theorem downgradeEntry_of_ne (h : k ≠ "dependentRequired") :
    downgradeEntry k v = downgradeValue v := if_neg h

theorem downgradeType_of_not_array (h : ∀ arr, obj.lookup "type" ≠ some (.array arr)) :
    downgradeType obj = obj := by
  unfold downgradeType
  split
  · next arr harr => exact absurd harr (h arr)
  · rfl

/-- A function on the values that keeps arrays and names commutes with the rewriting of the
type. -/
theorem downgradeType_mapEntries_of {f : Value → Value} {g : String → Value → Value}
    (htype : ∀ t, g "type" t = f t) (hnullable : g "nullable" (.bool true) = .bool true)
    (harray : ∀ t, (f t).asArray = t.asArray.map (·.map f)) (hnull : isNullName ∘ f = isNullName)
    (obj : List (String × Value)) :
    downgradeType (BTreeMap.mapEntries g obj) = BTreeMap.mapEntries g (downgradeType obj) := by
  have hlookup : (BTreeMap.mapEntries g obj).lookup "type" = (obj.lookup "type").map f := by
    rw [BTreeMap.lookup_mapEntries, funext htype]
  by_cases hobj : ∃ arr, obj.lookup "type" = some (.array arr)
  · obtain ⟨arr, harr⟩ := hobj
    have hf : f (.array arr) = .array (arr.map f) := by
      have hmap := harray (.array arr)
      cases hx : f (.array arr) with
      | array ys =>
          rw [hx] at hmap
          exact congrArg Value.array (Option.some.inj hmap)
      | _ =>
          rw [hx] at hmap
          cases hmap
    have hnot : (fun v => !isNullName v) ∘ f = fun v => !isNullName v :=
      funext fun v => congrArg not (congrFun hnull v)
    rw [downgradeType, downgradeType, hlookup, harr, Option.map_some, hf]
    dsimp only
    rw [List.any_map, hnull, List.filter_map, hnot]
    split
    · rcases arr.filter fun v => !isNullName v with _ | ⟨t, _ | ⟨t', ts⟩⟩
      · show BTreeMap.insertKey _ _ _ = BTreeMap.mapEntries _ (BTreeMap.insertKey _ _ _)
        rw [BTreeMap.mapEntries_insertKey, BTreeMap.mapEntries_removeKey, hnullable]
      · show BTreeMap.insertKey _ _ _ = BTreeMap.mapEntries _ (BTreeMap.insertKey _ _ _)
        rw [BTreeMap.mapEntries_insertKey, BTreeMap.mapEntries_insertKey, hnullable, htype]
      · rfl
    · rfl
  · have hother : ∀ arr, (BTreeMap.mapEntries g obj).lookup "type" ≠ some (.array arr) := by
      intro arr hmap
      rw [hlookup] at hmap
      obtain ⟨t, ht, hft⟩ := Option.map_eq_some_iff.mp hmap
      have hasArray := harray t
      rw [hft] at hasArray
      cases t with
      | array ts => exact hobj ⟨ts, ht⟩
      | _ => cases hasArray
    rw [downgradeType_of_not_array hother,
      downgradeType_of_not_array fun arr harr => hobj ⟨arr, harr⟩]

/-- One keyword after the other, the rewriting commutes with going into the values. -/
theorem downgradeType_mapEntries (obj : List (String × Value)) :
    downgradeType (BTreeMap.mapEntries downgradeEntry obj) =
      BTreeMap.mapEntries downgradeEntry (downgradeType obj) := by
  refine downgradeType_mapEntries_of (fun t => downgradeEntry_of_ne (by decide))
    (downgradeEntry_of_ne (by decide)) (fun t => ?_) (funext fun v => isNullName_downgradeValue) obj
  cases t with
  | array ts => exact congrArg Value.asArray (downgradeValue_array ts)
  | _ => rfl

theorem downgradeExclusive_mapEntries {field : String} (hfield : field ≠ "dependentRequired")
    (obj : List (String × Value)) :
    downgradeExclusive field (BTreeMap.mapEntries downgradeEntry obj) =
      BTreeMap.mapEntries downgradeEntry (downgradeExclusive field obj) := by
  unfold downgradeExclusive
  rw [BTreeMap.lookup_mapEntries]
  cases obj.lookup field with
  | none => rfl
  | some v =>
      rw [Option.map_some, downgradeEntry_of_ne hfield]
      cases v with
      | number n =>
          show BTreeMap.insertKey _ _ _ = BTreeMap.mapEntries _ (BTreeMap.insertKey _ _ _)
          rw [BTreeMap.mapEntries_insertKey, downgradeEntry_of_ne hfield]
          rfl
      | _ => rfl

theorem downgradeConst_mapEntries (obj : List (String × Value)) :
    downgradeConst (BTreeMap.mapEntries downgradeEntry obj) =
      BTreeMap.mapEntries downgradeEntry (downgradeConst obj) := by
  unfold downgradeConst
  rw [BTreeMap.lookup_mapEntries]
  cases obj.lookup "const" with
  | none => rfl
  | some c =>
      show BTreeMap.insertKey _ _ _ = BTreeMap.mapEntries _ (BTreeMap.insertKey _ _ _)
      rw [BTreeMap.mapEntries_insertKey, BTreeMap.mapEntries_removeKey,
        downgradeEntry_of_ne (by decide), downgradeEntry_of_ne (by decide), downgradeValue_array]
      rfl

theorem mapEntries_downgradeEntry (h : obj.lookup "dependentRequired" = none) :
    BTreeMap.mapEntries downgradeEntry obj =
      BTreeMap.mapEntries (fun _ => downgradeValue) obj := by
  refine BTreeMap.mapEntries_congr fun e he => downgradeEntry_of_ne ?_
  rintro heq
  exact lookup_eq_none_iff.mp h (heq ▸ List.mem_map_of_mem he)

/-- A function on values that keeps texts commutes with pushing names. -/
theorem map_pushRequired_of {f : Value → Value} (hstr : ∀ v, (f v).asStr = v.asStr)
    (hfix : ∀ t, f (.string t) = .string t) (required : List Value) (extra : List String) :
    pushRequired (required.map f) extra = (pushRequired required extra).map f := by
  unfold pushRequired
  induction extra generalizing required with
  | nil => rfl
  | cons dep extra ih =>
      have hany : ((required.map f).any fun v => v.asStr == some dep) =
          required.any fun v => v.asStr == some dep := by
        rw [List.any_map]
        exact congrArg required.any (funext fun v => congrArg (· == some dep) (hstr v))
      rw [List.foldl_cons, List.foldl_cons, hany]
      split
      · exact ih required
      · have hpush : required.map f ++ [.string dep] =
            (required ++ [Value.string dep]).map f := by
          rw [List.map_append, List.map_singleton, hfix]
        rw [hpush]
        exact ih _

theorem map_pushRequired (required : List Value) (extra : List String) :
    pushRequired (required.map downgradeValue) extra =
      (pushRequired required extra).map downgradeValue :=
  map_pushRequired_of (fun _ => asStr_downgradeValue) (fun _ => rfl) required extra

theorem downgradeDependentRequired_mapEntries (obj : List (String × Value)) :
    downgradeDependentRequired (BTreeMap.mapEntries downgradeEntry obj) =
      BTreeMap.mapEntries (fun _ => downgradeValue) (downgradeDependentRequired obj) := by
  unfold downgradeDependentRequired
  rw [BTreeMap.lookup_mapEntries]
  cases h : obj.lookup "dependentRequired" with
  | none => exact mapEntries_downgradeEntry h
  | some depReq =>
      have hrest : BTreeMap.removeKey "dependentRequired" (BTreeMap.mapEntries downgradeEntry obj) =
          BTreeMap.mapEntries (fun _ => downgradeValue)
            (BTreeMap.removeKey "dependentRequired" obj) := by
        rw [← BTreeMap.mapEntries_removeKey,
          mapEntries_downgradeEntry (BTreeMap.lookup_removeKey_self _ _)]
      have hdep : downgradeEntry "dependentRequired" depReq = depReq := if_pos rfl
      rw [Option.map_some, hdep]
      dsimp only
      rw [hrest, BTreeMap.lookup_mapEntries]
      split
      · rfl
      · cases (BTreeMap.removeKey "dependentRequired" obj).lookup "required" with
        | none =>
            show BTreeMap.insertKey _ _ _ = BTreeMap.mapEntries _ (BTreeMap.insertKey _ _ _)
            rw [BTreeMap.mapEntries_insertKey, downgradeValue_array, ← map_pushRequired]
            rfl
        | some r =>
            cases r with
            | array required =>
                show BTreeMap.insertKey _ _ _ = BTreeMap.mapEntries _ (BTreeMap.insertKey _ _ _)
                rw [BTreeMap.mapEntries_insertKey, downgradeValue_array, ← map_pushRequired,
                  downgradeItems_eq]
            | _ => rfl

theorem downgradePrefixItems_mapEntries (obj : List (String × Value)) :
    downgradePrefixItems (BTreeMap.mapEntries (fun _ => downgradeValue) obj) =
      BTreeMap.mapEntries (fun _ => downgradeValue) (downgradePrefixItems obj) := by
  unfold downgradePrefixItems
  rw [BTreeMap.lookup_mapEntries]
  cases obj.lookup "prefixItems" with
  | none => rfl
  | some p =>
      rw [Option.map_some]
      dsimp only
      rw [← BTreeMap.mapEntries_removeKey]
      cases p with
      | array items =>
          rw [downgradeValue_array]
          cases items with
          | nil => rfl
          | cons item items =>
              show BTreeMap.insertKey _ _ _ = BTreeMap.mapEntries _ (BTreeMap.insertKey _ _ _)
              rw [BTreeMap.mapEntries_insertKey]
      | _ => rfl

/-- **The second pass rewrites the keywords and goes into the values.** -/
theorem downgradeValue_object (obj : List (String × Value)) :
    downgradeValue (.object obj) =
      .object (BTreeMap.mapEntries (fun _ => downgradeValue) (downgradeKeywords obj)) := by
  have hentries : downgradeEntries obj = BTreeMap.mapEntries downgradeEntry obj :=
    downgradeEntries_eq obj
  rw [downgradeValue, hentries, downgradeKeywords, downgradeKeywords,
    downgradeType_mapEntries, downgradeExclusive_mapEntries (by decide),
    downgradeExclusive_mapEntries (by decide), downgradeConst_mapEntries,
    downgradeDependentRequired_mapEntries, downgradePrefixItems_mapEntries]

end

/-! ## §3  What is found in the result -/

section

variable {obj : List (String × Value)} {k field ref : String}

theorem lookup_downgradeType_ne (htype : k ≠ "type") (hnullable : k ≠ "nullable") :
    (downgradeType obj).lookup k = obj.lookup k := by
  unfold downgradeType
  split
  · split
    · split
      · rw [BTreeMap.lookup_insertKey_ne hnullable, BTreeMap.lookup_insertKey_ne htype]
      · rw [BTreeMap.lookup_insertKey_ne hnullable, BTreeMap.lookup_removeKey_ne htype]
      · rfl
    · rfl
  · rfl

theorem lookup_downgradeExclusive_ne (h : k ≠ field) :
    (downgradeExclusive field obj).lookup k = obj.lookup k := by
  unfold downgradeExclusive
  split
  · exact BTreeMap.lookup_insertKey_ne h _ _
  · rfl

theorem downgradeExclusive_of_not_number (h : ∀ n, obj.lookup field ≠ some (.number n)) :
    downgradeExclusive field obj = obj := by
  unfold downgradeExclusive
  split
  · next n hn => exact absurd hn (h n)
  · rfl

theorem lookup_downgradeConst_ne (hconst : k ≠ "const") (henum : k ≠ "enum") :
    (downgradeConst obj).lookup k = obj.lookup k := by
  unfold downgradeConst
  split
  · rw [BTreeMap.lookup_insertKey_ne henum, BTreeMap.lookup_removeKey_ne hconst]
  · rfl

theorem lookup_downgradeConst_const : (downgradeConst obj).lookup "const" = none := by
  unfold downgradeConst
  split
  · rw [BTreeMap.lookup_insertKey_ne (by decide), BTreeMap.lookup_removeKey_self]
  · assumption

theorem lookup_downgradeConst_enum : (downgradeConst obj).lookup "enum" =
    ((obj.lookup "const").map fun c => Value.array [c]).or (obj.lookup "enum") := by
  unfold downgradeConst
  split
  · next c hc => rw [BTreeMap.lookup_insertKey_self, hc, Option.map_some, Option.some_or]
  · next hnone => rw [hnone, Option.map_none, Option.none_or]

theorem lookup_downgradeDependentRequired_ne (hdep : k ≠ "dependentRequired")
    (hrequired : k ≠ "required") : (downgradeDependentRequired obj).lookup k = obj.lookup k := by
  unfold downgradeDependentRequired
  split
  · rfl
  · dsimp only
    split
    · exact BTreeMap.lookup_removeKey_ne hdep obj
    · split
      · rw [BTreeMap.lookup_insertKey_ne hrequired, BTreeMap.lookup_removeKey_ne hdep]
      · exact BTreeMap.lookup_removeKey_ne hdep obj

theorem lookup_downgradeDependentRequired_self :
    (downgradeDependentRequired obj).lookup "dependentRequired" = none := by
  unfold downgradeDependentRequired
  split
  · assumption
  · dsimp only
    split
    · exact BTreeMap.lookup_removeKey_self _ _
    · split
      · rw [BTreeMap.lookup_insertKey_ne (by decide), BTreeMap.lookup_removeKey_self]
      · exact BTreeMap.lookup_removeKey_self _ _

/-- A `required` that is no array stays as it is. -/
theorem lookup_downgradeDependentRequired_required {w : Value}
    (h : obj.lookup "required" = some w) (hw : w.asArray = none) :
    (downgradeDependentRequired obj).lookup "required" = some w := by
  have hrest : (BTreeMap.removeKey "dependentRequired" obj).lookup "required" = some w :=
    (BTreeMap.lookup_removeKey_ne (by decide) obj).trans h
  unfold downgradeDependentRequired
  split
  · exact h
  · dsimp only
    rw [hrest]
    split
    · exact hrest
    · cases w with
      | array _ => cases hw
      | _ => exact hrest

theorem lookup_downgradePrefixItems_ne (htuple : k ≠ "prefixItems") (hitems : k ≠ "items") :
    (downgradePrefixItems obj).lookup k = obj.lookup k := by
  unfold downgradePrefixItems
  split
  · rfl
  · dsimp only
    split
    · rw [BTreeMap.lookup_insertKey_ne hitems, BTreeMap.lookup_removeKey_ne htuple]
    · exact BTreeMap.lookup_removeKey_ne htuple obj

theorem lookup_downgradePrefixItems_self :
    (downgradePrefixItems obj).lookup "prefixItems" = none := by
  unfold downgradePrefixItems
  split
  · assumption
  · dsimp only
    split
    · rw [BTreeMap.lookup_insertKey_ne (by decide), BTreeMap.lookup_removeKey_self]
    · exact BTreeMap.lookup_removeKey_self _ _

/-- The first of the `prefixItems`. -/
def firstPrefixItem (obj : List (String × Value)) : Option Value :=
  ((obj.lookup "prefixItems").bind Value.asArray).bind List.head?

theorem lookup_downgradePrefixItems_items : (downgradePrefixItems obj).lookup "items" =
    (firstPrefixItem obj).or (obj.lookup "items") := by
  have hrest : (BTreeMap.removeKey "prefixItems" obj).lookup "items" = obj.lookup "items" :=
    BTreeMap.lookup_removeKey_ne (by decide) obj
  unfold downgradePrefixItems firstPrefixItem
  cases obj.lookup "prefixItems" with
  | none => rfl
  | some p =>
      cases p with
      | array items =>
          cases items with
          | nil => exact hrest
          | cons item items => exact BTreeMap.lookup_insertKey_self _ _ _
      | _ => exact hrest

/-- The keys that the rewriting of keywords reads or writes. -/
def keywordKeys : List String :=
  ["type", "nullable", "exclusiveMinimum", "exclusiveMaximum", "const", "enum",
    "dependentRequired", "required", "prefixItems", "items"]

theorem lookup_downgradeKeywords_of_notMem (h : k ∉ keywordKeys) :
    (downgradeKeywords obj).lookup k = obj.lookup k := by
  simp only [keywordKeys, List.mem_cons, List.not_mem_nil, or_false, not_or] at h
  obtain ⟨htype, hnullable, hmin, hmax, hconst, henum, hdep, hrequired, htuple, hitems⟩ := h
  unfold downgradeKeywords
  rw [lookup_downgradePrefixItems_ne htuple hitems,
    lookup_downgradeDependentRequired_ne hdep hrequired, lookup_downgradeConst_ne hconst henum,
    lookup_downgradeExclusive_ne hmax, lookup_downgradeExclusive_ne hmin,
    lookup_downgradeType_ne htype hnullable]

/-- The keywords that are gone from the result. -/
def removedKeywords : List String := ["const", "dependentRequired", "prefixItems"]

theorem lookup_downgradeKeywords_removed (h : k ∈ removedKeywords) :
    (downgradeKeywords obj).lookup k = none := by
  simp only [removedKeywords, List.mem_cons, List.not_mem_nil, or_false] at h
  unfold downgradeKeywords
  rcases h with rfl | rfl | rfl
  · rw [lookup_downgradePrefixItems_ne (by decide) (by decide),
      lookup_downgradeDependentRequired_ne (by decide) (by decide), lookup_downgradeConst_const]
  · rw [lookup_downgradePrefixItems_ne (by decide) (by decide),
      lookup_downgradeDependentRequired_self]
  · exact lookup_downgradePrefixItems_self

theorem lookup_downgradeKeywords_enum : (downgradeKeywords obj).lookup "enum" =
    ((obj.lookup "const").map fun c => Value.array [c]).or (obj.lookup "enum") := by
  unfold downgradeKeywords
  rw [lookup_downgradePrefixItems_ne (by decide) (by decide),
    lookup_downgradeDependentRequired_ne (by decide) (by decide), lookup_downgradeConst_enum,
    lookup_downgradeExclusive_ne (by decide), lookup_downgradeExclusive_ne (by decide),
    lookup_downgradeExclusive_ne (by decide), lookup_downgradeExclusive_ne (by decide),
    lookup_downgradeType_ne (by decide) (by decide),
    lookup_downgradeType_ne (by decide) (by decide)]

theorem lookup_downgradeKeywords_items : (downgradeKeywords obj).lookup "items" =
    (firstPrefixItem obj).or (obj.lookup "items") := by
  unfold downgradeKeywords
  rw [lookup_downgradePrefixItems_items, firstPrefixItem, firstPrefixItem,
    lookup_downgradeDependentRequired_ne (by decide) (by decide),
    lookup_downgradeDependentRequired_ne (by decide) (by decide),
    lookup_downgradeConst_ne (by decide) (by decide),
    lookup_downgradeConst_ne (by decide) (by decide),
    lookup_downgradeExclusive_ne (by decide), lookup_downgradeExclusive_ne (by decide),
    lookup_downgradeExclusive_ne (by decide), lookup_downgradeExclusive_ne (by decide),
    lookup_downgradeType_ne (by decide) (by decide),
    lookup_downgradeType_ne (by decide) (by decide)]

/-- The type is what the first rewriting leaves. -/
theorem lookup_downgradeKeywords_type :
    (downgradeKeywords obj).lookup "type" = (downgradeType obj).lookup "type" := by
  unfold downgradeKeywords
  rw [lookup_downgradePrefixItems_ne (by decide) (by decide),
    lookup_downgradeDependentRequired_ne (by decide) (by decide),
    lookup_downgradeConst_ne (by decide) (by decide),
    lookup_downgradeExclusive_ne (by decide), lookup_downgradeExclusive_ne (by decide)]

theorem lookup_downgradeKeywords_nullable :
    (downgradeKeywords obj).lookup "nullable" = (downgradeType obj).lookup "nullable" := by
  unfold downgradeKeywords
  rw [lookup_downgradePrefixItems_ne (by decide) (by decide),
    lookup_downgradeDependentRequired_ne (by decide) (by decide),
    lookup_downgradeConst_ne (by decide) (by decide),
    lookup_downgradeExclusive_ne (by decide), lookup_downgradeExclusive_ne (by decide)]

theorem lookup_downgradeKeywords_exclusive {n : Number}
    (hfield : field ∈ ["exclusiveMinimum", "exclusiveMaximum"])
    (h : obj.lookup field = some (.number n)) :
    (downgradeKeywords obj).lookup field = some (.bool true) := by
  have hself : ∀ {field obj}, List.lookup field obj = some (Value.number n) →
      (downgradeExclusive field obj).lookup field = some (.bool true) := by
    intro field obj hn
    rw [downgradeExclusive, hn]
    exact BTreeMap.lookup_insertKey_self _ _ _
  unfold downgradeKeywords
  rcases List.mem_pair.mp hfield with rfl | rfl
  · rw [lookup_downgradePrefixItems_ne (by decide) (by decide),
      lookup_downgradeDependentRequired_ne (by decide) (by decide),
      lookup_downgradeConst_ne (by decide) (by decide), lookup_downgradeExclusive_ne (by decide)]
    refine hself ?_
    rw [lookup_downgradeType_ne (by decide) (by decide), h]
  · rw [lookup_downgradePrefixItems_ne (by decide) (by decide),
      lookup_downgradeDependentRequired_ne (by decide) (by decide),
      lookup_downgradeConst_ne (by decide) (by decide)]
    refine hself ?_
    rw [lookup_downgradeExclusive_ne (by decide), lookup_downgradeType_ne (by decide) (by decide), h]

end

/-! ## §4  Both passes -/

def downgraded (v : Value) : Value := downgradeValue (extractRefSiblings v)

section

variable {obj : List (String × Value)} {k ref : String}

theorem downgraded_array (arr : List Value) :
    downgraded (.array arr) = .array (arr.map downgraded) := by
  rw [downgraded, extractRefSiblings, extractItems_eq, downgradeValue_array, List.map_map]
  rfl

/-- An object without siblings of a reference. -/
theorem downgraded_object (h : siblingRef obj = none) :
    downgraded (.object obj) = .object (BTreeMap.mapEntries (fun _ => downgradeValue)
      (downgradeKeywords (BTreeMap.mapEntries (fun _ => extractRefSiblings) obj))) := by
  rw [downgraded, extractRefSiblings, h, extractEntries_eq, downgradeValue_object]

theorem get_downgraded (h : siblingRef obj = none) :
    (downgraded (.object obj)).get k = ((downgradeKeywords
      (BTreeMap.mapEntries (fun _ => extractRefSiblings) obj)).lookup k).map downgradeValue := by
  rw [downgraded_object h]
  exact BTreeMap.lookup_mapEntries k _

theorem siblingRef_removeKey (obj : List (String × Value)) :
    siblingRef (BTreeMap.removeKey "$ref" obj) = none := by
  rw [siblingRef, BTreeMap.lookup_removeKey_self]
  rfl

/-- A reference with siblings becomes an `allOf` of the two. -/
theorem downgraded_wrapper (h : siblingRef obj = some ref) :
    downgraded (.object obj) = .object [("allOf", .array [.object [("$ref", .string ref)],
      downgraded (.object (BTreeMap.removeKey "$ref" obj))])] := by
  have hrest : extractRefSiblings (.object (BTreeMap.removeKey "$ref" obj)) =
      .object (BTreeMap.removeKey "$ref" (extractEntries obj)) := by
    rw [extractRefSiblings, siblingRef_removeKey, extractEntries_eq, extractEntries_eq,
      BTreeMap.mapEntries_removeKey]
  rw [downgraded, downgraded, hrest, extractRefSiblings, h]
  rfl

end

end SpecForge
