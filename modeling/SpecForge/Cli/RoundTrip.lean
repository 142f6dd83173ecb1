import SpecForge.Cli.Convert
import SpecForge.Core.Downgraded

/-!
# To 3.1 and back

A 3.0 document that has none of the keywords of 3.1 comes back from an upgrade and a
downgrade as it was. §1 says what the upgrade leaves under a key, §2 that the downgrade of
the keywords undoes it, §3 the same for whole documents.
-/

namespace SpecForge.Cli

open Lib

/-! ## §1  Upgraded keywords -/

section

variable {obj : List (String × Value)} {k field companion : String}

theorem lookup_upgradeNullable_ne (htype : k ≠ "type") (hnullable : k ≠ "nullable") :
    (upgradeNullable obj).lookup k = obj.lookup k := by
  unfold upgradeNullable
  split
  · split
    · rw [BTreeMap.lookup_removeKey_ne hnullable]
      split
      · exact BTreeMap.lookup_insertKey_ne htype _ _
      · rfl
    · rfl
  · rfl

theorem lookup_upgradeExclusive_ne (h : k ≠ field) :
    (upgradeExclusive field companion obj).lookup k = obj.lookup k := by
  unfold upgradeExclusive
  split
  · split
    · exact BTreeMap.lookup_insertKey_ne h _ _
    · rfl
  · rfl

/-- A bound stays, or was exclusive and is a number now. -/
theorem lookup_upgradeExclusive_self :
    (upgradeExclusive field companion obj).lookup field = obj.lookup field ∨
      obj.lookup field = some (.bool true) ∧
        ∃ n, (upgradeExclusive field companion obj).lookup field = some (.number n) := by
  unfold upgradeExclusive
  split
  · next htrue =>
      split
      · next n _ => exact Or.inr ⟨htrue, n, BTreeMap.lookup_insertKey_self _ _ _⟩
      · exact Or.inl rfl
  · exact Or.inl rfl

theorem lookup_upgradeEnum_ne (hconst : k ≠ "const") (henum : k ≠ "enum") :
    (upgradeEnum obj).lookup k = obj.lookup k := by
  unfold upgradeEnum
  split
  · rw [BTreeMap.lookup_removeKey_ne henum, BTreeMap.lookup_insertKey_ne hconst]
  · rfl

/-- The value of an `enum` is the `const` that takes its place. -/
theorem lookup_upgradeEnum (hconst : obj.lookup "const" = none) :
    (((upgradeEnum obj).lookup "const").map fun c => Value.array [c]).or
      ((upgradeEnum obj).lookup "enum") = obj.lookup "enum" := by
  unfold upgradeEnum
  split
  · next v henum =>
      rw [BTreeMap.lookup_removeKey_ne (by decide), BTreeMap.lookup_insertKey_self, henum]
      rfl
  · rw [hconst]
    rfl

theorem sorted_upgradeKeywords (h : BTreeMap.Sorted obj) :
    BTreeMap.Sorted (upgradeKeywords obj) := by
  have hnullable : BTreeMap.Sorted (upgradeNullable obj) := by
    unfold upgradeNullable
    split
    · split
      · apply BTreeMap.sorted_removeKey
        split
        · exact BTreeMap.sorted_insertKey h
        · exact h
      · exact h
    · exact h
  have hexclusive : ∀ field companion obj, BTreeMap.Sorted obj →
      BTreeMap.Sorted (upgradeExclusive field companion obj) := by
    intro field companion obj h
    unfold upgradeExclusive
    split
    · split
      · exact BTreeMap.sorted_insertKey h
      · exact h
    · exact h
  unfold upgradeKeywords upgradeEnum
  dsimp only
  split
  · apply BTreeMap.sorted_removeKey
    apply BTreeMap.sorted_insertKey
    exact hexclusive _ _ _ (hexclusive _ _ _ hnullable)
  · exact hexclusive _ _ _ (hexclusive _ _ _ hnullable)

/-- The keys that the upgrade writes. -/
def upgradedKeys : List String :=
  ["type", "nullable", "exclusiveMinimum", "exclusiveMaximum", "const", "enum"]

theorem lookup_upgradeKeywords_of_notMem (h : k ∉ upgradedKeys) :
    (upgradeKeywords obj).lookup k = obj.lookup k := by
  simp only [upgradedKeys, List.mem_cons, List.not_mem_nil, or_false, not_or] at h
  obtain ⟨htype, hnullable, hmin, hmax, hconst, henum⟩ := h
  unfold upgradeKeywords
  rw [lookup_upgradeEnum_ne hconst henum, lookup_upgradeExclusive_ne hmax,
    lookup_upgradeExclusive_ne hmin, lookup_upgradeNullable_ne htype hnullable]

/-- The type and `nullable` are what the first rewriting leaves. -/
theorem lookup_upgradeKeywords_nullable (h : k = "type" ∨ k = "nullable") :
    (upgradeKeywords obj).lookup k = (upgradeNullable obj).lookup k := by
  unfold upgradeKeywords
  rcases h with rfl | rfl
  · rw [lookup_upgradeEnum_ne (by decide) (by decide), lookup_upgradeExclusive_ne (by decide),
      lookup_upgradeExclusive_ne (by decide)]
  · rw [lookup_upgradeEnum_ne (by decide) (by decide), lookup_upgradeExclusive_ne (by decide),
      lookup_upgradeExclusive_ne (by decide)]

theorem lookup_upgradeKeywords_exclusive
    (hfield : field ∈ ["exclusiveMinimum", "exclusiveMaximum"]) :
    (upgradeKeywords obj).lookup field = obj.lookup field ∨
      obj.lookup field = some (.bool true) ∧
        ∃ n, (upgradeKeywords obj).lookup field = some (.number n) := by
  unfold upgradeKeywords
  rcases List.mem_pair.mp hfield with rfl | rfl
  · rw [lookup_upgradeEnum_ne (by decide) (by decide), lookup_upgradeExclusive_ne (by decide)]
    have hself :=
      @lookup_upgradeExclusive_self (upgradeNullable obj) "exclusiveMinimum" "minimum"
    rwa [lookup_upgradeNullable_ne (by decide) (by decide)] at hself
  · rw [lookup_upgradeEnum_ne (by decide) (by decide)]
    have hself := @lookup_upgradeExclusive_self
      (upgradeExclusive "exclusiveMinimum" "minimum" (upgradeNullable obj))
      "exclusiveMaximum" "maximum"
    have hinner : (upgradeExclusive "exclusiveMinimum" "minimum" (upgradeNullable obj)).lookup
        "exclusiveMaximum" = obj.lookup "exclusiveMaximum" := by
      rw [lookup_upgradeExclusive_ne (by decide),
        lookup_upgradeNullable_ne (by decide) (by decide)]
    rw [hinner] at hself
    exact hself

end

/-! ## §2  Keywords that come back -/

/-- The object has none of the keywords that only 3.1 has, and its type is one that can be
made nullable. -/
structure Of30 (obj : List (String × Value)) : Prop where
  absent : ∀ k ∈ removedKeywords, obj.lookup k = none
  typeName : ∀ t, obj.lookup "type" = some t → t.asArray = none ∧ isNullName t = false
  exclusive : ∀ field ∈ ["exclusiveMinimum", "exclusiveMaximum"], ∀ n,
    obj.lookup field ≠ some (.number n)
  nullable : obj.lookup "nullable" = some (.bool true) → ∀ t, obj.lookup "type" = some t →
    t.isString = true

section

variable {obj : List (String × Value)}

/-- Either the type takes `nullable` in, or both stay. -/
theorem Of30.upgradeNullable (h : Of30 obj) :
    (∃ t, t ≠ "null" ∧ obj.lookup "type" = some (.string t) ∧
      obj.lookup "nullable" = some (.bool true) ∧
      upgradeNullable obj = BTreeMap.removeKey "nullable"
        (BTreeMap.insertKey "type" (.array [.string t, .string "null"]) obj)) ∨
    upgradeNullable obj = obj := by
  unfold Cli.upgradeNullable
  split
  · next type nullable htype hnullable =>
      split
      · next htrue =>
          have hbool : nullable = .bool true := by
            cases nullable <;> simp_all [Value.asBool]
          subst hbool
          have hstring := h.nullable hnullable type htype
          rcases type with _ | _ | _ | t | _ | _
          · cases hstring
          · cases hstring
          · cases hstring
          · refine Or.inl ⟨t, ?_, htype, hnullable, rfl⟩
            rintro rfl
            cases (h.typeName _ htype).2
          · cases hstring
          · cases hstring
      · exact Or.inr rfl
  · exact Or.inr rfl

/-- The downgrade of the type undoes the upgrade, whatever else is in the object. -/
theorem Of30.lookup_downgradeType (h : Of30 obj) {u : List (String × Value)}
    (htype : u.lookup "type" = (Cli.upgradeNullable obj).lookup "type")
    (hnullable : u.lookup "nullable" = (Cli.upgradeNullable obj).lookup "nullable") :
    (downgradeType u).lookup "type" = obj.lookup "type" ∧
      (downgradeType u).lookup "nullable" = obj.lookup "nullable" := by
  rcases h.upgradeNullable with ⟨t, hname, htype', hnullable', hup⟩ | hup
  · rw [hup, BTreeMap.lookup_removeKey_ne (by decide), BTreeMap.lookup_insertKey_self] at htype
    have hdown : downgradeType u = BTreeMap.insertKey "nullable" (.bool true)
        (BTreeMap.insertKey "type" (.string t) u) := by
      have hnull : isNullName (.string t) = false := by simpa [isNullName, Value.asStr] using hname
      rw [downgradeType, htype]
      simp [hnull, show isNullName (.string "null") = true from rfl]
    rw [hdown, BTreeMap.lookup_insertKey_ne (by decide), BTreeMap.lookup_insertKey_self,
      BTreeMap.lookup_insertKey_self, htype', hnullable']
    exact ⟨rfl, rfl⟩
  · rw [hup] at htype hnullable
    have hdown : downgradeType u = u := by
      refine downgradeType_of_not_array fun arr harr => ?_
      rw [htype] at harr
      cases (h.typeName _ harr).1
    rw [hdown]
    exact ⟨htype, hnullable⟩

/-- An object of 3.0 gets its keywords back. -/
theorem Of30.keywords (h : Of30 obj) (hsorted : BTreeMap.Sorted obj) :
    SpecForge.downgradeKeywords (upgradeKeywords obj) = obj := by
  apply BTreeMap.Sorted.eq_of_lookup
    (sorted_downgradeKeywords (sorted_upgradeKeywords hsorted)) hsorted
  intro k
  by_cases hkeyword : k ∈ keywordKeys
  · have htuple : (upgradeKeywords obj).lookup "prefixItems" = none := by
      rw [lookup_upgradeKeywords_of_notMem (by decide), h.absent _ (by decide)]
    have hdep : (upgradeKeywords obj).lookup "dependentRequired" = none := by
      rw [lookup_upgradeKeywords_of_notMem (by decide), h.absent _ (by decide)]
    have htypes := h.lookup_downgradeType (lookup_upgradeKeywords_nullable (Or.inl rfl))
      (lookup_upgradeKeywords_nullable (Or.inr rfl))
    have hexclusive : ∀ field ∈ ["exclusiveMinimum", "exclusiveMaximum"],
        (SpecForge.downgradeKeywords (upgradeKeywords obj)).lookup field =
          obj.lookup field := by
      intro field hfield
      rcases @lookup_upgradeKeywords_exclusive obj field hfield with hsame | ⟨htrue, n, hn⟩
      · rw [lookup_downgradeKeywords_of_not_number hfield fun n hn =>
          h.exclusive field hfield n (hsame ▸ hn), hsame]
      · rw [lookup_downgradeKeywords_exclusive hfield hn, htrue]
    simp only [keywordKeys, List.mem_cons, List.not_mem_nil, or_false] at hkeyword
    rcases hkeyword with rfl | rfl | rfl | rfl | rfl | rfl | rfl | rfl | rfl | rfl
    · rw [lookup_downgradeKeywords_type, htypes.1]
    · rw [lookup_downgradeKeywords_nullable, htypes.2]
    · exact hexclusive _ (by decide)
    · exact hexclusive _ (by decide)
    · rw [lookup_downgradeKeywords_removed (by decide), h.absent _ (by decide)]
    · have hup := @lookup_upgradeEnum (upgradeExclusive "exclusiveMaximum" "maximum"
        (upgradeExclusive "exclusiveMinimum" "minimum" (Cli.upgradeNullable obj))) (by
          rw [lookup_upgradeExclusive_ne (by decide), lookup_upgradeExclusive_ne (by decide),
            lookup_upgradeNullable_ne (by decide) (by decide), h.absent _ (by decide)])
      rw [lookup_upgradeExclusive_ne (by decide), lookup_upgradeExclusive_ne (by decide),
        lookup_upgradeNullable_ne (by decide) (by decide)] at hup
      rw [lookup_downgradeKeywords_enum]
      exact hup
    · rw [lookup_downgradeKeywords_removed (by decide), h.absent _ (by decide)]
    · rw [lookup_downgradeKeywords_required_of_none hdep,
        lookup_upgradeKeywords_of_notMem (by decide)]
    · rw [lookup_downgradeKeywords_removed (by decide), h.absent _ (by decide)]
    · rw [lookup_downgradeKeywords_items, firstPrefixItem, htuple,
        lookup_upgradeKeywords_of_notMem (by decide)]
      rfl
  · have hupgraded : k ∉ upgradedKeys := by
      intro hmem
      refine hkeyword ?_
      simp only [upgradedKeys, List.mem_cons, List.not_mem_nil, or_false] at hmem
      rcases hmem with rfl | rfl | rfl | rfl | rfl | rfl <;> decide
    rw [lookup_downgradeKeywords_of_notMem hkeyword, lookup_upgradeKeywords_of_notMem hupgraded]

end

/-! ## §3  Documents that come back -/

/-- Every object in the value is one of 3.0. -/
def Every30 (v : Value) : Prop :=
  ∀ obj, Relation.ReflTransGen Value.Part v (.object obj) → Of30 obj

section

variable {obj : List (String × Value)} {v w : Value}

theorem Every30.part (h : Every30 v) (hw : Value.Part v w) : Every30 w :=
  fun obj hobj => h obj (.head hw hobj)

theorem every30_of_parts (hv : ∀ obj, v = .object obj → Of30 obj)
    (h : ∀ w, Value.Part v w → Every30 w) : Every30 v := by
  intro obj hobj
  rcases Relation.ReflTransGen.cases_head hobj with heq | ⟨w, hw, hobj⟩
  · exact hv obj heq
  · exact h w hw obj hobj

/-- The upgrade of the values keeps what the keywords ask for. -/
theorem Of30.upgraded (h : Of30 obj) :
    Of30 (BTreeMap.mapEntries (fun _ => upgrade30To31) obj) := by
  constructor
  · intro k hk
    rw [BTreeMap.lookup_mapEntries, h.absent k hk, Option.map_none]
  · intro t ht
    rw [BTreeMap.lookup_mapEntries, Option.map_eq_some_iff] at ht
    obtain ⟨t', ht', rfl⟩ := ht
    have hname := h.typeName t' ht'
    rcases t' with _ | _ | _ | _ | _ | _
    · exact hname
    · exact hname
    · exact hname
    · exact hname
    · cases hname.1
    · exact ⟨rfl, rfl⟩
  · intro field hfield n hn
    rw [BTreeMap.lookup_mapEntries, Option.map_eq_some_iff] at hn
    obtain ⟨v, hv, hnumber⟩ := hn
    rcases v with _ | _ | m | _ | _ | _
    · cases hnumber
    · cases hnumber
    · exact h.exclusive field hfield m hv
    · cases hnumber
    · cases hnumber
    · cases hnumber
  · intro hnullable t ht
    rw [BTreeMap.lookup_mapEntries, Option.map_eq_some_iff] at hnullable ht
    obtain ⟨t', ht', rfl⟩ := ht
    obtain ⟨b, hb, hbool⟩ := hnullable
    have htrue : b = .bool true := by
      rcases b with _ | _ | _ | _ | _ | _
      · cases hbool
      · exact hbool
      · cases hbool
      · cases hbool
      · cases hbool
      · cases hbool
    have hstring := h.nullable (htrue ▸ hb) t' ht'
    rcases t' with _ | _ | _ | _ | _ | _
    · cases hstring
    · cases hstring
    · cases hstring
    · rfl
    · cases hstring
    · cases hstring

/-- The second pass undoes the upgrade at every depth. -/
theorem downgradeValue_upgrade : v.isOrdered = true → Every30 v →
    SpecForge.downgradeValue (upgrade30To31 v) = v := by
  induction v using Value.induction with
  | array items ih =>
      intro hordered hall
      rw [Value.isOrdered_array] at hordered
      rw [upgrade30To31_array, downgradeValue_array, List.map_map]
      have hid : items.map (SpecForge.downgradeValue ∘ upgrade30To31) = items.map id := by
        apply List.map_congr_left
        intro x hx
        exact ih x hx (hordered x hx) (hall.part (.item hx))
      rw [hid, List.map_id]
  | object obj ih =>
      intro hordered hall
      rw [Value.isOrdered_object] at hordered
      have hkeywords := (hall obj .refl).upgraded.keywords
        (BTreeMap.sorted_mapEntries hordered.1)
      have hid : obj.map (fun e => (e.1, SpecForge.downgradeValue (upgrade30To31 e.2))) =
          obj.map id := by
        apply List.map_congr_left
        intro e he
        rw [ih e he (hordered.2 e he) (hall.part (.member he))]
        rfl
      rw [upgrade30To31, upgradeEntries_eq, downgradeValue_object, hkeywords,
        BTreeMap.mapEntries, BTreeMap.mapEntries, List.map_map]
      change Value.object (obj.map fun e =>
        (e.1, SpecForge.downgradeValue (upgrade30To31 e.2))) = _
      rw [hid, List.map_id]
  | _ => exact fun _ _ => rfl

end

/-- A document of 3.0 with paths comes back from 3.1 as it was. -/
theorem downgrade_upgrade (json : Value) (hordered : json.isOrdered = true)
    (hpaths : (json.get "paths").isSome = true) (h30 : Every30 json) :
    downgrade31To30 (upgrade30To31 json) = json := by
  have hkept : ((upgrade30To31 json).get "paths").isSome = true := by
    rcases json with _ | _ | _ | _ | _ | obj
    · cases hpaths
    · cases hpaths
    · cases hpaths
    · cases hpaths
    · cases hpaths
    · rw [upgrade30To31_object, Value.get_object, BTreeMap.lookup_mapEntries, Option.isSome_map,
        lookup_upgradeKeywords_of_notMem (by decide)]
      exact hpaths
  obtain ⟨paths, hpaths'⟩ := Option.isSome_iff_exists.mp hkept
  rw [downgrade31To30_eq, ensurePaths, hpaths']
  exact downgradeValue_upgrade hordered h30

/-- A nullable name that is always the same. -/
def nameSchema : List (String × Value) :=
  [("enum", .array [.string "Rex"]), ("nullable", .bool true), ("type", .string "string")]

def nameDoc : Value := .object [("components", .object nameSchema), ("paths", .object [])]

theorem of30_nameSchema : Of30 nameSchema := by
  constructor
  · intro k hk
    simp only [removedKeywords, List.mem_cons, List.not_mem_nil, or_false] at hk
    rcases hk with rfl | rfl | rfl <;> rfl
  · intro t ht
    obtain rfl : Value.string "string" = t := Option.some.inj ht
    exact ⟨rfl, rfl⟩
  · intro field hfield n hn
    rcases List.mem_pair.mp hfield with rfl | rfl
    · cases hn
    · cases hn
  · intro _ t ht
    obtain rfl : Value.string "string" = t := Option.some.inj ht
    rfl

theorem of30_of_keys {obj : List (String × Value)} (h : ∀ k ∈ keywordKeys, obj.lookup k = none) :
    Of30 obj := by
  constructor
  · intro k hk
    refine h k ?_
    simp only [removedKeywords, List.mem_cons, List.not_mem_nil, or_false] at hk
    rcases hk with rfl | rfl | rfl <;> decide
  · intro t ht
    rw [h _ (by decide)] at ht
    cases ht
  · intro field hfield n hn
    rcases List.mem_pair.mp hfield with rfl | rfl
    · rw [h _ (by decide)] at hn
      cases hn
    · rw [h _ (by decide)] at hn
      cases hn
  · intro hnullable
    rw [h _ (by decide)] at hnullable
    cases hnullable

theorem every30_of_leaf {v : Value} (hobject : v.isObject = false)
    (hleaf : ∀ w, ¬ Value.Part v w) : Every30 v := by
  apply every30_of_parts
  · rintro obj rfl
    cases hobject
  · exact fun w hw => absurd hw (hleaf w)

theorem every30_nameDoc : Every30 nameDoc := by
  have hstring : ∀ t, Every30 (.string t) := fun t =>
    every30_of_leaf rfl (by rintro w ⟨⟩)
  have hbool : ∀ b, Every30 (.bool b) := fun b => every30_of_leaf rfl (by rintro w ⟨⟩)
  apply every30_of_parts
  · rintro obj ⟨⟩
    apply of30_of_keys
    decide
  · rintro w (_ | @⟨_, e, he⟩)
    rcases List.mem_pair.mp he with rfl | rfl
    · apply every30_of_parts
      · rintro obj ⟨⟩
        exact of30_nameSchema
      · rintro w (_ | @⟨_, e, he⟩)
        simp only [nameSchema, List.mem_cons, List.not_mem_nil, or_false] at he
        rcases he with rfl | rfl | rfl
        · apply every30_of_parts
          · rintro obj ⟨⟩
          · rintro w (⟨hx⟩ | _)
            rw [List.mem_singleton.mp hx]
            exact hstring _
        · exact hbool _
        · exact hstring _
    · apply every30_of_parts
      · rintro obj ⟨⟩
        apply of30_of_keys
        decide
      · rintro w (_ | @⟨_, e, he⟩)
        exact absurd he List.not_mem_nil

theorem downgrade_upgrade_name : ∃ v, upgrade30To31 nameDoc = v ∧
    v.get "components" = some (.object [("const", .string "Rex"),
      ("type", .array [.string "string", .string "null"])]) ∧
    downgrade31To30 v = nameDoc :=
  ⟨_, rfl, rfl, downgrade_upgrade nameDoc (by decide +kernel) rfl every30_nameDoc⟩

end SpecForge.Cli
